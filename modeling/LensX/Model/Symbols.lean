import Mathlib.Algebra.Group.Nat.Defs
import Mathlib.Data.List.Infix

/-! # Symbol resolution

`resolve_sym` over the lines that `nm -C` prints: the first line that `grep` selects
is read back with `fgets` and `sscanf`. A symbol has no character that `grep` or the
shell would interpret.
-/

namespace LensX

/-- The special characters of the pattern and of the quotes around it. -/
def metacharacters : List Char := ".[]\\()*+?\x7b|\x7d^$'\n".toList

/-- A symbol that stands for itself in the pattern. -/
structure PlainSymbol where
  text : String
  plain : text.toList.all (· ∉ metacharacters)

/-- `[0-9a-f]`. -/
def isHexDigit (c : Char) : Bool := '0' ≤ c ∧ c ≤ '9' ∨ 'a' ≤ c ∧ c ≤ 'f'

/-- The line matches `^[0-9a-f]+ [A-Z] .*symbol`. -/
def grepSelects (symbol : PlainSymbol) (line : List Char) : Bool :=
  match line.dropWhile isHexDigit with
  | ' ' :: type :: ' ' :: rest =>
    line.takeWhile isHexDigit ≠ [] ∧ type.isUpper ∧ symbol.text.toList <:+: rest
  | _ => false

/-- The value of a digit for `%llx`. -/
def hexVal (c : Char) : Option ℕ :=
  if '0' ≤ c ∧ c ≤ '9' then some (c.toNat - 48)
  else if 'a' ≤ c ∧ c ≤ 'f' then some (c.toNat - 87)
  else if 'A' ≤ c ∧ c ≤ 'F' then some (c.toNat - 55)
  else none

/-- `sscanf(buf, "%llx", &off)` on a text that starts with a digit; too large values saturate. -/
def scanLlx (buf : List Char) : UInt64 :=
  let digits := (buf.map hexVal).takeWhile Option.isSome
  .ofNat (min (digits.foldl (fun n d => 16 * n + d.getD 0) 0) (2 ^ 64 - 1))

/-- `fgets` on the output of the pipe: the first line, as far as it fits into the buffer. -/
def fgets (size : ℕ) (line : List Char) : List Char := (line ++ ['\n']).take (size - 1)

/-- The offset, or the message before the exit. -/
def resolveSym (exe : String) (nm : List (List Char)) (symbol : PlainSymbol) :
    Except String UInt64 :=
  match nm.find? (grepSelects symbol) with
  | none => .error ("symbol '" ++ symbol.text ++ "' not found in " ++ exe ++ "\n")
  | some line => .ok (scanLlx (fgets 4096 line))

end LensX
