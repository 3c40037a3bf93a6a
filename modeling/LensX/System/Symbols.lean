import Mathlib.Data.Nat.Digits.Lemmas
import LensX.Model.Symbols

/-! # Which symbol is resolved

The first line that contains the symbol decides. The offset is that of the requested
function if no line of another function comes first.
-/

namespace LensX

/-- An entry of a symbol table. The name is printed with the parameter list, if there is one, and
what may follow it. -/
structure NmEntry where
  addr : UInt64
  type : Char
  base : String
  params : String
  deriving DecidableEq, Repr

/-- Sixteen digits. -/
def hexText (n : UInt64) : List Char := (Nat.digitsAppend 16 16 n.toNat).reverse.map Nat.digitChar

namespace NmEntry

def name (e : NmEntry) : List Char := e.base.toList ++ e.params.toList

def line (e : NmEntry) : List Char := hexText e.addr ++ ' ' :: e.type :: ' ' :: e.name

/-- An upper case type and a name that contains the symbol. -/
def Contains (e : NmEntry) (symbol : PlainSymbol) : Prop :=
  e.type.isUpper = true ∧ symbol.text.toList <:+: e.name

instance (e : NmEntry) (symbol : PlainSymbol) : Decidable (e.Contains symbol) :=
  inferInstanceAs (Decidable (_ ∧ _))

end NmEntry

section Digits

theorem digit_spec {d : ℕ} (h : d < 16) :
    isHexDigit d.digitChar = true ∧ hexVal d.digitChar = some d := by
  have hall : ∀ d < 16, isHexDigit d.digitChar = true ∧ hexVal d.digitChar = some d := by decide
  exact hall d h

variable (n : UInt64)

theorem length_hexText : (hexText n).length = 16 := by
  rw [hexText, List.length_map, List.length_reverse]
  exact Nat.length_digitsAppend (by decide) 16 n.toNat_lt

theorem exists_digit_of_mem_hexText {c : Char} (hc : c ∈ hexText n) :
    ∃ d < 16, c = Nat.digitChar d := by
  obtain ⟨d, hd, rfl⟩ := List.mem_map.mp hc
  exact ⟨d, Nat.lt_of_mem_digitsAppend (by decide) 16 d (List.mem_reverse.mp hd), rfl⟩

theorem isHexDigit_of_mem_hexText {c : Char} (hc : c ∈ hexText n) : isHexDigit c = true := by
  obtain ⟨d, hd, rfl⟩ := exists_digit_of_mem_hexText n hc
  exact (digit_spec hd).1

theorem map_hexVal_hexText :
    (hexText n).map hexVal = (Nat.digitsAppend 16 16 n.toNat).reverse.map some := by
  rw [hexText, List.map_map]
  refine List.map_congr_left fun d hd => ?_
  exact (digit_spec (Nat.lt_of_mem_digitsAppend (by decide) 16 d (List.mem_reverse.mp hd))).2

theorem foldl_digits (l : List ℕ) :
    (l.reverse.map some).foldl (fun n d => 16 * n + d.getD 0) 0 = Nat.ofDigits 16 l := by
  induction l with
  | nil => rfl
  | cons d l ih =>
    rw [List.reverse_cons, List.map_append, List.foldl_append, ih, Nat.ofDigits_cons]
    simp [Nat.add_comm]

/-- Reading the text of an address gives the address back. -/
theorem scanLlx_hexText (rest : List Char) : scanLlx (hexText n ++ ' ' :: rest) = n := by
  have hdigits : ((hexText n ++ ' ' :: rest).map hexVal).takeWhile Option.isSome =
      (Nat.digitsAppend 16 16 n.toNat).reverse.map some := by
    rw [List.map_append, map_hexVal_hexText, List.takeWhile_append_of_pos (by simp)]
    simp [hexVal]
  have hval := (Nat.setInvOn_digitsAppend_ofDigits (b := 16) (by decide) 16).2
    (show n.toNat ∈ {m | m < 16 ^ 16} from n.toNat_lt)
  have hlt := n.toNat_lt
  simp only [scanLlx, hdigits, foldl_digits, hval]
  rw [Nat.min_eq_left (by omega), UInt64.ofNat_toNat]

end Digits

section Table

variable {symbol : PlainSymbol} {nm : List NmEntry}

theorem grepSelects_line (e : NmEntry) : grepSelects symbol e.line = true ↔ e.Contains symbol := by
  have hdrop : e.line.dropWhile isHexDigit = ' ' :: e.type :: ' ' :: e.name := by
    rw [NmEntry.line, List.dropWhile_append_of_pos fun c => isHexDigit_of_mem_hexText e.addr]
    rfl
  have htake : e.line.takeWhile isHexDigit ≠ [] := by
    rw [NmEntry.line, List.takeWhile_append_of_pos fun c => isHexDigit_of_mem_hexText e.addr]
    have hlen := length_hexText e.addr
    intro h
    rw [(List.append_eq_nil_iff.mp h).1] at hlen
    cases hlen
  rw [grepSelects, hdrop]
  simp only [htake, ne_eq, not_false_eq_true, true_and, decide_eq_true_eq]
  rfl

theorem scanLlx_line (e : NmEntry) : scanLlx (fgets 4096 e.line) = e.addr := by
  have hbuf : fgets 4096 e.line =
      hexText e.addr ++ ' ' :: ((e.type :: ' ' :: e.name) ++ ['\n']).take 4078 := by
    rw [fgets, NmEntry.line, List.append_assoc, List.take_append, length_hexText,
      List.take_of_length_le (by rw [length_hexText]; decide)]
    rfl
  rw [hbuf, scanLlx_hexText]

/-- The offset is the address of the first entry that contains the symbol. -/
theorem resolveSym_eq (exe : String) (nm : List NmEntry) (symbol : PlainSymbol) :
    resolveSym exe (nm.map NmEntry.line) symbol =
      match nm.find? (·.Contains symbol) with
      | none => .error ("symbol '" ++ symbol.text ++ "' not found in " ++ exe ++ "\n")
      | some e => .ok e.addr := by
  have hfind : (nm.map NmEntry.line).find? (grepSelects symbol) =
      (nm.find? (·.Contains symbol)).map NmEntry.line := by
    rw [List.find?_map]
    congr 2
    ext e
    rw [Function.comp_apply, Bool.eq_iff_iff, grepSelects_line, decide_eq_true_eq]
  rw [resolveSym, hfind]
  cases nm.find? (·.Contains symbol) with
  | none => rfl
  | some e => exact congrArg _ (scanLlx_line e)

/-- The address is that of a function with the name. -/
def Named (nm : List NmEntry) (symbol : PlainSymbol) (addr : UInt64) : Prop :=
  ∃ e ∈ nm, e.base = symbol.text ∧ e.addr = addr

/-- A returned offset is the address of the requested function. -/
def ResolvesExactly (nm : List NmEntry) (symbol : PlainSymbol) : Prop :=
  ∀ exe offset, resolveSym exe (nm.map NmEntry.line) symbol = .ok offset → Named nm symbol offset

/-- An entry that contains the symbol but has the address of another function comes after one that
has the address of the requested one. -/
def ExactFirst (nm : List NmEntry) (symbol : PlainSymbol) : Prop :=
  ∀ pre e post, nm = pre ++ e :: post → e.Contains symbol → ¬ Named nm symbol e.addr →
    ∃ e' ∈ pre, e'.Contains symbol ∧ Named nm symbol e'.addr

/-- The first element with a property is good if and only if every bad one comes after a good
one. -/
theorem forall_find?_iff {α : Type*} {p q : α → Prop} [DecidablePred p] {l : List α} :
    (∀ a, l.find? p = some a → q a) ↔
      ∀ pre a post, l = pre ++ a :: post → p a → ¬ q a → ∃ b ∈ pre, p b ∧ q b := by
  constructor
  · rintro h pre a post rfl hp hq
    have hcons : (a :: post).find? (fun b => decide (p b)) = some a :=
      List.find?_cons_of_pos (p := fun b => decide (p b)) (decide_eq_true hp)
    rw [List.find?_append, hcons] at h
    cases hpre : pre.find? p with
    | none =>
      rw [hpre] at h
      exact absurd (h a rfl) hq
    | some b =>
      rw [hpre] at h
      exact ⟨b, List.mem_of_find?_eq_some hpre, by simpa using List.find?_some hpre, h b rfl⟩
  · intro h a hfind
    obtain ⟨hp, pre, post, rfl, hpre⟩ := List.find?_eq_some_iff_append.mp hfind
    by_contra hq
    obtain ⟨b, hb, hpb, -⟩ := h pre a post rfl (of_decide_eq_true hp) hq
    simpa [hpb] using hpre b hb

/-- Symbols are resolved exactly if and only if no entry of another function comes first. -/
theorem resolvesExactly_iff (nm : List NmEntry) (symbol : PlainSymbol) :
    ResolvesExactly nm symbol ↔ ExactFirst nm symbol := by
  have hfirst : ResolvesExactly nm symbol ↔
      ∀ e, nm.find? (·.Contains symbol) = some e → Named nm symbol e.addr := by
    simp only [ResolvesExactly, resolveSym_eq]
    constructor
    · intro h e he
      exact h "" e.addr (by rw [he])
    · intro h exe offset hok
      cases hfind : nm.find? (·.Contains symbol) with
      | none =>
        rw [hfind] at hok
        cases hok
      | some e =>
        rw [hfind] at hok
        exact Except.ok.inj hok ▸ h e hfind
  rw [hfirst]
  exact forall_find?_iff

end Table

/-- Another function whose name ends in the symbol comes first in the table. -/
theorem not_resolvesExactly_async :
    resolveSym "/usr/bin/server" ([⟨0x1139, 'T', "async_send", "(int)"⟩,
        ⟨0x1180, 'T', "send", "(int)"⟩].map NmEntry.line) ⟨"send", rfl⟩ = .ok 0x1139 ∧
      ¬ ResolvesExactly [⟨0x1139, 'T', "async_send", "(int)"⟩, ⟨0x1180, 'T', "send", "(int)"⟩]
        ⟨"send", rfl⟩ := by
  have hok : resolveSym "/usr/bin/server" ([⟨0x1139, 'T', "async_send", "(int)"⟩,
      ⟨0x1180, 'T', "send", "(int)"⟩].map NmEntry.line) ⟨"send", rfl⟩ = .ok 0x1139 := by
    rw [resolveSym_eq]
    rfl
  refine ⟨hok, fun h => ?_⟩
  obtain ⟨e, he, hbase, haddr⟩ := h _ _ hok
  revert e
  decide

end LensX
