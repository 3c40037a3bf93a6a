import Mathlib.Data.List.Pairwise
import LensX.Model.Sections
import LensX.System.Attach

/-! # Generated sections

A section name is for at most one definition of libbpf, so the order of its table does
not matter. The programs that are generated for probes get the types that the attach
loop relies on, and attaching them by their sections is, for most of them, what the
loop does.
-/

namespace LensX

section Matching

/-- The part of a section name that a definition with a plus refers to. -/
def secType (l : List Char) : List Char := l.takeWhile (· ≠ '/')

theorem isPrefixOf_and_drop_iff {stem l : List Char} (h : '/' ∉ stem) :
    (stem.isPrefixOf l && (l.drop stem.length).head?.elim true (· == '/')) = true ↔
      secType l = stem := by
  rw [Bool.and_eq_true, List.isPrefixOf_iff_prefix]
  constructor
  · rintro ⟨⟨rest, rfl⟩, hrest⟩
    rw [List.drop_left] at hrest
    rw [secType, List.takeWhile_append_of_pos (ne_slash h)]
    cases rest with
    | nil => simp
    | cons c rest =>
      obtain rfl : c = '/' := by simpa using hrest
      simp
  · rintro rfl
    refine ⟨List.takeWhile_prefix _, ?_⟩
    clear h
    induction l with
    | nil => rfl
    | cons c l ih =>
      by_cases hc : c = '/'
      · subst hc
        rfl
      · simpa [secType, List.takeWhile_cons, hc] using ih

/-- Such a definition is also for names that continue with a slash. -/
abbrev SecDef.Plus (d : SecDef) : Prop := d.sec.toList.getLast? = some '+'

/-- There is a section name for which both definitions are. -/
def SecDef.overlaps (d d' : SecDef) : Bool :=
  if d.Plus then
    if d'.Plus then d.sec.toList.dropLast == d'.sec.toList.dropLast
    else secType d'.sec.toList == d.sec.toList.dropLast
  else if d'.Plus then secType d.sec.toList == d'.sec.toList.dropLast
  else d.sec.toList == d'.sec.toList

theorem SecDef.overlaps_comm (d d' : SecDef) : d.overlaps d' = d'.overlaps d := by
  unfold SecDef.overlaps
  by_cases h : d.Plus <;> by_cases h' : d'.Plus
  · rw [if_pos h, if_pos h', if_pos h', if_pos h, BEq.comm]
  · rw [if_pos h, if_neg h', if_neg h', if_pos h]
  · rw [if_neg h, if_pos h', if_pos h', if_neg h]
  · rw [if_neg h, if_neg h', if_neg h', if_neg h, BEq.comm]

theorem sectionDefs_regular : sectionDefs.all (fun d =>
    d.sec.toList.getLast? != some '/' && !(d.Plus && d.sec.toList.dropLast.contains '/')) =
      true := by
  decide +kernel

theorem sectionDefs_apart : sectionDefs.Pairwise fun d d' => d.overlaps d' = false := by
  decide +kernel

theorem secDefMatches_iff {d : SecDef} (hd : d ∈ sectionDefs) {secName : String} :
    secDefMatches d secName = true ↔
      if d.Plus then secType secName.toList = d.sec.toList.dropLast
      else secName.toList = d.sec.toList := by
  have hregular := List.all_eq_true.mp sectionDefs_regular d hd
  simp only [Bool.and_eq_true, bne_iff_ne, Bool.not_eq_true', Bool.and_eq_false_iff,
    decide_eq_false_iff_not] at hregular
  obtain ⟨hslash, hstem⟩ := hregular
  rw [secDefMatches]
  simp only [if_neg hslash]
  by_cases hplus : d.Plus
  · rw [if_pos hplus, if_pos hplus]
    refine isPrefixOf_and_drop_iff fun hmem => ?_
    rcases hstem with hstem | hstem
    · exact hstem hplus
    · simp [hmem] at hstem
  · rw [if_neg hplus, if_neg hplus, beq_iff_eq]

theorem overlaps_of_matches {d d' : SecDef} (hd : d ∈ sectionDefs) (hd' : d' ∈ sectionDefs)
    {secName : String} (h : secDefMatches d secName = true) (h' : secDefMatches d' secName = true) :
    d.overlaps d' = true := by
  rw [secDefMatches_iff hd] at h
  rw [secDefMatches_iff hd'] at h'
  unfold SecDef.overlaps
  split_ifs at h h' ⊢ <;> simp_all

end Matching

section Lookup

variable {table : List SecDef} (htable : table.Perm sectionDefs)
include htable

theorem eq_of_secDefMatches {d d' : SecDef} (hd : d ∈ table) (hd' : d' ∈ table) {secName : String}
    (h : secDefMatches d secName = true) (h' : secDefMatches d' secName = true) : d = d' := by
  rw [htable.mem_iff] at hd hd'
  by_contra hne
  have hoverlap := overlaps_of_matches hd hd' h h'
  have hsymm : Std.Symm fun d d' : SecDef => d.overlaps d' = false :=
    ⟨fun d d' h => (d'.overlaps_comm d).trans h⟩
  rw [sectionDefs_apart.forall hd hd' hne] at hoverlap
  exact Bool.noConfusion hoverlap

theorem find?_eq_some_of_matches {d : SecDef} (hd : d ∈ table) {secName : String}
    (h : secDefMatches d secName = true) : table.find? (secDefMatches · secName) = some d := by
  cases hfind : table.find? (secDefMatches · secName) with
  | none => exact absurd h (List.find?_eq_none.mp hfind d hd)
  | some d' =>
    have h' := List.find?_some hfind
    rw [eq_of_secDefMatches htable (List.mem_of_find?_eq_some hfind) hd h' h]

/-- Whatever the order of the table, it has the same definition for a name. -/
theorem section_perm (secName : String) :
    table.find? (secDefMatches · secName) = sectionDefs.find? (secDefMatches · secName) := by
  cases hfind : sectionDefs.find? (secDefMatches · secName) with
  | none =>
    refine List.find?_eq_none.mpr fun d hd => ?_
    exact List.find?_eq_none.mp hfind d (htable.mem_iff.mp hd)
  | some d =>
    exact find?_eq_some_of_matches htable (htable.mem_iff.mpr (List.mem_of_find?_eq_some hfind))
      (List.find?_some (p := (secDefMatches · secName)) hfind)

omit htable in
theorem section_perm_reverse :
    sectionDefs.reverse.find? (secDefMatches · "cgroup/sock") =
      sectionDefs.find? (secDefMatches · "cgroup/sock") :=
  section_perm (List.reverse_perm _) "cgroup/sock"

end Lookup

section Programs

theorem findSecDef_of_matches {d : SecDef} (hd : d ∈ sectionDefs) {secName : String}
    (h : secDefMatches d secName = true) : findSecDef [] none secName = some d := by
  rw [findSecDef, find?_eq_some_of_matches (.refl _) hd h]
  rfl

/-- The definition for the section of a program. -/
theorem exists_secDef (p : ProbeConfig) :
    ∃ d, findSecDef [] none p.bpfProgram.sec = some d ∧
      (d.progType, d.attachFn) =
        if p.type = "tracepoint" then (.tracepoint, some .tp)
        else if p.type = "kprobe" ∨ p.type = "kretprobe" then (.kprobe, some .kprobe)
        else (.kprobe, some .uprobe) := by
  have hmatch : ∀ {d : SecDef} {secName : String}, d ∈ sectionDefs → d.Plus →
      secType secName.toList = d.sec.toList.dropLast → findSecDef [] none secName = some d := by
    intro d secName hd hplus h
    exact findSecDef_of_matches hd ((secDefMatches_iff hd).mpr (by rwa [if_pos hplus]))
  unfold ProbeConfig.bpfProgram
  by_cases htp : p.type = "tracepoint"
  · rw [if_pos htp, if_pos htp]
    refine ⟨⟨"tracepoint+", .tracepoint, some .tp⟩, hmatch (by decide) (by decide) ?_, rfl⟩
    rw [String.toList_append]
    rfl
  rw [if_neg htp, if_neg htp]
  by_cases hkp : p.type = "kprobe" ∨ p.type = "kretprobe"
  · rw [if_pos hkp, if_pos hkp]
    rcases hkp with hkp | hkp
    · refine ⟨⟨"kprobe+", .kprobe, some .kprobe⟩, hmatch (by decide) (by decide) ?_, rfl⟩
      simp only [hkp, String.toList_append]
      rfl
    · refine ⟨⟨"kretprobe+", .kprobe, some .kprobe⟩, hmatch (by decide) (by decide) ?_, rfl⟩
      simp only [hkp, String.toList_append]
      rfl
  · rw [if_neg hkp, if_neg hkp]
    refine ⟨⟨"uprobe+", .kprobe, some .uprobe⟩, hmatch (by decide) (by decide) ?_, rfl⟩
    change secType "uprobe".toList = "uprobe".toList
    decide

theorem types_of_attachCall {p : ProbeConfig} {call : AttachCall} (h : p.attachCall = some call) :
    (call.progType, some call.attachFn) =
      if p.type = "tracepoint" then (.tracepoint, some .tp)
      else if p.type = "kprobe" ∨ p.type = "kretprobe" then (.kprobe, some .kprobe)
      else (.kprobe, some .uprobe) := by
  unfold ProbeConfig.attachCall at h
  split_ifs at h with hup hkp htp
  · obtain rfl := Option.some.inj h
    rw [hup]
    rfl
  · obtain rfl := Option.some.inj h
    have htp : p.type ≠ "tracepoint" := by
      rcases hkp with hkp | hkp <;> rw [hkp] <;> decide
    rw [if_neg htp, if_pos hkp]
    rfl
  · obtain rfl := Option.some.inj h
    rw [if_pos htp]
    rfl

/-- The name of a function tells how its probe is attached. -/
theorem type_of_progName {p q : ProbeConfig} (h : q.progName = p.progName) :
    (q.type = "tracepoint" ↔ p.type = "tracepoint") ∧
      (q.type = "kprobe" ∨ q.type = "kretprobe" ↔ p.type = "kprobe" ∨ p.type = "kretprobe") := by
  have hchars := congrArg String.toList h
  unfold ProbeConfig.progName at hchars
  rw [String.toList_append, String.toList_append] at hchars
  have hdisjoint : ∀ r : ProbeConfig, r.type = "tracepoint" →
      ¬ (r.type = "kprobe" ∨ r.type = "kretprobe") := by
    intro r hr
    rw [hr]
    decide
  by_cases htq : q.type = "tracepoint" <;> by_cases htp : p.type = "tracepoint" <;>
    by_cases hkq : q.type = "kprobe" ∨ q.type = "kretprobe" <;>
    by_cases hkp : p.type = "kprobe" ∨ p.type = "kretprobe" <;>
    simp_all

/-- Every link is made for a program to which libbpf gave the type of the link. -/
theorem link_section {cfg : Config} {obj : List BpfProgram} (hobj : obj ⊆ bpfPrograms cfg)
    (attach : BpfProgram → AttachCall → Bool) {l : Link} (hl : .ok l ∈ attachLoop cfg obj attach) :
    ∃ d, findSecDef [] none l.program.sec = some d ∧ d.progType = l.call.progType ∧
      d.attachFn = some l.call.attachFn := by
  obtain ⟨p, -, hlink⟩ := List.mem_map.mp hl
  unfold attachProbe at hlink
  split at hlink
  · cases hlink
  · next pr call hfind hcall =>
    split_ifs at hlink
    obtain rfl := Except.ok.inj hlink
    obtain ⟨q, -, rfl⟩ := List.mem_map.mp (hobj (List.mem_of_find?_eq_some hfind))
    have hname := List.find?_some (p := fun pr : BpfProgram => pr.name = p.progName) hfind
    have htypes := type_of_progName ((bpfProgram_name q).symm.trans (of_decide_eq_true hname))
    obtain ⟨d, hd, hdef⟩ := exists_secDef q
    rw [if_congr htypes.1 rfl (if_congr htypes.2 rfl rfl), ← types_of_attachCall hcall] at hdef
    exact ⟨d, hd, congrArg Prod.fst hdef, congrArg Prod.snd hdef⟩
  · cases hlink

/-- A program for the return of a function of the kernel. -/
theorem link_section_write :
    let write : ProbeConfig := ⟨"write", "kretprobe", "vfs_write", "", 1, ""⟩
    ∃ d, findSecDef [] none write.bpfProgram.sec = some d ∧ d.progType = .kprobe ∧
      d.attachFn = some .kprobe := by
  intro write
  let cfg : Config := ⟨"nebulaX", "", [write], [], []⟩
  have hl : .ok ⟨write.bpfProgram, .kprobe true "vfs_write"⟩ ∈
      attachLoop cfg (bpfPrograms cfg) fun _ _ => true := by decide
  have h := link_section (List.Subset.refl _) _ hl
  exact h

end Programs

section AutoAttach

theorem append_ne {pre s t : String} (h : pre.toList.isPrefixOf t.toList = false) :
    pre ++ s ≠ t := by
  rintro rfl
  rw [String.toList_append, List.isPrefixOf_iff_prefix.mpr (List.prefix_append _ _)] at h
  exact Bool.noConfusion h

theorem attachTp_append (event : String) : attachTp ("tracepoint/" ++ event) =
    if '/' ∈ event.toList then some (.tracepoint (splitEvent event).1 (splitEvent event).2)
    else none := by
  have hdrop : ("tracepoint/" ++ event).toList.drop
      (if "tp/".toList.isPrefixOf ("tracepoint/" ++ event).toList then "tp/".toList.length
        else "tracepoint/".toList.length) = event.toList := by
    rw [String.toList_append]
    rfl
  rw [attachTp, if_neg (not_or.mpr ⟨append_ne (by decide), append_ne (by decide)⟩), hdrop]
  unfold splitEvent
  by_cases hm : '/' ∈ event.toList
  · obtain ⟨l, r, hlr, hl⟩ := List.eq_append_cons_of_mem hm
    rw [if_pos hm]
    simp only [hlr, dropWhile_of_slash hl]
  · simp only [if_neg hm, (whole_of_no_slash hm).2]

variable (scanLong : List Char → Option ℤ)

/-- The name of a function is scanned to its end. -/
theorem scanFunc_eq_iff {symbol : String} :
    scanFunc scanLong symbol.toList = some (symbol, 0) ↔
      symbol ≠ "" ∧ ∀ c ∈ symbol.toList, inScanset c = true := by
  have hempty : symbol ≠ "" ↔ symbol.toList ≠ [] := String.toList_inj.not.symm
  rw [hempty, ← List.takeWhile_eq_self_iff]
  constructor
  · intro h
    dsimp only [scanFunc] at h
    split_ifs at h with hnil
    have hfunc := congrArg String.toList (congrArg Prod.fst (Option.some.inj h))
    rw [String.toList_ofList] at hfunc
    exact ⟨hfunc ▸ hnil, hfunc⟩
  · rintro ⟨hne, hall⟩
    have hend : symbol.toList.dropWhile inScanset = [] :=
      List.dropWhile_eq_nil_iff.mpr (List.takeWhile_eq_self_iff.mp hall)
    simp only [scanFunc, hall, hend, if_neg hne, String.ofList_toList]

theorem attachKprobe_append (retprobe : Bool) (symbol : String) :
    attachKprobe scanLong ((if retprobe then "kretprobe/" else "kprobe/") ++ symbol) =
      (scanFunc scanLong symbol.toList).bind fun f =>
        if retprobe && f.2 != 0 then none else some (.kprobe retprobe f.1 f.2) := by
  have hsec : ¬ ((if retprobe then "kretprobe/" else "kprobe/") ++ symbol = "kprobe" ∨
      (if retprobe then "kretprobe/" else "kprobe/") ++ symbol = "kretprobe") := by
    cases retprobe <;> exact not_or.mpr ⟨append_ne (by decide), append_ne (by decide)⟩
  have hpfx : "kretprobe/".toList.isPrefixOf
      ((if retprobe then "kretprobe/" else "kprobe/") ++ symbol).toList = retprobe := by
    rw [String.toList_append]
    cases retprobe <;> rfl
  have hdrop : ((if retprobe then "kretprobe/" else "kprobe/") ++ symbol).toList.drop
      (if retprobe then "kretprobe/".toList.length else "kprobe/".toList.length) =
        symbol.toList := by
    rw [String.toList_append]
    cases retprobe <;> rfl
  simp only [attachKprobe, if_neg hsec, hpfx, hdrop]
  cases scanFunc scanLong symbol.toList <;> rfl

theorem attachKprobe_eq_iff (retprobe : Bool) (symbol : String) :
    attachKprobe scanLong ((if retprobe then "kretprobe/" else "kprobe/") ++ symbol) =
      some (.kprobe retprobe symbol 0) ↔
        symbol ≠ "" ∧ ∀ c ∈ symbol.toList, inScanset c = true := by
  rw [attachKprobe_append, ← scanFunc_eq_iff scanLong, Option.bind_eq_some_iff]
  constructor
  · rintro ⟨⟨func, offset⟩, hscan, h⟩
    split_ifs at h
    obtain ⟨-, rfl, rfl⟩ := OptsCall.kprobe.inj (Option.some.inj h)
    exact hscan
  · intro hscan
    exact ⟨_, hscan, if_neg (by simp)⟩

variable (other : AttachFn → String → Option OptsCall)

theorem programAttach_eq (p : ProbeConfig) : programAttach scanLong other p.bpfProgram.sec =
    if p.type = "tracepoint" then attachTp p.bpfProgram.sec
    else if p.type = "kprobe" ∨ p.type = "kretprobe" then attachKprobe scanLong p.bpfProgram.sec
    else none := by
  obtain ⟨d, hd, hdef⟩ := exists_secDef p
  have hfn := congrArg Prod.snd hdef
  rw [programAttach, hd, Option.bind_some]
  dsimp only at hfn ⊢
  split_ifs at hfn ⊢ with htp hkp
  · rw [hfn]
  · rw [hfn]
  · -- the section of a uprobe names no binary
    have hsec : p.bpfProgram.sec = "uprobe" := by
      rw [ProbeConfig.bpfProgram, if_neg htp, if_neg hkp]
    rw [hfn, hsec]
    rfl

/-- Attached by its section, the program of a probe is attached as the loop does it, if and only if
the event of a tracepoint has a category and the symbol of a kprobe is a plain name. A uprobe is
never attached by its section. -/
theorem programAttach_eq_iff (p : ProbeConfig) :
    programAttach scanLong other p.bpfProgram.sec = p.attachCall.bind AttachCall.opts ↔
      (p.type = "tracepoint" → '/' ∈ p.event.toList) ∧
        (p.type = "kprobe" ∨ p.type = "kretprobe" →
          p.symbol ≠ "" ∧ ∀ c ∈ p.symbol.toList, inScanset c = true) := by
  rw [programAttach_eq]
  by_cases htp : p.type = "tracepoint"
  · have hcall : p.attachCall.bind AttachCall.opts =
        some (.tracepoint (splitEvent p.event).1 (splitEvent p.event).2) := by
      unfold ProbeConfig.attachCall
      simp only [htp]
      rfl
    have hsec : p.bpfProgram.sec = "tracepoint/" ++ p.event := by
      rw [ProbeConfig.bpfProgram, if_pos htp]
    rw [if_pos htp, hcall, hsec, attachTp_append]
    by_cases hm : '/' ∈ p.event.toList <;> simp [hm, htp]
  rw [if_neg htp]
  by_cases hkp : p.type = "kprobe" ∨ p.type = "kretprobe"
  · have hcall : p.attachCall.bind AttachCall.opts =
        some (.kprobe (p.type = "kretprobe") p.symbol 0) := by
      have hup : p.type ≠ "uprobe" := by
        rcases hkp with hkp | hkp <;> rw [hkp] <;> decide
      rw [ProbeConfig.attachCall, if_neg hup, if_pos hkp]
      rfl
    have hsec : p.bpfProgram.sec =
        (if decide (p.type = "kretprobe") then "kretprobe/" else "kprobe/") ++ p.symbol := by
      rw [ProbeConfig.bpfProgram, if_neg htp, if_pos hkp]
      rcases hkp with hkp | hkp <;> simp [hkp]
    rw [if_pos hkp, hcall, hsec, attachKprobe_eq_iff]
    simp [htp, hkp]
  · rw [if_neg hkp]
    refine iff_of_true ?_ ⟨fun h => absurd h htp, fun h => absurd h hkp⟩
    unfold ProbeConfig.attachCall
    split_ifs
    · rfl
    · rfl

end AutoAttach

end LensX
