import Mathlib.Data.List.TakeWhile
import LensX.Model.Attach
import LensX.System.KeySources

/-! # The generator and the attach loop agree

Both derive the name of a function from the type and the name of the probe. If the
names are distinct, the loop attaches the function of each probe by the mechanism
that its context was declared for.
-/

namespace LensX

section Slashes

theorem ne_slash {l : List Char} (h : '/' ∉ l) : ∀ c ∈ l, decide (c ≠ '/') = true :=
  fun _ hc => decide_eq_true (ne_of_mem_of_not_mem hc h)

theorem takeWhile_of_slash {l : List Char} (h : '/' ∉ l) (r : List Char) :
    (l ++ '/' :: r).takeWhile (· ≠ '/') = l := by
  rw [List.takeWhile_append_of_pos (ne_slash h)]
  simp

theorem dropWhile_of_slash {l : List Char} (h : '/' ∉ l) (r : List Char) :
    (l ++ '/' :: r).dropWhile (· ≠ '/') = '/' :: r := by
  rw [List.dropWhile_append_of_pos (ne_slash h)]
  simp

theorem whole_of_no_slash {l : List Char} (h : '/' ∉ l) :
    l.takeWhile (· ≠ '/') = l ∧ l.dropWhile (· ≠ '/') = [] :=
  ⟨List.takeWhile_eq_self_iff.mpr (ne_slash h), List.dropWhile_eq_nil_iff.mpr (ne_slash h)⟩

/-- The two ways of cutting the name out of an event agree if it has at most one slash. -/
theorem afterLastSlash_eq {event : String} (h : event.toList.count '/' ≤ 1) :
    afterLastSlash event = (splitEvent event).2 := by
  unfold afterLastSlash splitEvent
  by_cases hm : '/' ∈ event.toList
  · obtain ⟨l, r, hlr⟩ := List.append_of_mem hm
    rw [hlr, List.count_append, List.count_cons_self] at h
    have hl : '/' ∉ l := List.count_eq_zero.mp (by omega)
    have hr : '/' ∉ r.reverse := by
      rw [List.mem_reverse]
      exact List.count_eq_zero.mp (by omega)
    have hrev : (l ++ '/' :: r).reverse = r.reverse ++ '/' :: l.reverse := by simp
    simp only [hlr, hrev, takeWhile_of_slash hr, dropWhile_of_slash hl, List.reverse_reverse]
  · have hrev : '/' ∉ event.toList.reverse := by rwa [List.mem_reverse]
    simp only [whole_of_no_slash hm, whole_of_no_slash hrev, List.reverse_reverse,
      String.ofList_toList]

end Slashes

/-- The context of the function is the one that the attach function provides. -/
def AttachCall.Suits : AttachCall → BpfProgram → Prop
  | .uprobe _, pr => pr.sec = "uprobe" ∧ pr.ctx = .ptRegs
  | .kprobe retprobe symbol, pr =>
    pr.sec = (if retprobe then "kretprobe/" else "kprobe/") ++ symbol ∧ pr.ctx = .ptRegs
  | .tracepoint category name, pr =>
    ∃ event, pr.sec = "tracepoint/" ++ event ∧ splitEvent event = (category, name) ∧
      (pr.ctx = .untyped ∨ pr.ctx = .traceEvent (afterLastSlash event)) ∧
      (event.toList.count '/' ≤ 1 → ∀ e, pr.ctx = .traceEvent e → e = name)

/-- The four types that the configuration file documents. -/
def ProbeConfig.Documented (p : ProbeConfig) : Prop :=
  p.type = "uprobe" ∨ p.type = "kprobe" ∨ p.type = "kretprobe" ∨ p.type = "tracepoint"

instance (p : ProbeConfig) : Decidable p.Documented := inferInstanceAs (Decidable (_ ∨ _))

theorem bpfProgram_name (p : ProbeConfig) : p.bpfProgram.name = p.progName := by
  unfold ProbeConfig.bpfProgram ProbeConfig.progName
  split_ifs <;> rfl

/-- Two branch structures on the type choose the same mechanism. -/
theorem exists_attachCall {p : ProbeConfig} (h : p.Documented) :
    ∃ call, p.attachCall = some call ∧ call.Suits p.bpfProgram := by
  unfold ProbeConfig.attachCall ProbeConfig.bpfProgram
  rcases h with h | h | h | h
  · simp only [h]
    exact ⟨_, rfl, rfl, rfl⟩
  · simp only [h]
    exact ⟨_, rfl, rfl, rfl⟩
  · simp only [h]
    exact ⟨_, rfl, rfl, rfl⟩
  · rw [if_pos h]
    simp only [h]
    refine ⟨_, rfl, p.event, rfl, rfl, ?_, ?_⟩
    · by_cases hk : p.KeyFromCtx <;> simp [hk]
    · rintro hslash e he
      rw [← afterLastSlash_eq hslash]
      by_cases hk : p.KeyFromCtx
      · simpa [hk, eq_comm] using he
      · simp [hk] at he

section Lookup

variable {cfg : Config} {obj : List BpfProgram}
  (hnames : ((bpfPrograms cfg).map (·.name)).Nodup) (hobj : obj.Perm (bpfPrograms cfg))
include hnames hobj

/-- The compiler may put the functions into any order. -/
theorem findProgramByName_eq {p : ProbeConfig} (hp : p ∈ cfg.probes) :
    findProgramByName obj p.progName = some p.bpfProgram := by
  have hmem : p.bpfProgram ∈ obj := hobj.mem_iff.mpr (List.mem_map_of_mem hp)
  have hnodup : (obj.map (·.name)).Nodup := (hobj.map _).nodup_iff.mpr hnames
  cases hfind : findProgramByName obj p.progName with
  | none =>
    have hne := List.find?_eq_none.mp hfind _ hmem
    exact absurd (decide_eq_true (bpfProgram_name p)) hne
  | some pr =>
    have hname : pr.name = p.progName :=
      of_decide_eq_true (List.find?_some (p := fun q : BpfProgram => q.name = p.progName) hfind)
    rw [List.inj_on_of_nodup_map hnodup (List.mem_of_find?_eq_some hfind) hmem
      (hname.trans (bpfProgram_name p).symm)]

/-- The loop links the function of every probe that its call accepts. -/
theorem attachLoop_eq (attach : BpfProgram → AttachCall → Bool) :
    attachLoop cfg obj attach = cfg.probes.map fun p =>
      match p.attachCall.filter (attach p.bpfProgram) with
      | some call => .ok ⟨p.bpfProgram, call⟩
      | none => .error ("  " ++ p.name ++ ": attach failed\n") := by
  refine List.map_congr_left fun p hp => ?_
  rw [attachProbe, findProgramByName_eq hnames hobj hp]
  cases p.attachCall with
  | none => rfl
  | some call => by_cases h : attach p.bpfProgram call <;> simp [h, Option.filter]

end Lookup

end LensX
