import LensX.General.Lines
import LensX.Model.Generator

/-! # The generated file

What the configuration supplies is copied into the file as it is. If none of it ends a
line, the text of the file determines the functions in it.
-/

namespace LensX

open Lines

/-- The text of the file when it is closed. -/
def generatedText (cfg : Config) : List Char :=
  unlines '\n' ((generateBpfSource cfg).map String.toList)

/-- No text of the probe ends a line, and its name ends before the arguments of the function. -/
structure ProbeConfig.Plain (p : ProbeConfig) : Prop where
  event : '\n' ∉ p.event.toList
  symbol : '\n' ∉ p.symbol.toList
  key : '\n' ∉ p.key.toList
  name : '\n' ∉ p.name.toList
  paren : '(' ∉ p.name.toList

namespace BpfProgram

structure Plain (pr : BpfProgram) : Prop where
  sec : '\n' ∉ pr.sec.toList
  ctx : '\n' ∉ pr.ctx.text.toList
  key : '\n' ∉ pr.key.text.toList
  name : '\n' ∉ pr.name.toList
  paren : '(' ∉ pr.name.toList
  fromCtx : ∀ text, pr.key = .ctx text → text.toList.take 5 = "ctx->".toList

@[simp] theorem length_text (pr : BpfProgram) : pr.text.length = 11 := rfl

theorem newline_notMem_text {pr : BpfProgram} (h : pr.Plain) : ∀ l ∈ pr.text, '\n' ∉ l.toList := by
  have hstage : '\n' ∉ pr.stage.repr.toList := by
    intro hm
    rcases mem_toString_int hm with h | h <;> exact absurd h (by decide)
  intro l hl
  simp only [text, List.mem_cons, List.not_mem_nil, or_false] at hl
  rcases hl with rfl | rfl | rfl | rfl | rfl | rfl | rfl | rfl | rfl | rfl | rfl
  · simp [h.sec]
  · simp [h.name, h.ctx]
  case inr.inr.inr.inr.inr.inl => simp [hstage]
  case inr.inr.inr.inr.inr.inr.inl => simp [h.key]
  all_goals decide

theorem ctxType_text_injective {c c' : CtxType} (h : c.text = c'.text) : c = c' := by
  -- the first eight letters tell the types apart
  have hevent : ∀ (c : CtxType) (s : String), c = .untyped ∨ c = .ptRegs →
      c.text ≠ "struct trace_event_raw_" ++ s := by
    intro c s hc h
    have htake : c.text.toList.take 8 = "struct t".toList := by
      rw [h, String.toList_append]
      rfl
    rcases hc with rfl | rfl
    · exact absurd htake (by decide)
    · exact absurd htake (by decide)
  cases c with
  | untyped =>
    cases c' with
    | untyped => rfl
    | traceEvent s => exact absurd h (hevent _ s (.inl rfl))
    | ptRegs => exact absurd h (by decide)
  | traceEvent s =>
    cases c' with
    | untyped => exact absurd h.symm (hevent _ s (.inl rfl))
    | traceEvent s' => exact congrArg _ ((String.append_right_inj "struct trace_event_raw_").mp h)
    | ptRegs => exact absurd h.symm (hevent _ s (.inr rfl))
  | ptRegs =>
    cases c' with
    | untyped => exact absurd h (by decide)
    | traceEvent s => exact absurd h (hevent _ s (.inr rfl))
    | ptRegs => rfl

theorem keyExpr_text_injective {k k' : KeyExpr}
    (hk : ∀ text, k = .ctx text → text.toList.take 5 = "ctx->".toList)
    (hk' : ∀ text, k' = .ctx text → text.toList.take 5 = "ctx->".toList)
    (h : k.text = k'.text) : k = k' := by
  have hctx : ∀ {text : String}, text.toList.take 5 = "ctx->".toList →
      text ≠ "PT_REGS_PARM1(ctx)" ∧ text ≠ "PT_REGS_PARM2(ctx)" ∧ text ≠ "0" := by
    intro text htext
    refine ⟨?_, ?_, ?_⟩ <;> rintro rfl <;> exact absurd htext (by decide)
  cases k <;> cases k' <;> simp only [KeyExpr.text] at h
  case ctx.ctx => rw [h]
  case ctx.parm1 => exact absurd h (hctx (hk _ rfl)).1
  case ctx.parm2 => exact absurd h (hctx (hk _ rfl)).2.1
  case ctx.zero => exact absurd h (hctx (hk _ rfl)).2.2
  case parm1.ctx => exact absurd h.symm (hctx (hk' _ rfl)).1
  case parm2.ctx => exact absurd h.symm (hctx (hk' _ rfl)).2.1
  case zero.ctx => exact absurd h.symm (hctx (hk' _ rfl)).2.2
  case parm1.parm1 | parm2.parm2 | zero.zero => rfl
  all_goals exact absurd h (by decide)

theorem text_injective {pr pr' : BpfProgram} (h : pr.Plain) (h' : pr'.Plain)
    (heq : pr.text = pr'.text) : pr = pr' := by
  obtain ⟨sec, name, ctx, stage, key⟩ := pr
  obtain ⟨sec', name', ctx', stage', key'⟩ := pr'
  simp only [text, List.cons.injEq, and_true, true_and] at heq
  obtain ⟨hsec, hhead, hstage, hkey⟩ := heq
  simp only [String.append_left_inj, String.append_right_inj] at hsec hstage hkey
  have hchars := congrArg String.toList hhead
  simp only [String.toList_append, List.append_assoc, List.append_cancel_left_eq] at hchars
  change name.toList ++ '(' :: (ctx.text.toList ++ _) =
    name'.toList ++ '(' :: (ctx'.text.toList ++ _) at hchars
  obtain ⟨hname, hctx⟩ := eq_of_append_mark h.paren h'.paren hchars
  obtain rfl := String.toList_inj.mp hname
  obtain rfl := ctxType_text_injective (String.toList_inj.mp (List.append_cancel_right hctx))
  obtain rfl := toString_int_inj (congrArg String.toList hstage)
  obtain rfl := keyExpr_text_injective h.fromCtx h'.fromCtx hkey
  rw [hsec]

end BpfProgram

theorem ProbeConfig.Plain.bpfProgram {p : ProbeConfig} (h : p.Plain) : p.bpfProgram.Plain := by
  have hkey : '\n' ∉ p.keyExpr.text.toList := by
    unfold keyExpr
    split_ifs
    · decide
    · decide
    · exact h.key
    · decide
  have hctx : ∀ text, p.keyExpr = .ctx text → text.toList.take 5 = "ctx->".toList := by
    intro text
    unfold keyExpr
    split_ifs with h₁ h₂ h₃ <;> intro heq <;> cases heq
    exact h₃
  have hlast : '\n' ∉ (afterLastSlash p.event).toList := by
    rw [afterLastSlash, String.toList_ofList, List.mem_reverse]
    exact fun hm => h.event (List.mem_reverse.mp ((List.takeWhile_sublist _).subset hm))
  unfold ProbeConfig.bpfProgram
  split_ifs with ht hk hkp
  · refine ⟨?_, ?_, hkey, ?_, ?_, hctx⟩
    · simp [h.event]
    · change '\n' ∉ ("struct trace_event_raw_" ++ afterLastSlash p.event).toList
      rw [String.toList_append, List.mem_append, not_or]
      exact ⟨by decide, hlast⟩
    · simp [h.name]
    · simp [h.paren]
  · refine ⟨?_, ?_, hkey, ?_, ?_, hctx⟩
    · simp [h.event]
    · change '\n' ∉ "void".toList
      decide
    · simp [h.name]
    · simp [h.paren]
  · refine ⟨?_, ?_, hkey, ?_, ?_, hctx⟩
    · rcases hkp with hkp | hkp <;> simp [hkp, h.symbol]
    · change '\n' ∉ "struct pt_regs".toList
      decide
    · simp [h.name]
    · simp [h.paren]
  · refine ⟨?_, ?_, hkey, ?_, ?_, hctx⟩
    · simp
    · change '\n' ∉ "struct pt_regs".toList
      decide
    · simp [h.name]
    · simp [h.paren]

theorem newline_notMem_preamble (cfg : Config) : ∀ l ∈ preamble cfg, '\n' ∉ l.toList := by
  unfold preamble
  cases needTracingH cfg <;> decide

/-- The two preambles differ in their fourth line. -/
theorem preamble_injective {cfg cfg' : Config} {l l' : List String}
    (h : preamble cfg ++ l = preamble cfg' ++ l') : l = l' := by
  have hline := congrArg (·[3]?) h
  unfold preamble at h hline
  cases hn : needTracingH cfg <;> cases hn' : needTracingH cfg' <;> rw [hn, hn'] at h hline
  case false.false | true.true => exact List.append_cancel_left h
  all_goals exact absurd (Option.some.inj hline) (by decide)

/-- The text of the file determines the functions in it, and these determine the text. -/
theorem generatedText_eq_iff {cfg cfg' : Config} (h : ∀ p ∈ cfg.probes, p.Plain)
    (h' : ∀ p ∈ cfg'.probes, p.Plain) :
    generatedText cfg = generatedText cfg' ↔ bpfPrograms cfg = bpfPrograms cfg' := by
  have hplain : ∀ {cfg : Config}, (∀ p ∈ cfg.probes, p.Plain) →
      ∀ pr ∈ bpfPrograms cfg, pr.Plain := by
    intro cfg h pr hpr
    obtain ⟨p, hp, rfl⟩ := List.mem_map.mp hpr
    exact (h p hp).bpfProgram
  have hlines : ∀ {cfg : Config}, (∀ p ∈ cfg.probes, p.Plain) →
      ∀ l ∈ (generateBpfSource cfg).map String.toList, '\n' ∉ l := by
    intro cfg h l hl
    obtain ⟨line, hline, rfl⟩ := List.mem_map.mp hl
    rcases List.mem_append.mp hline with hline | hline
    · exact newline_notMem_preamble cfg line hline
    · obtain ⟨pr, hpr, hline⟩ := List.mem_flatMap.mp hline
      exact BpfProgram.newline_notMem_text (hplain h pr hpr) line hline
  constructor
  · intro heq
    have hsource := List.map_injective_iff.mpr (fun _ _ => String.toList_injective)
      (unlines_injective (hlines h) (hlines h') heq)
    exact flatMap_injective_of_length (by decide : 0 < 11) BpfProgram.length_text
      (fun pr hpr pr' hpr' => BpfProgram.text_injective (hplain h pr hpr) (hplain h' pr' hpr'))
      (preamble_injective hsource)
  · intro heq
    have hneed : needTracingH cfg = needTracingH cfg' := by
      rw [Bool.eq_iff_iff, needTracingH_iff, needTracingH_iff, heq]
    rw [generatedText, generatedText, generateBpfSource, generateBpfSource, preamble, preamble,
      hneed, heq]

/-- The symbol of a uprobe is not in the file. -/
theorem generatedText_eq_iff_uprobe :
    generatedText ⟨"nebulaX", "", [⟨"send", "uprobe", "Send", "", 3, "arg1"⟩], [], []⟩ =
      generatedText ⟨"nebulaX", "", [⟨"send", "uprobe", "Receive", "", 3, "arg1"⟩], [], []⟩ := by
  refine (generatedText_eq_iff ?_ ?_).mpr (by decide)
  · exact List.forall_mem_singleton.mpr
      ⟨by decide, by decide, by decide, by decide, by decide⟩
  · exact List.forall_mem_singleton.mpr
      ⟨by decide, by decide, by decide, by decide, by decide⟩

end LensX
