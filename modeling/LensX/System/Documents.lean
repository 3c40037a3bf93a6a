import LensX.Model.Parse

/-! # The configurations of documents

Whatever the document and the library are, the stage numbers read from it are
values of `int`. Conversely every such configuration that passes the checks is
written in some document, so the checks say nothing about stage numbers.
-/

namespace LensX

section Except

variable {ε α β : Type}

theorem bind_eq_ok_iff {x : Except ε α} {f : α → Except ε β} {b : β} :
    x >>= f = .ok b ↔ ∃ a, x = .ok a ∧ f a = .ok b := by
  cases x <;> simp [Bind.bind, Except.bind]

theorem exists_of_mem_mapM {f : α → Except ε β} {l : List α} {l' : List β}
    (h : l.mapM f = .ok l') {b : β} (hb : b ∈ l') : ∃ a ∈ l, f a = .ok b := by
  induction l generalizing l' with
  | nil =>
    obtain rfl := Except.ok.inj h
    exact absurd hb List.not_mem_nil
  | cons a l ih =>
    rw [List.mapM_cons, bind_eq_ok_iff] at h
    obtain ⟨c, hc, h⟩ := h
    obtain ⟨t, ht, h⟩ := bind_eq_ok_iff.mp h
    obtain rfl := Except.ok.inj h
    rcases List.mem_cons.mp hb with rfl | hb
    · exact ⟨a, List.mem_cons_self, hc⟩
    · obtain ⟨a', ha', hfa⟩ := ih ht hb
      exact ⟨a', List.mem_cons_of_mem _ ha', hfa⟩

theorem mapM_map_eq_ok {f : α → Except ε β} {g : β → α} {l : List β}
    (h : ∀ b ∈ l, f (g b) = .ok b) : (l.map g).mapM f = .ok l := by
  induction l with
  | nil => rfl
  | cons b l ih =>
    rw [List.map_cons, List.mapM_cons, h b List.mem_cons_self,
      ih fun c hc => h c (List.mem_cons_of_mem _ hc)]
    rfl

end Except

/-- Documents, as yaml-cpp presents them. A node that is not there is `undefined`. -/
inductive Doc where
  | undefined
  | text (s : String)
  | number (n : Int32)
  | list (items : List Doc)
  | map (entries : List (String × Doc))

namespace Doc

def get : Doc → String → Except String Doc
  | .map entries, key => .ok ((entries.lookup key).getD .undefined)
  | .undefined, _ => .ok .undefined
  | .list _, _ => .ok .undefined
  | _, _ => .error "operator[] call on a scalar"

def isDefined : Doc → Bool
  | .undefined => false
  | _ => true

def elements : Doc → List Doc
  | .list items => items
  | _ => []

def asString : Doc → Except String String
  | .text s => .ok s
  | .number n => .ok (toString n)
  | _ => .error "bad conversion"

def asInt : Doc → Except String Int32
  | .number n => .ok n
  | _ => .error "bad conversion"

/-- A library that loads one document. -/
def yaml (root : Doc) : Yaml String Doc :=
  ⟨fun _ => .ok root, get, isDefined, elements, asString, asInt⟩

/-- A stage number as it is written into a document. -/
def int (n : ℤ) : Doc := .number (.ofInt n)

def ofProbe (p : ProbeConfig) : Doc :=
  .map [("name", .text p.name), ("type", .text p.type), ("symbol", .text p.symbol),
    ("event", .text p.event), ("stage", int p.stage), ("key", .text p.key)]

def ofMatcher (m : MatcherConfig) : Doc :=
  .map [("id", .text m.id), ("stages", .list (m.stages.map int)), ("mode", .text m.mode),
    ("queue_size", .number m.queueSize)]

def ofReport (r : ReportConfig) : Doc :=
  .map [("name", .text r.name), ("from", int r.fromStage), ("to", int r.toStage)]

def ofConfig (cfg : Config) : Doc :=
  .map [("target", .map [("process", .text cfg.process)]),
    ("output", .map [("csv", .text cfg.csvPath)]), ("probes", .list (cfg.probes.map ofProbe)),
    ("matchers", .list (cfg.matchers.map ofMatcher)), ("reports", .list (cfg.reports.map ofReport))]

end Doc

/-- The number is a value of `int`. -/
def Fits (n : ℤ) : Prop := (Int32.ofInt n).toInt = n

theorem fits_toInt (n : Int32) : Fits n.toInt := by simp [Fits]

/-- The stage numbers are values of `int`. -/
structure Config.Typed (cfg : Config) : Prop where
  probes : ∀ p ∈ cfg.probes, Fits p.stage
  matchers : ∀ mc ∈ cfg.matchers, ∀ s ∈ mc.stages, Fits s
  reports : ∀ r ∈ cfg.reports, Fits r.fromStage ∧ Fits r.toStage

section Read

variable {ε Node α : Type} {y : Yaml ε Node} {node : Node} {key : String}

theorem exists_of_mem_readAll {read : Node → Except ε α} {l : List α}
    (h : y.readAll node key read = .ok l) {a : α} (ha : a ∈ l) : ∃ n, read n = .ok a := by
  obtain ⟨child, _, h⟩ := bind_eq_ok_iff.mp h
  split at h
  · obtain ⟨n, _, hn⟩ := exists_of_mem_mapM h ha
    exact ⟨n, hn⟩
  · obtain rfl := Except.ok.inj h
    exact absurd ha List.not_mem_nil

theorem fits_of_readProbe {p : ProbeConfig} (h : y.readProbe node = .ok p) : Fits p.stage := by
  simp only [Yaml.readProbe, bind_eq_ok_iff] at h
  obtain ⟨_, _, _, _, _, _, _, _, _, _, stage, _, _, _, _, _, _, _, h⟩ := h
  obtain rfl := Except.ok.inj h
  exact fits_toInt stage

theorem fits_of_readMatcher {m : MatcherConfig} (h : y.readMatcher node = .ok m) :
    ∀ s ∈ m.stages, Fits s := by
  simp only [Yaml.readMatcher, bind_eq_ok_iff] at h
  obtain ⟨_, _, _, _, _, _, _, _, _, _, stages, _, _, _, h⟩ := h
  obtain rfl := Except.ok.inj h
  intro s hs
  obtain ⟨n, _, rfl⟩ := List.mem_map.mp hs
  exact fits_toInt n

theorem fits_of_readReport {r : ReportConfig} (h : y.readReport node = .ok r) :
    Fits r.fromStage ∧ Fits r.toStage := by
  simp only [Yaml.readReport, bind_eq_ok_iff] at h
  obtain ⟨_, _, _, _, _, _, a, _, _, _, b, _, h⟩ := h
  obtain rfl := Except.ok.inj h
  exact ⟨fits_toInt a, fits_toInt b⟩

/-- Stage numbers of a document are values of `int`. -/
theorem typed_of_readConfig {path : String} {cfg : Config} (h : y.readConfig path = .ok cfg) :
    cfg.Typed := by
  simp only [Yaml.readConfig, bind_eq_ok_iff] at h
  obtain ⟨_, _, _, _, _, _, probes, hp, matchers, hm, reports, hr, h⟩ := h
  obtain rfl := Except.ok.inj h
  constructor
  · intro p hmem
    obtain ⟨n, hn⟩ := exists_of_mem_readAll hp hmem
    exact fits_of_readProbe hn
  · intro mc hmem
    obtain ⟨n, hn⟩ := exists_of_mem_readAll hm hmem
    exact fits_of_readMatcher hn
  · intro r hmem
    obtain ⟨n, hn⟩ := exists_of_mem_readAll hr hmem
    exact fits_of_readReport hn

end Read

namespace Doc

variable (root : Doc)

theorem readProbe_ofProbe {p : ProbeConfig} (h : Fits p.stage) :
    root.yaml.readProbe (ofProbe p) = .ok p := by
  change Except.ok (⟨p.name, p.type, p.symbol, p.event, (Int32.ofInt p.stage).toInt, p.key⟩ :
    ProbeConfig) = .ok p
  rw [h]

theorem readMatcher_ofMatcher {m : MatcherConfig} (h : ∀ s ∈ m.stages, Fits s) :
    root.yaml.readMatcher (ofMatcher m) = .ok m := by
  have hstages : (m.stages.map int).mapM asInt = .ok (m.stages.map Int32.ofInt) := by
    have hmap : m.stages.map int = (m.stages.map Int32.ofInt).map number := by
      rw [List.map_map]
      rfl
    rw [hmap]
    exact mapM_map_eq_ok fun n _ => rfl
  change ((m.stages.map int).mapM asInt >>= fun stages =>
    Except.ok (⟨m.id, stages.map (·.toInt), m.mode, m.queueSize⟩ : MatcherConfig)) = .ok m
  rw [hstages, bind_eq_ok_iff]
  have hint : (m.stages.map Int32.ofInt).map (·.toInt) = m.stages := by
    rw [List.map_map]
    exact (List.map_congr_left h).trans (List.map_id _)
  exact ⟨_, rfl, by rw [hint]⟩

theorem readReport_ofReport {r : ReportConfig} (h : Fits r.fromStage ∧ Fits r.toStage) :
    root.yaml.readReport (ofReport r) = .ok r := by
  change Except.ok (⟨r.name, (Int32.ofInt r.fromStage).toInt, (Int32.ofInt r.toStage).toInt⟩ :
    ReportConfig) = .ok r
  rw [h.1, h.2]

/-- The document of a configuration is read back. -/
theorem readConfig_ofConfig {cfg : Config} (h : cfg.Typed) (path : String) :
    (ofConfig cfg).yaml.readConfig path = .ok cfg := by
  have hprobes := mapM_map_eq_ok fun p hp =>
    readProbe_ofProbe (ofConfig cfg) (h.probes p hp)
  have hmatchers := mapM_map_eq_ok fun mc hmc =>
    readMatcher_ofMatcher (ofConfig cfg) (h.matchers mc hmc)
  have hreports := mapM_map_eq_ok fun r hr =>
    readReport_ofReport (ofConfig cfg) (h.reports r hr)
  change ((cfg.probes.map ofProbe).mapM (ofConfig cfg).yaml.readProbe >>= fun probes =>
    (cfg.matchers.map ofMatcher).mapM (ofConfig cfg).yaml.readMatcher >>= fun matchers =>
    (cfg.reports.map ofReport).mapM (ofConfig cfg).yaml.readReport >>= fun reports =>
    Except.ok (⟨cfg.process, cfg.csvPath, probes, matchers, reports⟩ : Config)) = .ok cfg
  rw [hprobes, hmatchers, hreports]
  rfl

end Doc

/-- The configurations that `parse_config` returns: the checks concern no stage number. -/
theorem exists_parseConfig_iff {cfg : Config} :
    (∃ (ε Node : Type) (y : Yaml ε Node) (path : String), parseConfig y path = .ok cfg) ↔
      cfg.Checked ∧ cfg.Typed := by
  constructor
  · rintro ⟨ε, Node, y, path, h⟩
    obtain ⟨hread, hc⟩ := parseConfig_eq_ok_iff.mp h
    exact ⟨hc, typed_of_readConfig hread⟩
  · rintro ⟨hc, ht⟩
    exact ⟨String, Doc, (Doc.ofConfig cfg).yaml, "",
      parseConfig_eq_ok_iff.mpr ⟨Doc.readConfig_ofConfig ht "", hc⟩⟩

end LensX
