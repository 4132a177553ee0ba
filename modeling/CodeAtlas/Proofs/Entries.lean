import CodeAtlas.Proofs.OwnFigures
import Mathlib.Data.List.Induction

/-!
# What the items of a scan register

The items of a list of things to scan for are read one after the other. What they register can be
told from the whole list (`Configuration.Reads`): all graphs that some item asks for, and all
metrics that some item asks for, each as it is made at the last item that does. Only metrics of
graphs depend on what stands in front of them. So items can be read in another order, as long as
these find the same graphs in front of them (`Configuration.Reads.rearranged`).
-/

namespace CodeAtlas

open Effect

/-! ### New metrics -/

namespace Metric

variable {kind : MetricKind} {s : Settings} {kinds : List GraphKind} {m : Metric}

theorem fresh_of_new (h : new kind s kinds = .ok m) : m.Fresh ∧ m.kind = kind := by
  cases kind with
  | history =>
    rw [new] at h
    split_ifs at h
    obtain rfl := Except.ok.inj h
    exact ⟨⟨rfl, rfl⟩, rfl⟩
  | _ =>
    obtain rfl := Except.ok.inj h
    exact ⟨⟨rfl, rfl⟩, rfl⟩

theorem exists_new_iff : (∃ m, new kind s kinds = .ok m) ↔
    (kind = .history → s.history.directory.isNull = false) := by
  cases kind with
  | history =>
    rw [new]
    split_ifs with hnull
    · simp [hnull]
    · simpa using hnull
  | _ => exact iff_of_true ⟨_, rfl⟩ fun h => nomatch h

theorem new_active (kind : MetricKind) (s : Settings) (kinds : List GraphKind) (active : Bool) :
    new kind { s with history.active := active } kinds = new kind s kinds := by
  cases kind <;> rfl

theorem new_of_code (h : kind.isGraph = false) (s : Settings) (kinds kinds' : List GraphKind) :
    new kind s kinds' = new kind s kinds := by
  cases kind with
  | fanInOut | communities => cases h
  | _ => rfl

end Metric

/-! ### Analyses as they are loaded -/

namespace Analysis

variable {a a' : Analysis}

/-- An analysis without what the items of a scan can register. -/
def plain (a : Analysis) : Analysis :=
  { a with
    settings := { a.settings with history.active := false }
    fileMetrics := ∅
    entityMetrics := ∅
    graphs := ∅ }

/-- Analyses with the same metrics and graphs, registered in different orders. -/
structure Rearranged (a a' : Analysis) : Prop where
  plain : a'.plain = a.plain
  active : a'.settings.history.active = a.settings.history.active
  graphs : a.graphs.Alike a'.graphs
  metrics : ∀ ref, a'.metric? ref = a.metric? ref

theorem Rearranged.refl (a : Analysis) : a.Rearranged a := ⟨rfl, rfl, .refl _, fun _ => rfl⟩

theorem Rearranged.settings (h : a.Rearranged a') : a'.settings = a.settings := by
  have hactive : ∀ (b : Analysis) (active : Bool), b.settings.history.active = active →
      b.settings = { b.plain.settings with history.active := active } := by
    rintro b _ rfl
    rfl
  rw [hactive a' _ h.active, h.plain, ← hactive a _ rfl]

theorem Rearranged.exists_eq (h : a.Rearranged a') :
    ∃ fm em gs, a' = { a with fileMetrics := fm, entityMetrics := em, graphs := gs } := by
  have hfields : ∀ b : Analysis, b = { b.plain with
      settings := b.settings
      fileMetrics := b.fileMetrics
      entityMetrics := b.entityMetrics
      graphs := b.graphs } := fun _ => rfl
  refine ⟨a'.fileMetrics, a'.entityMetrics, a'.graphs, (hfields a').trans ?_⟩
  rw [h.plain, h.settings]
  rfl

theorem Rearranged.symm (h : a.Rearranged a') : a'.Rearranged a :=
  ⟨h.plain.symm, h.active.symm, h.graphs.symm, fun ref => (h.metrics ref).symm⟩

/-- Nothing has been measured. -/
structure Pristine (a : Analysis) : Prop where
  keyed : a.Keyed
  fresh : ∀ ref m, a.metric? ref = some m → m.Fresh ∧ ref.name = m.kind.name

theorem Pristine.rearranged (ha : a.Pristine) (h : a.Rearranged a') : a'.Pristine where
  keyed := fun kind v hv => ha.keyed kind v ((h.graphs kind).symm.trans hv)
  fresh := fun ref m hm => ha.fresh ref m ((h.metrics ref).symm.trans hm)

theorem pristine_new (id : Nat) (s : Settings) :
    ({ id := id, settings := s } : Analysis).Pristine where
  keyed := nofun
  fresh := by
    rintro ⟨scope, name⟩ m hm
    cases scope <;> cases hm

end Analysis

theorem Metric.new_plain {a b : Analysis} (h : b.plain = a.plain) (kind : MetricKind)
    (kinds : List GraphKind) : new kind b.settings kinds = new kind a.settings kinds := by
  rw [← new_active kind a.settings kinds false, ← new_active kind b.settings kinds false]
  exact congrArg (fun c => new kind c.settings kinds) h

/-! ### What items ask for -/

namespace Configuration

variable {scope : ScanScope} {item : Value} {a b c : Analysis}

def mentions (scope : ScanScope) (kind : MetricKind) (item : Value) : Bool :=
  (metricKeys scope).any fun e => decide (e.2.2 = kind) && affirms (e.2.1.holds item e.1)

def graphsOf (scope : ScanScope) (item : Value) : List GraphKind :=
  ((graphKeys scope).filter fun e => item == .text e.1).map Prod.snd

def asked (scope : ScanScope) (items : List Value) : List GraphKind :=
  items.flatMap (graphsOf scope)

/-- The items up to the last one that asks for a metric. -/
def upTo (scope : ScanScope) (kind : MetricKind) (items : List Value) : List Value :=
  (items.reverse.dropWhile fun item => !mentions scope kind item).reverse

theorem upTo_concat (kind : MetricKind) (items : List Value) (item : Value) :
    upTo scope kind (items ++ [item]) =
      if mentions scope kind item then items ++ [item] else upTo scope kind items := by
  rw [upTo, List.reverse_append, List.reverse_singleton, List.singleton_append, List.dropWhile_cons]
  cases mentions scope kind item with
  | true => simp
  | false => rfl

def kindsWith (a : Analysis) (kinds : List GraphKind) : List GraphKind :=
  GraphKind.kept.filter fun kind => a.graphs.contains kind || kinds.contains kind

/-! ### Graphs of one item -/

theorem exists_readGraphs {ks : List (String × GraphKind)}
    (hks : ∀ e ∈ ks, GraphKind.kept.contains e.2 = true) (item : Value) (a : Analysis) :
    ∃ gs, ks.foldlM (readGraph item) a = .ok { a with graphs := gs } ∧ ∀ g, gs.get? g =
      (a.graphs.get? g).or (if g ∈ (ks.filter fun e => item == .text e.1).map Prod.snd
        then some (.new g) else none) := by
  induction ks generalizing a with
  | nil => exact ⟨a.graphs, rfl, fun g => by simp⟩
  | cons e ks ih =>
    obtain ⟨he, hks⟩ := List.forall_mem_cons.mp hks
    rw [List.foldlM_cons, readGraph]
    by_cases hitem : (item == .text e.1) = true
    · obtain ⟨gs, hok, hget⟩ := ih hks { a with graphs := a.graphs.insertNew e.2 (.new e.2) }
      refine ⟨gs, ?_, fun g => ?_⟩
      · rw [if_pos hitem, Analysis.createGraph, if_pos he]
        exact hok
      · rw [hget g, OrderedMap.get?_insertNew, Option.or_assoc, List.filter_cons, if_pos hitem,
          List.map_cons]
        congr 1
        by_cases hg : e.2 = g
        · subst hg
          simp
        · rw [if_neg hg, Option.none_or]
          simp only [List.mem_cons, Ne.symm hg, false_or]
    · obtain ⟨gs, hok, hget⟩ := ih hks a
      rw [if_neg hitem, List.filter_cons, if_neg hitem]
      exact ⟨gs, hok, hget⟩

theorem readItemGraphs (scope : ScanScope) (item : Value) (a : Analysis) :
    ∃ gs, (graphKeys scope).foldlM (readGraph item) a = .ok { a with graphs := gs } ∧
      ∀ g, gs.get? g = (a.graphs.get? g).or
        (if g ∈ graphsOf scope item then some (.new g) else none) :=
  exists_readGraphs (by cases scope <;> decide) item a

/-! ### Metrics of one item -/

/-- An analysis with another metric. A history that is asked for is switched on. -/
def register (a : Analysis) (scope : ScanScope) (m : Metric) : Analysis :=
  let a := a.setMetric scope m
  if m.kind = .history then { a with settings := { a.settings with history.active := true } } else a

theorem metric?_register (a : Analysis) (m : Metric) (ref : MetricRef) :
    (register a scope m).metric? ref =
      if ref = ⟨scope, m.kind.name⟩ then some m else a.metric? ref := by
  rw [← Analysis.metric?_setMetric, register]
  split
  · rfl
  · rfl

theorem plain_register (a : Analysis) (m : Metric) : (register a scope m).plain = a.plain := by
  rw [register]
  cases scope <;> split <;> rfl

theorem graphs_register (a : Analysis) (m : Metric) : (register a scope m).graphs = a.graphs := by
  rw [register]
  cases scope <;> split <;> rfl

theorem active_register (a : Analysis) (m : Metric) :
    (register a scope m).settings.history.active =
      (a.settings.history.active || decide (m.kind = .history)) := by
  rw [register]
  by_cases hkind : m.kind = .history
  · simp [hkind]
  · cases scope <;> simp [hkind, Analysis.setMetric]

variable {e : String × Mentioned × MetricKind}

theorem readMetric_eq_ok_iff :
    readMetric scope item a e = .ok b ↔
      e.2.1.holds item e.1 = .ok false ∧ b = a ∨
        e.2.1.holds item e.1 = .ok true ∧
          ∃ m, Metric.new e.2.2 a.settings a.graphKinds = .ok m ∧ b = register a scope m := by
  obtain ⟨key, mentioned, kind⟩ := e
  rw [readMetric, except_bind_eq_ok]
  constructor
  · rintro ⟨v, hv, h⟩
    cases v with
    | false => exact .inl ⟨hv, (Except.ok.inj h).symm⟩
    | true =>
      obtain ⟨m, hm, h⟩ := except_bind_eq_ok.mp h
      obtain rfl := Except.ok.inj h
      refine .inr ⟨hv, m, hm, ?_⟩
      rw [register, (Metric.fresh_of_new hm).2]
  · rintro (⟨hv, rfl⟩ | ⟨hv, m, hm, rfl⟩)
    · exact ⟨false, hv, rfl⟩
    · refine ⟨true, hv, except_bind_eq_ok.mpr ⟨m, hm, ?_⟩⟩
      rw [register, (Metric.fresh_of_new hm).2]
      rfl

structure Registers (scope : ScanScope) (item : Value) (ks : List (String × Mentioned × MetricKind))
    (a b : Analysis) : Prop where
  plain : b.plain = a.plain
  graphs : b.graphs = a.graphs
  active : b.settings.history.active =
    (a.settings.history.active || ks.any fun e => decide (e.2.2 = .history) &&
      affirms (e.2.1.holds item e.1))
  registered : ∀ e ∈ ks, affirms (e.2.1.holds item e.1) = true → ∃ m,
    Metric.new e.2.2 a.settings a.graphKinds = .ok m ∧ b.metric? ⟨scope, e.2.2.name⟩ = some m
  others : ∀ ref, (∀ e ∈ ks, affirms (e.2.1.holds item e.1) = true → ref ≠ ⟨scope, e.2.2.name⟩) →
    b.metric? ref = a.metric? ref

theorem registers_of_readMetric (h : readMetric scope item a e = .ok b) :
    Registers scope item [e] a b := by
  obtain ⟨hv, rfl⟩ | ⟨hv, m, hm, rfl⟩ := readMetric_eq_ok_iff.mp h
  · exact ⟨rfl, rfl, by simp [hv, affirms], by simp [hv, affirms], fun _ _ => rfl⟩
  · obtain ⟨-, hkind⟩ := Metric.fresh_of_new hm
    refine ⟨plain_register a m, graphs_register a m, ?_, ?_, fun ref hne => ?_⟩
    · rw [active_register, hkind]
      simp [hv, affirms]
    · intro e' he' _
      obtain rfl := List.mem_singleton.mp he'
      exact ⟨m, hm, (metric?_register a m _).trans (if_pos (by rw [hkind]))⟩
    · have hne := hne e (List.mem_singleton_self e) (by rw [hv]; rfl)
      exact (metric?_register a m ref).trans (if_neg (by rwa [hkind]))

variable {ks : List (String × Mentioned × MetricKind)}

theorem Registers.cons
    (h : Registers scope item [e] a b) (h' : Registers scope item ks b c) :
    Registers scope item (e :: ks) a c where
  plain := h'.plain.trans h.plain
  graphs := h'.graphs.trans h.graphs
  active := by
    rw [h'.active, h.active, List.any_cons, List.any_cons, List.any_nil, Bool.or_false,
      Bool.or_assoc]
  registered := by
    have hnew : ∀ kind, Metric.new kind b.settings b.graphKinds =
        Metric.new kind a.settings a.graphKinds := by
      intro kind
      rw [Metric.new_plain h.plain, Analysis.graphKinds, h.graphs, Analysis.graphKinds]
    intro e' he' haffirms
    by_cases hlater : ∃ e'' ∈ ks, affirms (e''.2.1.holds item e''.1) = true ∧ e''.2.2 = e'.2.2
    · obtain ⟨e'', he'', haffirms'', hkind⟩ := hlater
      obtain ⟨m, hm, hget⟩ := h'.registered e'' he'' haffirms''
      rw [hnew] at hm
      exact ⟨m, hkind ▸ hm, hkind ▸ hget⟩
    · have hnone : ∀ e'' ∈ ks, affirms (e''.2.1.holds item e''.1) = true →
          (⟨scope, e'.2.2.name⟩ : MetricRef) ≠ ⟨scope, e''.2.2.name⟩ := by
        intro e'' he'' haffirms'' heq
        exact hlater ⟨e'', he'', haffirms'',
          (MetricKind.name_injective (congrArg MetricRef.name heq)).symm⟩
      rcases List.mem_cons.mp he' with rfl | he'
      · obtain ⟨m, hm, hget⟩ := h.registered e' (List.mem_singleton_self e') haffirms
        exact ⟨m, hm, (h'.others _ hnone).trans hget⟩
      · exact absurd rfl (hnone e' he' haffirms)
  others := fun ref hne => by
    obtain ⟨hne, hne'⟩ := List.forall_mem_cons.mp hne
    exact (h'.others ref hne').trans (h.others ref (by simpa using hne))

theorem registers_of_readMetrics
    (h : ks.foldlM (readMetric scope item) a = .ok b) : Registers scope item ks a b := by
  induction ks generalizing a with
  | nil =>
    obtain rfl := Except.ok.inj h
    exact ⟨rfl, rfl, by simp, by simp, fun _ _ => rfl⟩
  | cons e ks ih =>
    rw [List.foldlM_cons] at h
    obtain ⟨c, hc, h⟩ := except_bind_eq_ok.mp h
    exact .cons (registers_of_readMetric hc) (ih h)

/-- Whether an item can be read does not depend on what has been registered in front of it. -/
theorem exists_readMetrics_iff :
    (∃ b, ks.foldlM (readMetric scope item) a = .ok b) ↔
    ∀ e ∈ ks, ∃ v, e.2.1.holds item e.1 = .ok v ∧
      (v = true → e.2.2 = .history → a.plain.settings.history.directory.isNull = false) := by
  induction ks generalizing a with
  | nil => exact iff_of_true ⟨a, rfl⟩ (by simp)
  | cons e ks ih =>
    have hstep : (∃ c, readMetric scope item a e = .ok c) ↔ ∃ v, e.2.1.holds item e.1 = .ok v ∧
        (v = true → e.2.2 = .history → a.plain.settings.history.directory.isNull = false) := by
      constructor
      · rintro ⟨c, hc⟩
        obtain ⟨hv, -⟩ | ⟨hv, m, hm, -⟩ := readMetric_eq_ok_iff.mp hc
        · exact ⟨false, hv, nofun⟩
        · exact ⟨true, hv, fun _ => Metric.exists_new_iff.mp ⟨m, hm⟩⟩
      · rintro ⟨v, hv, hnull⟩
        cases v with
        | false => exact ⟨a, readMetric_eq_ok_iff.mpr (.inl ⟨hv, rfl⟩)⟩
        | true =>
          obtain ⟨m, hm⟩ := Metric.exists_new_iff.mpr (hnull rfl)
          exact ⟨_, readMetric_eq_ok_iff.mpr (.inr ⟨hv, m, hm, rfl⟩)⟩
    rw [List.forall_mem_cons, ← hstep]
    constructor
    · rintro ⟨b, h⟩
      rw [List.foldlM_cons] at h
      obtain ⟨c, hc, h⟩ := except_bind_eq_ok.mp h
      refine ⟨⟨c, hc⟩, ?_⟩
      rw [← (registers_of_readMetric hc).plain]
      exact ih.mp ⟨b, h⟩
    · rintro ⟨⟨c, hc⟩, hks⟩
      rw [← (registers_of_readMetric hc).plain] at hks
      obtain ⟨b, h⟩ := ih.mpr hks
      exact ⟨b, by rw [List.foldlM_cons]; exact except_bind_eq_ok.mpr ⟨c, hc, h⟩⟩

/-! ### All items -/

variable {items items' : List Value} {a' : Analysis}

theorem asked_concat {g : GraphKind} :
    g ∈ asked scope (items ++ [item]) ↔ g ∈ asked scope items ∨ g ∈ graphsOf scope item := by
  simp [asked]

structure Reads (scope : ScanScope) (items : List Value) (a b : Analysis) : Prop where
  plain : b.plain = a.plain
  active : b.settings.history.active =
    (a.settings.history.active || items.any (mentions scope .history))
  graphs : ∀ g, b.graphs.get? g =
    (a.graphs.get? g).or (if g ∈ asked scope items then some (.new g) else none)
  registered : ∀ kind, items.any (mentions scope kind) = true → ∃ m,
    Metric.new kind a.settings (kindsWith a (asked scope (upTo scope kind items))) = .ok m ∧
      b.metric? ⟨scope, kind.name⟩ = some m
  others : ∀ ref, (∀ kind, items.any (mentions scope kind) = true → ref ≠ ⟨scope, kind.name⟩) →
    b.metric? ref = a.metric? ref

theorem mentions_iff {kind : MetricKind} : mentions scope kind item = true ↔
    ∃ e ∈ metricKeys scope, e.2.2 = kind ∧ affirms (e.2.1.holds item e.1) = true := by
  simp [mentions]

theorem graphKinds_of_get? {kinds : List GraphKind}
    (h : ∀ g, b.graphs.get? g = (a.graphs.get? g).or (if g ∈ kinds then some (.new g) else none)) :
    b.graphKinds = kindsWith a kinds := by
  rw [Analysis.graphKinds, kindsWith]
  refine List.filter_congr fun g _ => ?_
  rw [OrderedMap.contains, OrderedMap.contains, h g, Option.isSome_or]
  congr 1
  split_ifs with hg
  · exact (List.contains_iff_mem.mpr hg).symm
  · exact (Bool.eq_false_iff.mpr (mt List.contains_iff_mem.mp hg)).symm

theorem any_mentions_concat (kind : MetricKind) : (items ++ [item]).any (mentions scope kind) =
    (items.any (mentions scope kind) || mentions scope kind item) := by
  simp

theorem Reads.concat (h : Reads scope items a b) (hok : readScanItem scope b item = .ok c) :
    Reads scope (items ++ [item]) a c := by
  obtain ⟨b₁, hb₁, hok⟩ := except_bind_eq_ok.mp hok
  obtain ⟨gs, hgraphs, hget⟩ := readItemGraphs scope item b
  obtain rfl := Except.ok.inj (hgraphs.symm.trans hb₁)
  have hreg := registers_of_readMetrics hok
  have hask : ∀ g, gs.get? g =
      (a.graphs.get? g).or (if g ∈ asked scope (items ++ [item]) then some (.new g) else none) := by
    intro g
    rw [hget g, h.graphs g, Option.or_assoc]
    congr 1
    simp only [asked_concat]
    split_ifs <;> simp_all
  refine ⟨hreg.plain.trans h.plain, ?_,
    fun g => by rw [hreg.graphs, hask g], fun kind hkind => ?_, fun ref hne => ?_⟩
  · rw [hreg.active, any_mentions_concat, ← Bool.or_assoc, ← h.active]
    rfl
  · rw [upTo_concat]
    cases hm : mentions scope kind item with
    | true =>
      obtain ⟨e, he, rfl, haffirms⟩ := mentions_iff.mp hm
      obtain ⟨m, hnew, hget⟩ := hreg.registered e he haffirms
      refine ⟨m, ?_, hget⟩
      rw [if_pos rfl, ← hnew, ← graphKinds_of_get? (b := { b with graphs := gs }) hask]
      exact (Metric.new_plain h.plain _ _).symm
    | false =>
      rw [any_mentions_concat, hm, Bool.or_false] at hkind
      obtain ⟨m, hnew, hget⟩ := h.registered kind hkind
      refine ⟨m, hnew, (hreg.others _ fun e he haffirms heq => ?_).trans hget⟩
      have hm' :=
        mentions_iff.mpr ⟨e, he, (MetricKind.name_injective (congrArg MetricRef.name heq)).symm,
          haffirms⟩
      exact Bool.false_ne_true (hm.symm.trans hm')
  · refine (hreg.others ref fun e he haffirms => ?_).trans (h.others ref fun kind hkind => ?_)
    · exact hne e.2.2
        (by rw [any_mentions_concat, mentions_iff.mpr ⟨e, he, rfl, haffirms⟩, Bool.or_true])
    · exact hne kind (by rw [any_mentions_concat, hkind, Bool.true_or])

theorem Reads.nil (a : Analysis) : Reads scope [] a a :=
  ⟨rfl, by simp, by simp [asked], by simp, fun _ _ => rfl⟩

theorem reads_of_foldlM (h : items.foldlM (readScanItem scope) a = .ok b) :
    Reads scope items a b := by
  induction items using List.reverseRecOn generalizing b with
  | nil =>
    obtain rfl := Except.ok.inj h
    exact .nil a
  | append_singleton items item ih =>
    rw [List.foldlM_append] at h
    obtain ⟨c, hc, h⟩ := except_bind_eq_ok.mp h
    rw [List.foldlM_cons] at h
    obtain ⟨d, hd, h⟩ := except_bind_eq_ok.mp h
    obtain rfl := Except.ok.inj h
    exact (ih hc).concat hd

/-- An item that can be read: asking it for names does not fail, and it does not ask for a history
that is nowhere. -/
def Readable (scope : ScanScope) (s : Settings) (item : Value) : Prop :=
  ∀ e ∈ metricKeys scope, ∃ v, e.2.1.holds item e.1 = .ok v ∧
    (v = true → e.2.2 = .history → s.history.directory.isNull = false)

theorem exists_readScanItem_iff :
    (∃ b, readScanItem scope a item = .ok b) ↔ Readable scope a.plain.settings item := by
  obtain ⟨gs, hgraphs, -⟩ := readItemGraphs scope item a
  rw [readScanItem, hgraphs]
  exact exists_readMetrics_iff

theorem exists_foldlM_readScanItem_iff :
    (∃ b, items.foldlM (readScanItem scope) a = .ok b) ↔
    ∀ item ∈ items, Readable scope a.plain.settings item := by
  induction items generalizing a with
  | nil => exact iff_of_true ⟨a, rfl⟩ (by simp)
  | cons item items ih =>
    have hplain : ∀ c, readScanItem scope a item = .ok c → c.plain = a.plain :=
      fun c hc => ((Reads.nil a).concat hc).plain
    rw [List.forall_mem_cons, ← exists_readScanItem_iff, List.foldlM_cons]
    constructor
    · rintro ⟨b, h⟩
      obtain ⟨c, hc, h⟩ := except_bind_eq_ok.mp h
      exact ⟨⟨c, hc⟩, hplain c hc ▸ ih.mp ⟨b, h⟩⟩
    · rintro ⟨⟨c, hc⟩, hitems⟩
      obtain ⟨b, h⟩ := ih.mpr (by rwa [hplain c hc])
      exact ⟨b, except_bind_eq_ok.mpr ⟨c, hc, h⟩⟩

/-! ### Other orders -/

/-- Other orders of the items of a scan in which metrics of graphs find the same graphs in front of
them. -/
structure Rearranges (scope : ScanScope) (items items' : List Value) : Prop where
  perm : items.Perm items'
  fronts : ∀ kind : MetricKind, kind.isGraph = true → ∀ g,
    g ∈ asked scope (upTo scope kind items') ↔ g ∈ asked scope (upTo scope kind items)

theorem kindsWith_congr {kinds kinds' : List GraphKind} (ha : a.graphs.Alike a'.graphs)
    (h : ∀ g, g ∈ kinds' ↔ g ∈ kinds) : kindsWith a' kinds' = kindsWith a kinds := by
  refine List.filter_congr fun g _ => ?_
  have hkinds : kinds'.contains g = kinds.contains g := by
    rw [Bool.eq_iff_iff, List.contains_iff_mem, List.contains_iff_mem]
    exact h g
  rw [OrderedMap.contains, OrderedMap.contains, ha g, hkinds]

theorem Reads.rearranged {a' b' : Analysis} (h : Reads scope items a b)
    (h' : Reads scope items' a' b') (hitems : Rearranges scope items items')
    (ha : a.Rearranged a') : b.Rearranged b' := by
  have hany : ∀ kind, items'.any (mentions scope kind) =
      items.any (mentions scope kind) := fun kind =>
    (hitems.perm.any_eq).symm
  refine ⟨h'.plain.trans (ha.plain.trans h.plain.symm), ?_, fun g => ?_, fun ref => ?_⟩
  · rw [h'.active, h.active, ha.active, hany]
  · rw [h'.graphs, h.graphs, ha.graphs]
    have hasked : g ∈ asked scope items' ↔ g ∈ asked scope items :=
      (hitems.perm.flatMap_right _).mem_iff.symm
    simp only [hasked]
  · by_cases hkind : ∃ kind, items.any (mentions scope kind) = true ∧ ref = ⟨scope, kind.name⟩
    · obtain ⟨kind, hkind, rfl⟩ := hkind
      obtain ⟨m, hnew, hm⟩ := h.registered kind hkind
      obtain ⟨m', hnew', hm'⟩ := h'.registered kind (by rwa [hany])
      have hsame : m' = m := by
        rw [Metric.new_plain ha.plain] at hnew'
        cases hgraph : kind.isGraph with
        | true =>
          rw [kindsWith_congr ha.graphs (hitems.fronts kind hgraph), hnew] at hnew'
          exact (Except.ok.inj hnew').symm
        | false =>
          rw [Metric.new_of_code hgraph a.settings _, hnew] at hnew'
          exact (Except.ok.inj hnew').symm
      rw [hm, hm', hsame]
    · have hnone : ∀ kind, items.any (mentions scope kind) = true → ref ≠ ⟨scope, kind.name⟩ :=
        fun kind hk heq => hkind ⟨kind, hk, heq⟩
      rw [h'.others ref fun kind hk => hnone kind (by rwa [← hany]), h.others ref hnone, ha.metrics]

theorem Reads.pristine (h : Reads scope items a b) (ha : a.Pristine) : b.Pristine where
  keyed := fun g v hv => by
    rw [h.graphs g, Option.or_eq_some_iff] at hv
    obtain hv | ⟨-, hv⟩ := hv
    · exact ha.keyed g v hv
    · split_ifs at hv
      exact congrArg GraphView.kind (Option.some.inj hv).symm
  fresh := fun ref m hm => by
    by_cases hkind : ∃ kind, items.any (mentions scope kind) = true ∧ ref = ⟨scope, kind.name⟩
    · obtain ⟨kind, hkind, rfl⟩ := hkind
      obtain ⟨m', hnew, hm'⟩ := h.registered kind hkind
      obtain rfl := Option.some.inj (hm'.symm.trans hm)
      obtain ⟨hfresh, hkind⟩ := Metric.fresh_of_new hnew
      exact ⟨hfresh, by rw [hkind]⟩
    · rw [h.others ref fun kind hk heq => hkind ⟨kind, hk, heq⟩] at hm
      exact ha.fresh ref m hm

/-! ### Entries -/

variable {entry entry' : Value} {name : String} {version : String} {project : Value}

structure Reorders (entry entry' : Value) : Prop where
  others : ∀ name, (∀ scope, name ≠ scanKey scope) → entry'.at? name = entry.at? name
  scans : ∀ scope, Option.Rel
    (fun v v' => ∃ items items', v.members = .ok items ∧ v'.members = .ok items' ∧
      Rearranges scope items items')
    (entry.field? (scanKey scope)) (entry'.field? (scanKey scope))

theorem field?_eq_toOption (v : Value) (name : String) : v.field? name = (v.at? name).toOption := by
  cases v with
  | map es =>
    rw [Value.field?, Value.at?]
    cases Value.lookup (.text name) es with
    | none => rfl
    | some w => rfl
  | _ => rfl

theorem Reorders.field? (h : Reorders entry entry') (hname : ∀ scope, name ≠ scanKey scope) :
    entry'.field? name = entry.field? name := by
  rw [field?_eq_toOption, field?_eq_toOption, h.others name hname]

theorem not_scanKey (hfiles : name ≠ "file_scan") (hentities : name ≠ "entity_scan")
    (scope : ScanScope) : name ≠ scanKey scope := by
  cases scope with
  | files => exact hfiles
  | entities => exact hentities

section
variable (h : Reorders entry entry')
include h

theorem Reorders.readSettings (s : Settings) : readSettings entry' s = readSettings entry s := by
  have hfield : ∀ name, name ≠ "file_scan" → name ≠ "entity_scan" →
      entry'.field? name = entry.field? name :=
    fun name hfiles hentities => h.field? (not_scanKey hfiles hentities)
  simp (disch := decide) only [Configuration.readSettings, readHistory, readIgnored, readOnlyFiles,
    readOverrides, appendAt, patternsAt, Configuration.eachAt, setAt, hfield]

theorem Reorders.scansOf : scansOf entry' = scansOf entry := by
  refine List.filter_congr fun key hkey => ?_
  obtain ⟨scope, -, rfl⟩ := List.mem_map.mp hkey
  have hscan := h.scans scope
  generalize entry.field? (scanKey scope) = v, entry'.field? (scanKey scope) = v' at hscan ⊢
  cases hscan with
  | none => rfl
  | some _ => rfl

theorem Reorders.readTarget (s : Settings) : readTarget entry' s = readTarget entry s := by
  have hat : ∀ name, name ≠ "file_scan" → name ≠ "entity_scan" → entry'.at? name = entry.at? name :=
    fun name hfiles hentities => h.others name (not_scanKey hfiles hentities)
  simp (disch := decide) only [Configuration.readTarget, setAt, field?_eq_toOption, hat, h.scansOf]

theorem Reorders.eachAt (ha : a.Rearranged a')
    (hok : eachAt entry (scanKey scope) (readScanItem scope) a = .ok b) :
    ∃ b', eachAt entry' (scanKey scope) (readScanItem scope) a' = .ok b' ∧ b.Rearranged b' := by
  have hscan := h.scans scope
  rw [Configuration.eachAt] at hok ⊢
  generalize entry.field? (scanKey scope) = v, entry'.field? (scanKey scope) = v' at hscan hok ⊢
  cases hscan with
  | none =>
    obtain rfl := Except.ok.inj hok
    exact ⟨a', rfl, ha⟩
  | @some v v' hscan =>
    obtain ⟨items, items', hv, hv', hitems⟩ := hscan
    obtain ⟨_, hv₁, hok⟩ := except_bind_eq_ok.mp hok
    obtain rfl := Except.ok.inj (hv.symm.trans hv₁)
    have hreadable := exists_foldlM_readScanItem_iff.mp ⟨b, hok⟩
    have hreadable' : ∀ item ∈ items', Readable scope a'.plain.settings item := fun item hitem => by
      rw [ha.plain]
      exact hreadable item (hitems.perm.mem_iff.mpr hitem)
    obtain ⟨b', hok'⟩ := exists_foldlM_readScanItem_iff.mpr hreadable'
    refine ⟨b', except_bind_eq_ok.mpr ⟨items', hv', hok'⟩, ?_⟩
    exact (reads_of_foldlM hok).rearranged (reads_of_foldlM hok') hitems ha

/-- An entry with its scans in other orders describes the same analysis, up to these orders. -/
theorem Reorders.readEntry {id : Nat}
    (hok : readEntry id project version entry = .ok a) :
    ∃ a', readEntry id project version entry' = .ok a' ∧ a.Rearranged a' := by
  obtain ⟨s, hs, hok⟩ := except_bind_eq_ok.mp hok
  obtain ⟨a₁, h₁, hok⟩ := except_bind_eq_ok.mp hok
  obtain ⟨a₂, h₂, hok⟩ := except_bind_eq_ok.mp hok
  obtain ⟨t, ht, hok⟩ := except_bind_eq_ok.mp hok
  obtain rfl := Except.ok.inj hok
  obtain ⟨a₁', h₁', hrel⟩ := h.eachAt (.refl _) h₁
  obtain ⟨a₂', h₂', hrel⟩ := h.eachAt hrel h₂
  refine ⟨{ a₂' with settings := t }, ?_, ?_⟩
  · refine except_bind_eq_ok.mpr
      ⟨s, (h.readSettings _).trans hs, except_bind_eq_ok.mpr ⟨a₁', h₁', ?_⟩⟩
    refine except_bind_eq_ok.mpr ⟨a₂', h₂', except_bind_eq_ok.mpr ⟨t, ?_, rfl⟩⟩
    rw [h.readTarget, hrel.settings, ht]
  · refine ⟨?_, rfl, hrel.graphs, hrel.metrics⟩
    exact congrArg (fun b : Analysis => { b with settings := { t with history.active := false } })
      hrel.plain

end

theorem pristine_of_eachAt (hok : eachAt entry name (readScanItem scope) a = .ok b)
    (ha : a.Pristine) : b.Pristine := by
  rw [eachAt] at hok
  split at hok
  · obtain rfl := Except.ok.inj hok
    exact ha
  · obtain ⟨items, -, hok⟩ := except_bind_eq_ok.mp hok
    exact (reads_of_foldlM hok).pristine ha

theorem pristine_of_readEntry {id : Nat}
    (hok : readEntry id project version entry = .ok a) : a.Pristine := by
  obtain ⟨s, -, hok⟩ := except_bind_eq_ok.mp hok
  obtain ⟨a₁, h₁, hok⟩ := except_bind_eq_ok.mp hok
  obtain ⟨a₂, h₂, hok⟩ := except_bind_eq_ok.mp hok
  obtain ⟨t, -, hok⟩ := except_bind_eq_ok.mp hok
  obtain rfl := Except.ok.inj hok
  obtain ⟨hkeyed, hfresh⟩ :=
    pristine_of_eachAt h₂ (pristine_of_eachAt h₁ (Analysis.pristine_new id s))
  exact ⟨hkeyed, hfresh⟩

end Configuration

end CodeAtlas
