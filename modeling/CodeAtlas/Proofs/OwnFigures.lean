import CodeAtlas.Proofs.FanDegrees

/-!
# Whose figures are whose

Every figure that is filed has a name that tells which metric it belongs to (`MetricKind.ofFigure`).
So a metric that files figures leaves alone what other metrics have to say of the same results: in
its own rows and in those of the analysis (`Metric.Filing`).
-/

namespace CodeAtlas

open FanInOut OrderedMap

/-! ### Names of figures -/

namespace MetricKind

/-- The names of the figures of a metric, apart from tags. -/
def figures : MetricKind → List String
  | .methods =>
    ["file", "entity"].flatMap fun s =>
    ["number-of-methods-in-" ++ s, "avg-number-of-methods-in-" ++ s]
  | .sourceLines =>
    (["file", "entity"].flatMap fun s => ["sloc-in-" ++ s, "avg-sloc-in-" ++ s]) ++
      ["total-sloc-in-files", "total-sloc-in-entities"]
  | .whitespace => ["ws-complexity-in-file"]
  | .fanInOut =>
    subjects.flatMap fun s =>
      ["fan-in", "fan-out", "avg-fan-in", "avg-fan-out", "max-fan-in", "max-fan-in-name",
        "max-fan-out", "max-fan-out-name"].map (key · s)
  | .communities =>
    (GraphKind.all.flatMap fun kind =>
      ["file", "entity"].map (kind.name ++ "_louvain-modularity-in-" ++ ·)) ++
      subjects.flatMap fun s =>
        ["communities", "modularity", "biggest-communities"].map
          fun f => "louvain-" ++ f ++ "-" ++ s ++ "-graph"
  | .terms => []
  | .history => ["commit-metrics"]

/-- The metric that a figure belongs to. Whatever is known to no other metric is a tag. -/
def ofFigure (figure : String) : MetricKind :=
  (all.find? fun kind => kind.figures.contains figure).getD .terms

theorem ofFigure_of_mem {kind : MetricKind} {figure : String} (h : figure ∈ kind.figures) :
    ofFigure figure = kind := by
  have hall : ∀ kind ∈ all, ∀ figure ∈ kind.figures, ofFigure figure = kind := by decide +kernel
  exact hall kind (by cases kind <;> decide) figure h

theorem ofFigure_tag (name : String) : ofFigure ("tag_" ++ name) = .terms := by
  -- bytes are compared, since it takes long to evaluate the characters of a text
  have hall : ∀ kind ∈ all, ∀ figure ∈ kind.figures,
      ¬ "tag_".toByteArray.data.toList <+: figure.toByteArray.data.toList := by decide +kernel
  have hnone : (all.find? fun kind => kind.figures.contains ("tag_" ++ name)) = none := by
    rw [List.find?_eq_none]
    intro kind hkind hcontains
    refine hall kind hkind _ (List.contains_iff_mem.mp hcontains) ?_
    rw [String.toByteArray_append, ByteArray.data_append, Array.toList_append]
    exact List.prefix_append _ _
  rw [ofFigure, hnone]
  rfl

theorem name_injective : Function.Injective name := by
  intro kind kind' h
  cases kind <;> cases kind' <;> first | rfl | exact absurd h (by decide)

def Files (kind : MetricKind) (row : List (String × Value)) : Prop := ∀ e ∈ row, ofFigure e.1 = kind

variable {kind : MetricKind} {row : List (String × Value)}

theorem Files.of_mem (h : ∀ e ∈ row, e.1 ∈ kind.figures) : kind.Files row :=
  fun e he => ofFigure_of_mem (h e he)

theorem Files.single {figure : String} (h : ofFigure figure = kind) (v : Value) :
    kind.Files [(figure, v)] := by
  intro e he
  rw [List.mem_singleton.mp he]
  exact h

theorem Files.get?_ofList (h : kind.Files row) {k : String} (hk : ofFigure k ≠ kind) :
    (ofList row).get? k = none := by
  rw [Option.eq_none_iff_forall_ne_some]
  intro v hv
  exact hk (h (k, v) (mem_of_mem_ofList (get?_eq_some_iff.mp hv)))

end MetricKind

open MetricKind

theorem mem_subjectOf (r : ScanResult) : Work.subjectOf r ∈ ["file", "entity"] := by
  rw [Work.subjectOf]
  split_ifs <;> simp

namespace FanInOut

theorem key_mem_figures {w s : String} (hs : s ∈ subjects)
    (hw : w ∈ ["fan-in", "fan-out", "avg-fan-in", "avg-fan-out",
    "max-fan-in", "max-fan-in-name", "max-fan-out", "max-fan-out-name"]) :
      key w s ∈ MetricKind.fanInOut.figures :=
  List.mem_flatMap.mpr ⟨s, hs, List.mem_map_of_mem hw⟩

theorem files_row {s : String} (hs : s ∈ subjects) (g : Digraph) (node : String) :
    MetricKind.fanInOut.Files (row s g node) := by
  refine .of_mem fun e he => ?_
  simp only [row, List.mem_cons, List.not_mem_nil, or_false] at he
  rcases he with rfl | rfl
  · exact key_mem_figures hs (by simp)
  · exact key_mem_figures hs (by simp)

theorem files_averages {s : String} (hs : s ∈ subjects) (g : Digraph) :
    MetricKind.fanInOut.Files (averages s g) := by
  refine .of_mem fun e he => ?_
  simp only [averages, List.mem_cons, List.not_mem_nil, or_false] at he
  rcases he with rfl | rfl
  · exact key_mem_figures hs (by simp)
  · exact key_mem_figures hs (by simp)

theorem files_maxima {s : String} (hs : s ∈ subjects) (g : Digraph) :
    MetricKind.fanInOut.Files (maxima s g) := by
  have hentry : ∀ w ∈ ["fan-in", "fan-out"], ∀ (node : String) (d : Nat),
      ∀ e ∈ [(key ("max-" ++ w) s, Value.int d), (key ("max-" ++ w ++ "-name") s, .text node)],
        e.1 ∈ MetricKind.fanInOut.figures := by
    intro w hw node d e he
    simp only [List.mem_cons, List.not_mem_nil, or_false] at he hw
    rcases he with rfl | rfl <;> rcases hw with rfl | rfl <;> exact key_mem_figures hs (by simp)
  refine .of_mem fun e he => ?_
  simp only [maxima] at he
  rcases List.mem_append.mp he with he | he
  · split at he
    · cases he
    · exact hentry "fan-in" (by simp) _ _ e he
  · split at he
    · cases he
    · exact hentry "fan-out" (by simp) _ _ e he

theorem files_reports {before : Option String} (hbefore : ∀ s ∈ before, s ∈ subjects)
    {views : List GraphView} {r : Report} (hr : r ∈ (reports before views).1) :
    (∀ e ∈ r.rows, MetricKind.fanInOut.Files e.2) ∧
    ∀ figures ∈ r.overall, MetricKind.fanInOut.Files figures := by
  have hrows : ∀ s ∈ subjects, ∀ g : Digraph, ∀ e ∈ rows s g, MetricKind.fanInOut.Files e.2 := by
    intro s hs g e he
    obtain ⟨node, -, rfl⟩ := List.mem_map.mp he
    exact files_row hs g node
  induction views generalizing before with
  | nil => cases hr
  | cons v views ih =>
    rw [reports] at hr
    split at hr
    · cases hr
    · next after r' hreport =>
      unfold report at hreport
      -- The word for the graph, or that of the graph before it, is one of the three.
      have hone : (∀ s ∈ after, s ∈ subjects) ∧ (∀ e ∈ r'.rows, MetricKind.fanInOut.Files e.2) ∧
          ∀ figures ∈ r'.overall, MetricKind.fanInOut.Files figures := by
        split_ifs at hreport with hempty
        · obtain ⟨rfl, rfl⟩ := Prod.mk.inj (Except.ok.inj hreport)
          exact ⟨hbefore, by simp, by simp⟩
        · split at hreport
          · next s hsubject =>
            have hs := mem_subjects hsubject
            obtain ⟨rfl, rfl⟩ := Prod.mk.inj (Except.ok.inj hreport)
            refine ⟨by simpa using hs, hrows s hs v.graph, fun figures hfigures => ?_⟩
            obtain rfl := Option.some.inj hfigures
            exact fun e he => (List.mem_append.mp he).elim (files_averages hs v.graph e)
              (files_maxima hs v.graph e)
          · split at hreport
            · next s =>
              have hs := hbefore s rfl
              obtain ⟨rfl, rfl⟩ := Prod.mk.inj (Except.ok.inj hreport)
              refine ⟨by simpa using hs, hrows s hs v.graph, fun figures hfigures => ?_⟩
              obtain rfl := Option.some.inj hfigures
              exact files_averages hs v.graph
            · cases hreport
      rcases List.mem_cons.mp hr with rfl | hr
      · exact hone.2
      · exact ih hone.1 hr

end FanInOut

namespace Work

theorem ofFigure_communityKey? {kind : GraphKind} {r : Option ScanResult} {key : String}
    (h : communityKey? kind r = some key) : ofFigure key = .communities := by
  obtain ⟨s, hs, rfl⟩ := exists_of_communityKey? h
  refine ofFigure_of_mem (List.mem_append_left _
    (List.mem_flatMap.mpr ⟨kind, ?_, List.mem_map_of_mem hs⟩))
  cases kind <;> decide

theorem files_communityFigures (v : GraphView) (labels : List (String × Nat)) :
    MetricKind.communities.Files (communityFigures v labels) := by
  have hkeys : ∀ s ∈ subjects, ∀ f ∈ ["communities", "modularity", "biggest-communities"],
      "louvain-" ++ f ++ "-" ++ s ++ "-graph" ∈ MetricKind.communities.figures := fun s hs f hf =>
    List.mem_append_right _ (List.mem_flatMap.mpr ⟨s, hs, List.mem_map_of_mem hf⟩)
  refine .of_mem fun e he => ?_
  rw [communityFigures] at he
  split at he
  · cases he
  · next s hsubject =>
    have hs := mem_subjects hsubject
    simp only [List.mem_cons, List.not_mem_nil, or_false] at he
    rcases he with rfl | rfl | rfl
    · exact hkeys s hs _ (by simp)
    · exact hkeys s hs _ (by simp)
    · exact hkeys s hs _ (by simp)

end Work

theorem Terms.files_tags (scores : OrderedMap String Value) :
    MetricKind.terms.Files (tags scores) := by
  intro e he
  obtain ⟨⟨name, v⟩, -, rfl⟩ := List.mem_map.mp he
  exact ofFigure_tag name

/-! ### Rows that a metric files -/

namespace Metric

variable {kind : MetricKind} {base rows rows' : Rows} {m m' : Metric}

theorem figure?_assignRow (m : Metric) (rows : Rows) (name : String) (row : List (String × Value))
    (n k : String) : (m.assignRow name row).figure? rows n k =
      if name = n then ((ofList row).get? k).or (rows.figure? n k) else m.figure? rows n k := by
  by_cases hn : name = n
  · subst hn
    rw [if_pos rfl, figure?_of_own (get?_insert .. |>.trans (if_pos rfl))]
  · rw [if_neg hn]
    exact figure?_congr (get?_insert .. |>.trans (if_neg hn)) rfl

theorem isSome_assignRow (m : Metric) (name : String) (row : List (String × Value)) (n : String) :
    ((m.assignRow name row).rows.get? n).isSome =
      (decide (name = n) || (m.rows.get? n).isSome) := by
  rw [assignRow, get?_insert]
  split_ifs with hn <;> simp [hn]

theorem isSome_mergeRow (m : Metric) (rows : Rows) (name : String) (row : List (String × Value))
    (n : String) :
    ((m.mergeRow rows name row).1.rows.get? n).isSome =
      (decide (name = n) || (m.rows.get? n).isSome) := by
  rw [mergeRow]
  split
  · exact isSome_assignRow m name row n
  · dsimp only
    rw [get?_insert]
    split_ifs with hn <;> simp [hn]
  · next hshared =>
    by_cases hn : name = n
    · subst hn
      simp [hshared]
    · simp [hn]

theorem isSome_foldl_handOver (rows : Rows) {es : List (String × MetricRow)}
    (hes : ∀ e ∈ es, (m.rows.get? e.1).isSome) (n : String) :
    (((es.foldl handOver (m, rows)).1.rows.get? n).isSome ↔ (m.rows.get? n).isSome) ∧
      (((es.foldl handOver (m, rows)).2.get? n).isSome ↔
        (rows.get? n).isSome ∨ ∃ row, (n, .own row) ∈ es) := by
  induction es generalizing m rows with
  | nil => simp
  | cons e es ih =>
    obtain ⟨name, row⟩ := e
    obtain ⟨hname, hrest⟩ := List.forall_mem_cons.mp hes
    rw [List.foldl_cons, handOver]
    cases row with
    | shared =>
      obtain ⟨hm, hrows⟩ := ih rows hrest
      exact ⟨hm, hrows.trans (by simp)⟩
    | own row =>
      dsimp only
      have hinsert : ∀ row' : OrderedMap String Value,
          ((rows.insert name row').get? n).isSome ↔ (rows.get? n).isSome ∨ n = name := by
        intro row'
        rw [get?_insert]
        split_ifs with hn
        · simp [hn]
        · simp [Ne.symm hn]
      have hsplit : ((rows.get? n).isSome ∨ n = name) ∨ (∃ row', (n, MetricRow.own row') ∈ es) ↔
          (rows.get? n).isSome ∨ ∃ row',
            (n, MetricRow.own row') ∈ (name, MetricRow.own row) :: es := by
        simp only [List.mem_cons, Prod.mk.injEq, MetricRow.own.injEq, exists_or, exists_and_left,
          exists_eq, and_true, or_assoc]
      split
      · next old hold =>
        obtain ⟨hm, hrows⟩ := ih (rows.insert name (old.update row)) hrest
        exact ⟨hm, hrows.trans ((or_congr_left (hinsert _)).trans hsplit)⟩
      · next hnone =>
        have hshare : ∀ n', ((m.rows.insert name .shared).get? n').isSome ↔
            (m.rows.get? n').isSome := by
          intro n'
          rw [get?_insert]
          split_ifs with hn
          · subst hn
            simpa using hname
          · rfl
        obtain ⟨hm, hrows⟩ :=
          ih (m := { m with rows := m.rows.insert name .shared }) (rows.insert name row)
          fun e he => (hshare e.1).mpr (hrest e he)
        exact ⟨hm.trans (hshare n), hrows.trans ((or_congr_left (hinsert _)).trans hsplit)⟩

theorem isSome_collect (m : Metric) (rows : Rows) (n : String) :
    ((m.collect rows).1.rows.get? n).isSome = (m.rows.get? n).isSome := by
  refine Bool.eq_iff_iff.mpr (isSome_foldl_handOver rows (fun e he => ?_) n).1
  exact Option.isSome_iff_exists.mpr ⟨e.2, get?_eq_some_iff.mpr he⟩

theorem overall_mergeRow (m : Metric) (rows : Rows) (name : String) (row : List (String × Value)) :
    (m.mergeRow rows name row).1.overall = m.overall := by
  rw [mergeRow]
  split <;> rfl

theorem overall_collect (m : Metric) (rows : Rows) : (m.collect rows).1.overall = m.overall := by
  obtain ⟨rs, h⟩ := m.exists_collect_eq rows
  rw [h]

/-- A metric that has begun to file its figures when the analysis had the rows `base`. It shares
rows that the analysis has, and what the analysis says of other figures is what it said then. -/
structure Filing (kind : MetricKind) (base : Rows) (m : Metric) (rows : Rows) : Prop where
  ofKind : m.kind = kind
  overall : ∀ k v, m.overall.get? k = some v → ofFigure k = kind
  shared : ∀ n, m.rows.get? n = some .shared → (rows.get? n).isSome
  others : ∀ n k, ofFigure k ≠ kind → rows.figure? n k = base.figure? n k ∧
    m.figure? rows n k = base.figure? n k
  kept : ∀ n, (base.get? n).isSome → (rows.get? n).isSome
  names : ∀ n, (rows.get? n).isSome → (base.get? n).isSome ∨ (m.rows.get? n).isSome

structure Fresh (m : Metric) : Prop where
  rows : m.rows = ∅
  overall : m.overall = ∅

theorem Fresh.filing (h : m.Fresh) (rows : Rows) : Filing m.kind rows m rows where
  ofKind := rfl
  overall k v hv := by
    rw [h.overall] at hv
    cases hv
  shared n hn := by
    rw [h.rows] at hn
    cases hn
  others n k _ := by
    have hnone : m.rows.get? n = none := by rw [h.rows]; rfl
    exact ⟨rfl, figure?_of_none hnone⟩
  kept _ hn := hn
  names _ hn := .inl hn

namespace Filing

variable (h : Filing kind base m rows) {row : List (String × Value)}

include h

theorem assignRow (name : String) (hrow : kind.Files row) :
    Filing kind base (m.assignRow name row) rows where
  ofKind := h.ofKind
  overall := h.overall
  shared n hn := by
    rw [Metric.assignRow, get?_insert] at hn
    split_ifs at hn
    · cases hn
    · exact h.shared n hn
  others n k hk := by
    obtain ⟨hrows, hfigure⟩ := h.others n k hk
    rw [figure?_assignRow, hrow.get?_ofList hk, Option.none_or]
    split_ifs
    · exact ⟨hrows, hrows⟩
    · exact ⟨hrows, hfigure⟩
  kept := h.kept
  names n hn := by
    rw [isSome_assignRow]
    exact (h.names n hn).imp_right fun hm => by simp [hm]

theorem mergeRow (name : String) (hrow : kind.Files row) :
    Filing kind base (m.mergeRow rows name row).1 (m.mergeRow rows name row).2 := by
  have hnone : ∀ k, ofFigure k ≠ kind → (ofList row).get? k = none :=
    fun k hk => hrow.get?_ofList hk
  have hfigure : ∀ n k, ofFigure k ≠ kind →
      (m.mergeRow rows name row).1.figure? (m.mergeRow rows name row).2 n k = base.figure? n k := by
    intro n k hk
    rw [figure?_mergeRow, hnone k hk, ite_self, Option.none_or]
    exact (h.others n k hk).2
  cases hname : m.rows.get? name with
  | none =>
    rw [Metric.mergeRow, hname]
    exact h.assignRow name hrow
  | some entry =>
    cases entry with
    | own old =>
      rw [Metric.mergeRow, hname] at hfigure ⊢
      refine ⟨h.ofKind, h.overall, fun n hn => ?_,
        fun n k hk => ⟨(h.others n k hk).1, hfigure n k hk⟩, h.kept, fun n hn => ?_⟩
      · dsimp only at hn
        rw [get?_insert] at hn
        split_ifs at hn
        · cases hn
        · exact h.shared n hn
      · refine (h.names n hn).imp_right fun hm => ?_
        dsimp only
        rw [get?_insert]
        split_ifs
        · rfl
        · exact hm
    | shared =>
      have hsome : ∀ n, ((rows.insert name ((rows.getD name ∅).insertMany row)).get? n).isSome ↔
          (rows.get? n).isSome := by
        intro n
        rw [get?_insert]
        split_ifs with hn
        · subst hn
          simpa using h.shared name hname
        · rfl
      rw [Metric.mergeRow, hname] at hfigure ⊢
      refine ⟨h.ofKind, h.overall, fun n hn => (hsome n).mpr (h.shared n hn),
        fun n k hk => ⟨?_, hfigure n k hk⟩, fun n hn => (hsome n).mpr (h.kept n hn),
        fun n hn => h.names n ((hsome n).mp hn)⟩
      rw [Rows.figure?_insert, get?_insertMany_or, hnone k hk, Option.none_or, Rows.get?_getD]
      split_ifs with hn
      · rw [hn]
        exact (h.others n k hk).1
      · exact (h.others n k hk).1

theorem addOverall {figures : List (String × Value)} (hfigures : kind.Files figures) :
    Filing kind base { m with overall := m.overall.insertMany figures } rows where
  ofKind := h.ofKind
  overall k v hv := (of_get?_insertMany hv).elim (hfigures (k, v)) (h.overall k v)
  shared := h.shared
  others := h.others
  kept := h.kept
  names := h.names

theorem setGauge {gauge : Gauge} (hgauge : gauge.kind = kind) :
    Filing kind base { m with gauge := gauge } rows where
  ofKind := hgauge
  overall := h.overall
  shared := h.shared
  others := h.others
  kept := h.kept
  names := h.names

theorem collect : Filing kind base (m.collect rows).1 (m.collect rows).2 ∧
    ∀ n, (m.rows.get? n).isSome → ((m.collect rows).2.get? n).isSome := by
  have hes : ∀ e ∈ m.rows.entries, (m.rows.get? e.1).isSome := fun e he =>
    Option.isSome_iff_exists.mpr ⟨e.2, get?_eq_some_iff.mpr he⟩
  have hown : ∀ n row, (n, MetricRow.own row) ∈ m.rows.entries ↔
      m.rows.get? n = some (.own row) := fun n row =>
    get?_eq_some_iff.symm
  have hrows : ∀ n, ((m.collect rows).2.get? n).isSome ↔
      (rows.get? n).isSome ∨ (m.rows.get? n).isSome := by
    intro n
    refine (isSome_foldl_handOver rows hes n).2.trans ⟨?_, ?_⟩
    · refine Or.imp_right ?_
      rintro ⟨row, hrow⟩
      simp [(hown n row).mp hrow]
    · rintro (hn | hn)
      · exact .inl hn
      · obtain ⟨row, hrow⟩ := Option.isSome_iff_exists.mp hn
        cases row with
        | shared => exact .inl (h.shared n hrow)
        | own row => exact .inr ⟨row, (hown n row).mpr hrow⟩
  obtain ⟨hgauge, hfigure⟩ := m.figure?_collect rows
  have hoverall : (m.collect rows).1.overall = m.overall := overall_collect m rows
  refine ⟨⟨(congrArg Gauge.kind hgauge).trans h.ofKind, hoverall ▸ h.overall, fun n hn => ?_,
    fun n k hk => ?_, fun n hn => ?_, fun n hn => ?_⟩, fun n hn => (hrows n).mpr (.inr hn)⟩
  · exact (hrows n).mpr (.inr (by rw [← isSome_collect m rows, hn]; rfl))
  · rw [(hfigure n k).1, (hfigure n k).2]
    exact ⟨(h.others n k hk).2, (h.others n k hk).2⟩
  · exact (hrows n).mpr (.inl (h.kept n hn))
  · rw [isSome_collect]
    exact ((hrows n).mp hn).elim (h.names n) .inr

end Filing

/-! ### Two metrics of a kind -/

/-- Metrics that give a result a new row instead of adding to the one that it has. -/
def Replaces (kind : MetricKind) : Prop := kind ∈ [MetricKind.methods, .sourceLines, .whitespace]

/-- In two analyses, metrics of a kind have got as far and will say the same of their own
figures. -/
structure Tied (kind : MetricKind) (m : Metric) (rows : Rows) (m' : Metric) (rows' : Rows) :
    Prop where
  gauge : m'.gauge = m.gauge
  overall : m'.overall = m.overall
  names : ∀ n, (m'.rows.get? n).isSome = (m.rows.get? n).isSome
  figures : ∀ n k, ofFigure k = kind → m'.figure? rows' n k = m.figure? rows n k
  rows : Replaces kind → ∀ n k, ofFigure k = kind → rows'.figure? n k = rows.figure? n k

namespace Tied

variable (h : Tied kind m rows m' rows')

include h

theorem assignRow (hkind : Replaces kind) (name : String) (row : List (String × Value)) :
    Tied kind (m.assignRow name row) rows (m'.assignRow name row) rows' where
  gauge := h.gauge
  overall := h.overall
  names n := by rw [isSome_assignRow, isSome_assignRow, h.names]
  figures n k hk := by rw [figure?_assignRow, figure?_assignRow, h.rows hkind n k hk,
    h.figures n k hk]
  rows := h.rows

theorem mergeRow (hkind : ¬ Replaces kind) (name : String) (row : List (String × Value)) :
    Tied kind (m.mergeRow rows name row).1 (m.mergeRow rows name row).2
      (m'.mergeRow rows' name row).1
      (m'.mergeRow rows' name row).2 where
  gauge := by rw [gauge_mergeRow, gauge_mergeRow, h.gauge]
  overall := by rw [overall_mergeRow, overall_mergeRow, h.overall]
  names n := by rw [isSome_mergeRow, isSome_mergeRow, h.names]
  figures n k hk := by rw [figure?_mergeRow, figure?_mergeRow, h.figures n k hk]
  rows hreplaces := absurd hreplaces hkind

theorem addOverall (figures : List (String × Value)) :
    Tied kind { m with overall := m.overall.insertMany figures } rows
      { m' with overall := m'.overall.insertMany figures }
      rows' where
  gauge := h.gauge
  overall := by rw [h.overall]
  names := h.names
  figures := h.figures
  rows := h.rows

theorem setGauge (gauge : Gauge) :
    Tied kind { m with gauge := gauge } rows { m' with gauge := gauge } rows' where
  gauge := rfl
  overall := h.overall
  names := h.names
  figures := h.figures
  rows := h.rows

theorem collect : Tied kind (m.collect rows).1 (m.collect rows).2 (m'.collect rows').1
    (m'.collect rows').2 ∧
    ∀ n k, ofFigure k = kind → (m'.collect rows').2.figure? n k =
      (m.collect rows).2.figure? n k := by
  have hcollect := m.figure?_collect rows
  have hcollect' := m'.figure?_collect rows'
  have hrows : ∀ n k, ofFigure k = kind →
      (m'.collect rows').2.figure? n k = (m.collect rows).2.figure? n k := by
    intro n k hk
    rw [(hcollect.2 n k).1, (hcollect'.2 n k).1, h.figures n k hk]
  refine ⟨⟨?_, ?_, fun n => ?_, fun n k hk => ?_, fun _ => hrows⟩, hrows⟩
  · rw [gauge_collect, gauge_collect, h.gauge]
  · rw [overall_collect, overall_collect, h.overall]
  · rw [isSome_collect, isSome_collect, h.names]
  · rw [(hcollect.2 n k).2, (hcollect'.2 n k).2, h.figures n k hk]

end Tied

end Metric

end CodeAtlas
