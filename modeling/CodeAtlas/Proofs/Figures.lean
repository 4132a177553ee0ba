import CodeAtlas.Proofs.Measuring

/-!
# Where figures end up

A metric keeps its rows to itself until they are collected, and from then on shares some of them
with the analysis. `Metric.figure?` looks through this: filing a row changes it there and nowhere
else (`Metric.figure?_mergeRow`), and collecting leaves it as it is and makes the analysis say the
same (`Metric.figure?_collect`). So what the analysis says in the end is what was filed last
(`Work.reaches_calculateMetric`, `Work.reaches_calculateGraphMetrics`).
-/

namespace CodeAtlas

open Effect FanInOut

/-! ### Rows -/

def Rows.figure? (rows : Rows) (name key : String) : Option Value :=
  (rows.get? name).bind fun row => row.get? key

theorem Rows.figure?_insert (rows : Rows) (name : String) (row : OrderedMap String Value)
    (n k : String) :
    figure? (OrderedMap.insert rows name row) n k =
      if name = n then row.get? k else rows.figure? n k := by
  rw [figure?, OrderedMap.get?_insert]
  split_ifs with hname
  · rfl
  · rfl

theorem Rows.get?_getD (rows : Rows) (name k : String) :
    (rows.getD name ∅).get? k = rows.figure? name k := by
  rw [figure?, OrderedMap.getD_eq]
  cases rows.get? name with
  | none => rfl
  | some row => rfl

namespace Metric

variable {m : Metric} {rows : Rows} {n k : String}

/-- What the analysis will say of a figure once the rows of the metric are collected. -/
def figure? (m : Metric) (rows : Rows) (name key : String) : Option Value :=
  match m.rows.get? name with
  | some (.own row) => (row.get? key).or (rows.figure? name key)
  | _ => rows.figure? name key

theorem figure?_of_own {row : OrderedMap String Value} (h : m.rows.get? n = some (.own row)) :
    m.figure? rows n k = (row.get? k).or (rows.figure? n k) := by
  rw [figure?, h]

theorem figure?_of_shared (h : m.rows.get? n = some .shared) :
    m.figure? rows n k = rows.figure? n k := by
  rw [figure?, h]

theorem figure?_of_none (h : m.rows.get? n = none) : m.figure? rows n k = rows.figure? n k := by
  rw [figure?, h]

theorem figure?_congr {m' : Metric} {rows' : Rows} (hrow : m'.rows.get? n = m.rows.get? n)
    (hrows : rows'.figure? n k = rows.figure? n k) : m'.figure? rows' n k = m.figure? rows n k := by
  rw [figure?, figure?, hrow, hrows]

theorem figure?_mergeRow (m : Metric) (rows : Rows) (name : String) (row : List (String × Value))
    (n k : String) : (m.mergeRow rows name row).1.figure? (m.mergeRow rows name row).2 n k =
      (if name = n then (OrderedMap.ofList row).get? k else none).or (m.figure? rows n k) := by
  rw [mergeRow]
  by_cases hname : name = n
  · subst hname
    rw [if_pos rfl]
    split
    · next hnone =>
      have hown : (m.assignRow name row).rows.get? name = some (.own (.ofList row)) := by
        rw [assignRow, OrderedMap.get?_insert, if_pos rfl]
      rw [figure?_of_own hown, figure?_of_none hnone]
    · next old hold =>
      rw [figure?_of_own (OrderedMap.get?_insert .. |>.trans (if_pos rfl)), figure?_of_own hold,
        OrderedMap.get?_insertMany_or, Option.or_assoc]
    · next hshared =>
      rw [figure?_of_shared hshared, figure?_of_shared hshared, Rows.figure?_insert, if_pos rfl,
        OrderedMap.get?_insertMany_or, Rows.get?_getD]
  · rw [if_neg hname, Option.none_or]
    split
    · exact figure?_congr (OrderedMap.get?_insert .. |>.trans (if_neg hname)) rfl
    · exact figure?_congr (OrderedMap.get?_insert .. |>.trans (if_neg hname)) rfl
    · exact figure?_congr rfl (Rows.figure?_insert .. |>.trans (if_neg hname))

/-! ### Collecting the rows -/

/-- What handing over the rows of some results does: the analysis now says what the metric says of
them, and nothing else changes. -/
structure HandsOver (names : List String) (m : Metric) (rows : Rows) (m' : Metric) (rows' : Rows) :
    Prop where
  gauge : m'.gauge = m.gauge
  row : ∀ n ∉ names, m'.rows.get? n = m.rows.get? n
  same : ∀ n k, m'.figure? rows' n k = m.figure? rows n k
  shown : ∀ n k, rows'.figure? n k = if n ∈ names then m.figure? rows n k else rows.figure? n k

theorem HandsOver.append {names names' : List String} {m₁ m₂ : Metric} {rows₁ rows₂ : Rows}
    (h : HandsOver names m rows m₁ rows₁) (h' : HandsOver names' m₁ rows₁ m₂ rows₂) :
    HandsOver (names ++ names') m rows m₂ rows₂ where
  gauge := h'.gauge.trans h.gauge
  row := by
    intro n hn
    rw [List.mem_append, not_or] at hn
    exact (h'.row n hn.2).trans (h.row n hn.1)
  same n k := (h'.same n k).trans (h.same n k)
  shown := by
    intro n k
    rw [h'.shown, h.same, h.shown]
    by_cases hn : n ∈ names <;> by_cases hn' : n ∈ names' <;> simp [hn, hn']

theorem handsOver (rows : Rows) {name : String} {row : MetricRow}
    (h : m.rows.get? name = some row) :
    HandsOver [name] m rows (handOver (m, rows) (name, row)).1
      (handOver (m, rows) (name, row)).2 := by
  cases row with
  | shared =>
    refine ⟨rfl, fun _ _ => rfl, fun _ _ => rfl, fun n k => ?_⟩
    split_ifs with hn
    · rw [List.mem_singleton.mp hn]
      exact (figure?_of_shared h).symm
    · rfl
  | own row =>
    -- Whether the analysis has a row for the result already or not, it has all figures afterwards.
    have hshown : ∀ row' : OrderedMap String Value,
        (∀ k, row'.get? k = (row.get? k).or (rows.figure? name k)) →
        ∀ n k, Rows.figure? (rows.insert name row') n k =
          if n ∈ [name] then m.figure? rows n k else rows.figure? n k := by
      intro row' hrow' n k
      rw [Rows.figure?_insert]
      by_cases hn : name = n
      · subst hn
        rw [if_pos rfl, if_pos List.mem_cons_self, hrow', figure?_of_own h]
      · rw [if_neg hn, if_neg fun hmem => hn (List.mem_singleton.mp hmem).symm]
    rw [handOver]
    dsimp only
    split
    · next old hold =>
      have hrows :=
        hshown (old.update row) fun k => by rw [OrderedMap.get?_update, Rows.figure?, hold]; rfl
      refine ⟨rfl, fun _ _ => rfl, fun n k => ?_, hrows⟩
      by_cases hn : n = name
      · subst hn
        rw [figure?_of_own h, hrows, if_pos List.mem_cons_self, figure?_of_own h, ← Option.or_assoc,
          Option.or_self]
      · refine figure?_congr rfl ((hrows n k).trans (if_neg ?_))
        simpa using hn
    · next hnone =>
      have hrows := hshown row fun k => by rw [Rows.figure?, hnone]; exact Option.or_none.symm
      have hother : ∀ n ∉ [name], (m.rows.insert name .shared).get? n = m.rows.get? n := by
        intro n hn
        rw [OrderedMap.get?_insert, if_neg fun heq => hn (by simp [heq])]
      refine ⟨rfl, hother, fun n k => ?_, hrows⟩
      by_cases hn : n ∈ [name]
      · obtain rfl : n = name := List.mem_singleton.mp hn
        rw [figure?_of_shared (OrderedMap.get?_insert .. |>.trans (if_pos rfl)), hrows, if_pos hn]
      · exact figure?_congr (hother n hn) ((hrows n k).trans (if_neg hn))

theorem handsOver_foldl {es : List (String × MetricRow)} (hnd : (es.map Prod.fst).Nodup)
    (hes : ∀ e ∈ es, m.rows.get? e.1 = some e.2) :
    HandsOver (es.map Prod.fst) m rows (es.foldl handOver (m, rows)).1
      (es.foldl handOver (m, rows)).2 := by
  induction es generalizing m rows with
  | nil => exact ⟨rfl, fun _ _ => rfl, fun _ _ => rfl, fun _ _ => rfl⟩
  | cons e es ih =>
    obtain ⟨name, row⟩ := e
    rw [List.map_cons, List.nodup_cons] at hnd
    obtain ⟨hrow, hes⟩ := List.forall_mem_cons.mp hes
    have hstep := handsOver rows hrow
    refine hstep.append (ih hnd.2 fun e he => ?_)
    have hne : e.1 ∉ [name] :=
      fun hmem => hnd.1 (List.mem_map.mpr ⟨e, he, List.mem_singleton.mp hmem⟩)
    exact (hstep.row e.1 hne).trans (hes e he)

/-- Collecting changes nothing that is known of a figure, and the analysis then knows it. -/
theorem figure?_collect (m : Metric) (rows : Rows) : (m.collect rows).1.gauge = m.gauge ∧
    ∀ n k, (m.collect rows).2.figure? n k = m.figure? rows n k ∧
      (m.collect rows).1.figure? (m.collect rows).2 n k = m.figure? rows n k := by
  have hall : HandsOver m.rows.keys m rows (m.collect rows).1 (m.collect rows).2 :=
    handsOver_foldl m.rows.nodup fun e he => OrderedMap.get?_eq_some_iff.mpr he
  refine ⟨hall.gauge, fun n k => ⟨?_, hall.same n k⟩⟩
  rw [hall.shown]
  split_ifs with hmem
  · rfl
  · exact (figure?_of_none (OrderedMap.get?_eq_none_iff.mpr hmem)).symm

end Metric

/-! ### Rows that are filed one after the other -/

/-- The figure that was filed last under a name. -/
def Rows.lastFiled? : List (String × List (String × Value)) → String → String → Option Value
  | [], _, _ => none
  | (name, row) :: rest, n, k =>
    (lastFiled? rest n k).or (if name = n then (OrderedMap.ofList row).get? k else none)

theorem Rows.lastFiled?_append (es fs : List (String × List (String × Value))) (n k : String) :
    lastFiled? (es ++ fs) n k = (lastFiled? fs n k).or (lastFiled? es n k) := by
  induction es with
  | nil => rw [lastFiled?, Option.or_none]; rfl
  | cons e es ih => rw [List.cons_append, lastFiled?, ih, lastFiled?, Option.or_assoc]

namespace FanInOut

def subjects : List String := ["dependency", "inheritance", "complete"]

def keys : List String :=
  subjects.flatMap fun subject => [key "fan-in" subject, key "fan-out" subject]

def filing (views : List GraphView) : List (String × List (String × Value)) :=
  views.flatMap fun v => (subject? v.kind).elim [] fun subject => rows subject v.graph

theorem rows_of_isEmpty {g : Digraph} (h : g.nodes.isEmpty = true) (subject : String) :
    rows subject g = [] := by
  rw [rows, Digraph.names, OrderedMap.keys, List.isEmpty_iff.mp h]
  rfl

theorem reports_eq {views : List GraphView} (h : ∀ v ∈ views, (subject? v.kind).isSome)
    (before : Option String) :
    (reports before views).2 = none ∧
    (reports before views).1.flatMap Report.rows = filing views := by
  induction views generalizing before with
  | nil => exact ⟨rfl, rfl⟩
  | cons v views ih =>
    obtain ⟨hv, hviews⟩ := List.forall_mem_cons.mp h
    obtain ⟨subject, hsubject⟩ := Option.isSome_iff_exists.mp hv
    obtain ⟨after, r, hreport, hrows⟩ : ∃ after r, report before v = .ok (after, r) ∧
        r.rows = rows subject v.graph := by
      unfold report
      rw [hsubject]
      split_ifs with hempty
      · exact ⟨_, _, rfl, (rows_of_isEmpty hempty subject).symm⟩
      · exact ⟨_, _, rfl, rfl⟩
    obtain ⟨hnone, hfiling⟩ := ih hviews after
    rw [reports, hreport]
    refine ⟨hnone, ?_⟩
    rw [List.flatMap_cons, hfiling, hrows, filing, filing, List.flatMap_cons, hsubject]
    rfl

end FanInOut

/-! ### Metrics of an analysis -/

namespace Work

variable {ref : MetricRef} {m : Metric} {j j' : Job}

/-- A metric is registered at a reference, under its own name. -/
structure Registered (ref : MetricRef) (m : Metric) (j : Job) : Prop where
  metric : j.analysis.metric? ref = some m
  name : ref.name = m.kind.name

theorem Registered.ref_eq {m' : Metric} (hm : Registered ref m j) (hgauge : m'.gauge = m.gauge) :
    ref = ⟨ref.scope, m'.kind.name⟩ := by
  rw [Metric.kind, hgauge, ← Metric.kind, ← hm.name]

/-- Of fan-in and fan-out, work on a metric has filed just the given rows. Graphs and other metrics
are as before. -/
structure Filed (ref : MetricRef) (es : List (String × List (String × Value))) (j j' : Job) :
    Prop where
  graphs : j'.analysis.graphs = j.analysis.graphs
  others : ∀ r ≠ ref, j'.analysis.metric? r = j.analysis.metric? r
  filed : ∀ m, Registered ref m j → ∃ m', Registered ref m' j' ∧ m'.gauge = m.gauge ∧
    ∀ n, ∀ k ∈ keys,
    m'.figure? j'.analysis.rows n k = (Rows.lastFiled? es n k).or (m.figure? j.analysis.rows n k)

namespace Filed

variable {es fs : List (String × List (String × Value))} {j₁ : Job}

theorem append (h : Filed ref es j j₁) (h' : Filed ref fs j₁ j') : Filed ref (es ++ fs) j j' where
  graphs := h'.graphs.trans h.graphs
  others r hr := (h'.others r hr).trans (h.others r hr)
  filed := by
    intro m hm
    obtain ⟨m₁, hm₁, hgauge₁, hfigure₁⟩ := h.filed m hm
    obtain ⟨m₂, hm₂, hgauge₂, hfigure₂⟩ := h'.filed m₁ hm₁
    refine ⟨m₂, hm₂, hgauge₂.trans hgauge₁, fun n k hk => ?_⟩
    rw [hfigure₂ n k hk, hfigure₁ n k hk, Rows.lastFiled?_append, Option.or_assoc]

theorem then_nothing (h : Filed ref es j j₁) (h' : Filed ref [] j₁ j') : Filed ref es j j' :=
  List.append_nil es ▸ h.append h'

theorem nothing (hgraphs : j'.analysis.graphs = j.analysis.graphs)
    (hmetrics : ∀ r, j'.analysis.metric? r = j.analysis.metric? r)
    (hrows : j'.analysis.rows = j.analysis.rows) : Filed ref [] j j' := by
  refine ⟨hgraphs, fun r _ => hmetrics r,
    fun m hm => ⟨m, ⟨(hmetrics ref).trans hm.metric, hm.name⟩, rfl, ?_⟩⟩
  intro n k _
  rw [hrows]
  rfl

theorem exists_registered (h : Filed ref es j j') (hm : Registered ref m j) :
    ∃ m', Registered ref m' j' ∧ m'.gauge = m.gauge := by
  obtain ⟨m', hm', hgauge, -⟩ := h.filed m hm
  exact ⟨m', hm', hgauge⟩

end Filed

theorem Filed.replace (m' : Metric) (a : Analysis) {es : List (String × List (String × Value))}
    (hm : Registered ref m j) (hgraphs : a.graphs = j.analysis.graphs)
    (hmetrics : ∀ r, a.metric? r = j.analysis.metric? r) (hgauge : m'.gauge = m.gauge)
    (hfigure : ∀ n, ∀ k ∈ keys,
      m'.figure? a.rows n k = (Rows.lastFiled? es n k).or (m.figure? j.analysis.rows n k)) :
    Filed ref es j { j with analysis := a.setMetric ref.scope m' } := by
  have href := hm.ref_eq hgauge
  refine ⟨(a.graphs_setMetric ..).trans hgraphs, fun r hr => ?_,
    fun m₀ hm₀ => ⟨m', ⟨?_, ?_⟩, ?_, fun n k hk => ?_⟩⟩
  · rw [Analysis.metric?_setMetric, if_neg (href ▸ hr), hmetrics]
  · rw [Analysis.metric?_setMetric, if_pos href]
  · rw [Metric.kind, hgauge]
    exact hm.name
  · obtain rfl := Option.some.inj (hm₀.metric.symm.trans hm.metric)
    exact hgauge
  · obtain rfl := Option.some.inj (hm₀.metric.symm.trans hm.metric)
    rw [Analysis.rows_setMetric]
    exact hfigure n k hk

theorem reaches_mergeRow (hm : Registered ref m j) (name : String) (row : List (String × Value)) :
    Reaches (mergeRow ref name row) j fun _ j' => Filed ref [(name, row)] j j' := by
  refine ⟨(), _, bind_of_ok (metricAt_of_metric? hm.metric), ?_⟩
  let a : Analysis := { j.analysis with rows := (m.mergeRow j.analysis.rows name row).2 }
  refine Filed.replace (m.mergeRow j.analysis.rows name row).1 a hm rfl (fun _ => rfl)
    (m.gauge_mergeRow ..) fun n k _ => ?_
  refine (m.figure?_mergeRow ..).trans ?_
  rw [Rows.lastFiled?, Rows.lastFiled?, Option.none_or]

theorem reaches_addOverall (hm : Registered ref m j) (figures : List (String × Value)) :
    Reaches (addOverall ref figures) j fun _ j' => Filed ref [] j j' := by
  refine ⟨(), _, bind_of_ok (metricAt_of_metric? hm.metric), ?_⟩
  exact Filed.replace { m with overall := m.overall.insertMany figures } j.analysis hm rfl
    (fun _ => rfl) rfl fun _ _ _ => rfl

theorem reaches_log (source : LogSource) (kind : LogKind) (message : String) :
    Reaches (log source kind message) j fun _ j' => Filed ref [] j j' :=
  ⟨(), _, rfl, .nothing rfl (fun _ => rfl) rfl⟩

theorem reaches_mergeRows (hm : Registered ref m j) (rows : List (String × List (String × Value))) :
    Reaches (rows.forM fun entry => mergeRow ref entry.1 entry.2) j
      fun _ j' => Filed ref rows j j' := by
  refine .forM (I := fun done j' => Filed ref done j j') [] (.nothing rfl (fun _ => rfl) rfl) ?_ rfl
  intro done entry rest t _ ht
  obtain ⟨m', hm', -⟩ := ht.exists_registered hm
  exact (reaches_mergeRow hm' entry.1 entry.2).imp fun _ _ h => ht.append h

theorem reaches_fileReport (hm : Registered ref m j) (r : FanInOut.Report) :
    Reaches (fileReport ref r) j fun _ j' => Filed ref r.rows j j' := by
  refine .bind (reaches_mergeRows hm r.rows) fun _ t ht => ?_
  obtain ⟨m', hm', -⟩ := ht.exists_registered hm
  split
  · exact (reaches_addOverall hm' _).imp fun _ _ h => ht.then_nothing h
  · exact (reaches_log _ _ _).imp fun _ _ h => ht.then_nothing h

theorem reaches_measureFanInOut {slots : GraphSlots} (hm : Registered ref m j)
    (hviews : ∀ v ∈ j.analysis.slotViews slots, (subject? v.kind).isSome) :
    Reaches (measureFanInOut ref slots) j
      fun _ j' => Filed ref (filing (j.analysis.slotViews slots)) j j' := by
  obtain ⟨hnone, hfiling⟩ := reports_eq hviews none
  have hreports : Reaches ((reports none (j.analysis.slotViews slots)).1.forM (fileReport ref)) j
      fun _ j' => Filed ref (filing (j.analysis.slotViews slots)) j j' := by
    rw [← hfiling]
    refine .forM (I := fun done j' => Filed ref (done.flatMap FanInOut.Report.rows) j j') []
      (.nothing rfl (fun _ => rfl) rfl) ?_ rfl
    intro done r rest t _ ht
    obtain ⟨m', hm', -⟩ := ht.exists_registered hm
    refine (reaches_fileReport hm' r).imp fun _ _ h => ?_
    rw [List.flatMap_append, List.flatMap_singleton]
    exact ht.append h
  refine .bind (Q := fun a t => a = j.analysis ∧ t = j) ⟨_, _, rfl, rfl, rfl⟩ ?_
  rintro a t ⟨rfl, rfl⟩
  refine .bind hreports fun _ t' ht' => ?_
  rw [hnone]
  exact ⟨(), t', rfl, ht'⟩

/-! ### Communities -/

variable {r : Option ScanResult} {kind : GraphKind} {key : String}

theorem mem_of_communitySubject? {subject : String}
    (h : communitySubject? kind r = some subject) : subject ∈ ["file", "entity"] := by
  cases r with
  | some r =>
    obtain rfl := Option.some.inj h
    rw [subjectOf]
    split_ifs <;> simp
  | none =>
    cases kind with
    | fileChangeCoupling => cases h
    | _ =>
      obtain rfl := Option.some.inj h
      simp

theorem exists_of_communityKey? (h : communityKey? kind r = some key) :
    ∃ subject ∈ ["file", "entity"], key = kind.name ++ "_louvain-modularity-in-" ++ subject := by
  obtain ⟨subject, hsubject, rfl⟩ := Option.map_eq_some_iff.mp h
  exact ⟨subject, mem_of_communitySubject? hsubject, rfl⟩

theorem communityKey?_not_mem (h : communityKey? kind r = some key) :
    key ∉ keys := by
  have hall : ∀ kind ∈ GraphKind.all, ∀ subject ∈ ["file", "entity"],
      kind.name ++ "_louvain-modularity-in-" ++ subject ∉ keys := by decide +kernel
  have hkind : kind ∈ GraphKind.all := by cases kind <;> decide
  obtain ⟨subject, hsubject, rfl⟩ := exists_of_communityKey? h
  exact hall kind hkind subject hsubject

theorem reaches_fileCommunity (hm : Registered ref m j) (rs : Results) (kind : GraphKind)
    (node : String) (c : Nat) :
    Reaches (fileCommunity ref rs kind node c) j fun _ j' => Filed ref [] j j' := by
  have hmerge (key : String) (hkey : key ∉ keys) {t : Job} (ht : Filed ref [] j t) :
      Reaches (mergeRow ref node [(key, .int c)]) t fun _ j' => Filed ref [] j j' := by
    obtain ⟨m', hm', -⟩ := ht.exists_registered hm
    refine (reaches_mergeRow hm' node [(key, .int c)]).imp
      fun _ j' h => ht.append ⟨h.graphs, h.others, fun m₁ hm₁ => ?_⟩
    obtain ⟨m₂, hm₂, hgauge, hfigure⟩ := h.filed m₁ hm₁
    refine ⟨m₂, hm₂, hgauge, fun n k hk => (hfigure n k hk).trans ?_⟩
    have hne : key ≠ k := fun heq => hkey (heq ▸ hk)
    have hnone : Rows.lastFiled? [(node, [(key, .int c)])] n k = none := by
      rw [Rows.lastFiled?, Rows.lastFiled?, Option.none_or]
      split_ifs
      · exact (OrderedMap.get?_insert ..).trans (if_neg hne)
      · rfl
    rw [hnone]
    rfl
  rw [fileCommunity]
  dsimp only
  split
  · exact ⟨(), j, rfl, .nothing rfl (fun _ => rfl) rfl⟩
  · next key hkey =>
    have hkey := communityKey?_not_mem hkey
    split
    · exact .bind ⟨(), _, rfl, .nothing rfl (fun _ => rfl) rfl⟩ fun _ t ht => hmerge key hkey ht
    · exact hmerge key hkey (.nothing rfl (fun _ => rfl) rfl)

theorem reaches_measureCommunities (hm : Registered ref m j) (slots : GraphSlots) (rs : Results) :
    Reaches (measureCommunities ref slots rs) j fun _ j' => Filed ref [] j j' := by
  refine .bind (Q := fun a t => a = j.analysis ∧ t = j) ⟨_, _, rfl, rfl, rfl⟩ ?_
  rintro a t ⟨rfl, rfl⟩
  refine .forM (I := fun _ j' => Filed ref [] t j') [] (.nothing rfl (fun _ => rfl) rfl) ?_ rfl
  intro done v rest t₁ _ ht₁
  split
  · exact (reaches_log _ _ _).imp fun _ _ h => ht₁.then_nothing h
  · refine .bind (Q := fun _ t₂ => Filed ref [] t t₂)
      (.forM (I := fun _ t₂ => Filed ref [] t t₂) [] ht₁ ?_ rfl) ?_
    · rintro - ⟨node, c⟩ - t₂ - ht₂
      obtain ⟨m₂, hm₂, -⟩ := ht₂.exists_registered hm
      exact (reaches_fileCommunity hm₂ rs v.kind node c).imp fun _ _ h => ht₂.then_nothing h
    · intro _ t₂ ht₂
      obtain ⟨m₂, hm₂, -⟩ := ht₂.exists_registered hm
      exact (reaches_addOverall hm₂ _).imp fun _ _ h => ht₂.then_nothing h

end Work

/-! ### Metrics of graphs -/

namespace Metric

variable {m m' : Metric} {a a' : Analysis}

def fanRows (m : Metric) (a : Analysis) : List (String × List (String × Value)) :=
  match m.gauge with
  | .fanInOut slots => filing (a.slotViews slots)
  | _ => []

/-- A metric of graphs that can measure those that it looks at. -/
def Measures (m : Metric) (a : Analysis) : Prop :=
  match m.gauge with
  | .fanInOut slots => ∀ v ∈ a.slotViews slots, (subject? v.kind).isSome
  | .communities _ => True
  | _ => False

theorem slotViews_congr (h : a.graphs.Alike a'.graphs) (slots : GraphSlots) :
    a'.slotViews slots = a.slotViews slots := by
  have hslot : a'.slotView? = a.slotView? := by
    funext slot
    cases slot with
    | none | own v => rfl
    | ofAnalysis kind => exact h kind
  rw [Analysis.slotViews, hslot]
  rfl

theorem fanRows_congr (hgauge : m'.gauge = m.gauge) (h : a'.graphs = a.graphs) :
    m'.fanRows a' = m.fanRows a := by
  simp only [fanRows, hgauge, slotViews_congr (OrderedMap.Alike.of_eq h)]

theorem Measures.congr (hm : m.Measures a) (hgauge : m'.gauge = m.gauge)
    (h : a'.graphs = a.graphs) : m'.Measures a' := by
  simp only [Measures, hgauge, slotViews_congr (OrderedMap.Alike.of_eq h)]
  exact hm

end Metric

namespace Work

variable {ref : MetricRef} {m : Metric} {j : Job}

theorem reaches_measure (hm : Registered ref m j) (hmeasures : m.Measures j.analysis)
    (rs : Results) :
    Reaches (measure ref rs) j fun _ j' => Filed ref (m.fanRows j.analysis) j j' := by
  refine .bind (Q := fun m' t => m' = m ∧ t = j) ⟨_, _, metricAt_of_metric? hm.metric, rfl, rfl⟩ ?_
  rintro _ _ ⟨rfl, rfl⟩
  rename_i m j
  cases hgauge : m.gauge with
  | fanInOut slots =>
    simp only [Metric.fanRows, Metric.Measures, hgauge] at hmeasures ⊢
    exact reaches_measureFanInOut hm hmeasures
  | communities slots =>
    simp only [Metric.fanRows, hgauge]
    exact reaches_measureCommunities hm slots rs
  | methods | sourceLines | whitespace | terms _ | history _ =>
    simp [Metric.Measures, hgauge] at hmeasures

def Collected (ref : MetricRef) (j : Job) : Prop :=
  ∀ m, Registered ref m j → ∀ n k, j.analysis.rows.figure? n k = m.figure? j.analysis.rows n k

theorem reaches_collectMetric (hm : Registered ref m j) :
    Reaches (collectMetric ref) j fun _ j' => Filed ref [] j j' ∧ Collected ref j' := by
  obtain ⟨hgauge, hfigure⟩ := m.figure?_collect j.analysis.rows
  let a : Analysis :=
    ({ j.analysis with rows := (m.collect j.analysis.rows).2 } : Analysis).collectOverall
    (m.collect j.analysis.rows).1.overall
  have hfiled :
      Filed ref [] j { j with analysis := a.setMetric ref.scope (m.collect j.analysis.rows).1 } :=
    .replace _ a hm rfl (fun _ => rfl) hgauge fun n k _ => (hfigure n k).2
  refine ⟨(), { j with analysis := a.setMetric ref.scope (m.collect j.analysis.rows).1 },
    bind_of_ok (metricAt_of_metric? hm.metric), hfiled, fun m' hm' n k => ?_⟩
  have hmetric := hm'.metric
  rw [Analysis.metric?_setMetric, if_pos (hm.ref_eq hgauge)] at hmetric
  obtain rfl := Option.some.inj hmetric
  rw [Analysis.rows_setMetric]
  exact (hfigure n k).1.trans (hfigure n k).2.symm

/-- A metric has been calculated: its rows are filed and collected. -/
structure Calculated (ref : MetricRef) (es : List (String × List (String × Value))) (j j' : Job) :
    Prop where
  filed : Filed ref es j j'
  collected : Collected ref j'

theorem Calculated.again {es : List (String × List (String × Value))} {t t' : Job}
    (h : Calculated ref es j t) (h' : Filed ref es t t') : Filed ref es j t' := by
  refine ⟨h'.graphs.trans h.filed.graphs, fun r hr => (h'.others r hr).trans (h.filed.others r hr),
    fun m₀ hm₀ => ?_⟩
  obtain ⟨m₁, hm₁, hgauge₁, hfigure₁⟩ := (h.filed.append h').filed m₀ hm₀
  refine ⟨m₁, hm₁, hgauge₁, fun n k hk => (hfigure₁ n k hk).trans ?_⟩
  rw [Rows.lastFiled?_append, Option.or_self]

theorem reaches_measure_collect (hm : Registered ref m j) (hmeasures : m.Measures j.analysis)
    (rs : Results) {t : Job} (ht : Calculated ref (m.fanRows j.analysis) j t ∨ t = j) :
    Reaches (do measure ref rs; collectMetric ref) t
      fun _ t' => Calculated ref (m.fanRows j.analysis) j t' := by
  obtain ⟨es, hfiled⟩ : ∃ es, Filed ref es j t := by
    rcases ht with ht | rfl
    · exact ⟨_, ht.filed⟩
    · exact ⟨[], .nothing rfl (fun _ => rfl) rfl⟩
  obtain ⟨m', hm', hgauge⟩ := hfiled.exists_registered hm
  refine .bind (reaches_measure hm' (hmeasures.congr hgauge hfiled.graphs) rs) fun _ t₁ ht₁ => ?_
  rw [Metric.fanRows_congr hgauge hfiled.graphs] at ht₁
  have hagain : Filed ref (m.fanRows j.analysis) j t₁ := by
    rcases ht with ht | rfl
    · exact ht.again ht₁
    · exact ht₁
  obtain ⟨m₁, hm₁, -⟩ := hagain.exists_registered hm
  exact (reaches_collectMetric hm₁).imp fun _ _ h => ⟨hagain.then_nothing h.1, h.2⟩

/-- A metric is calculated once or twice, which makes no difference. -/
theorem reaches_calculateMetric (hm : Registered ref m j) (hmeasures : m.Measures j.analysis) :
    Reaches (calculateMetric ref) j fun _ j' => Calculated ref (m.fanRows j.analysis) j j' := by
  -- Until its own scope has come, the metric may have been passed over.
  have hscopes : Reaches ([ScanScope.entities, .files].forM fun scope => do
      let a ← analysis
      if a.hasMetric scope ref.name then
        measure ref (a.resultsOf scope)
        collectMetric ref) j fun _ t => Calculated ref (m.fanRows j.analysis) j t ∨
          t = j ∧ ref.scope ∉ [ScanScope.entities, .files] := by
    refine .forM (I := fun done t => Calculated ref (m.fanRows j.analysis) j t ∨ t = j ∧
      ref.scope ∉ done) []
      (.inr ⟨rfl, by simp⟩) ?_ rfl
    intro done scope rest t _ ht
    refine .bind (Q := fun a t' => a = t.analysis ∧ t' = t) ⟨_, _, rfl, rfl, rfl⟩ ?_
    rintro _ _ ⟨rfl, rfl⟩
    rename_i t
    split
    · exact (reaches_measure_collect hm hmeasures _ (ht.imp_right And.left)).imp fun _ _ h => .inl h
    · next hnot =>
      refine ⟨(), t, rfl, ht.imp_right ?_⟩
      rintro ⟨rfl, hscope⟩
      have hne : ref.scope ≠ scope := by
        rintro rfl
        apply hnot
        rw [hm.name, Analysis.hasMetric_eq, ← hm.name, hm.metric]
        rfl
      exact ⟨rfl, by simp [hscope, hne]⟩
  refine .bind (Q := fun _ t => t = j) ⟨_, _, rfl, rfl⟩ ?_
  rintro start _ rfl
  refine .bind hscopes fun _ t ht => ?_
  have ht : Calculated ref (m.fanRows _) _ t :=
    ht.resolve_right fun h => h.2 (by cases ref.scope <;> simp)
  refine ⟨(), _, rfl, ht.filed.then_nothing (.nothing rfl (fun _ => rfl) rfl), fun m' hm' => ?_⟩
  exact ht.collected m' ⟨hm'.metric, hm'.name⟩

end Work

/-! ### All metrics of graphs -/

namespace Analysis

variable {a : Analysis} {ref : MetricRef}

def refsOf (a : Analysis) (graph : Bool) (scope : ScanScope) : List MetricRef :=
  ((a.metrics scope).entries.filter fun (_, m) => m.kind.isGraph == graph).map fun (name, _) =>
    ⟨scope, name⟩

def refs (a : Analysis) (graph : Bool) : List MetricRef :=
  [ScanScope.files, .entities].flatMap (a.refsOf graph)

variable {graph : Bool}

theorem mem_refsOf {scope : ScanScope} :
    ref ∈ a.refsOf graph scope ↔ ref.scope = scope ∧ ∃ m, a.metric? ref = some m ∧
      m.kind.isGraph = graph := by
  obtain ⟨scope', name⟩ := ref
  simp only [refsOf, List.mem_map, List.mem_filter, Prod.exists, beq_iff_eq, MetricRef.mk.injEq,
    metric?, OrderedMap.get?_eq_some_iff]
  constructor
  · rintro ⟨_, m, ⟨hmem, hgraph⟩, rfl, rfl⟩
    exact ⟨rfl, m, hmem, hgraph⟩
  · rintro ⟨rfl, m, hmem, hgraph⟩
    exact ⟨name, m, ⟨hmem, hgraph⟩, rfl, rfl⟩

theorem mem_refs : ref ∈ a.refs graph ↔ ∃ m, a.metric? ref = some m ∧ m.kind.isGraph = graph := by
  have hscope : ref.scope ∈ [ScanScope.files, .entities] := by cases ref.scope <;> simp
  rw [refs, List.mem_flatMap]
  constructor
  · rintro ⟨scope, -, hmem⟩
    exact (mem_refsOf.mp hmem).2
  · intro h
    exact ⟨ref.scope, hscope, mem_refsOf.mpr ⟨rfl, h⟩⟩

theorem nodup_refsOf (a : Analysis) (graph : Bool) (scope : ScanScope) :
    (a.refsOf graph scope).Nodup := by
  have hkeys := (a.metrics scope).nodup.sublist
    ((List.filter_sublist (p := fun e => e.2.kind.isGraph == graph)).map _)
  have hmap := hkeys.map (f := MetricRef.mk scope) fun _ _ heq => (MetricRef.mk.inj heq).2
  rwa [List.map_map] at hmap

theorem nodup_refs (a : Analysis) (graph : Bool) : (a.refs graph).Nodup := by
  rw [refs, List.flatMap_cons, List.flatMap_singleton]
  refine (a.nodup_refsOf graph .files).append (a.nodup_refsOf graph .entities) fun ref hf he => ?_
  cases (mem_refsOf.mp hf).1.symm.trans (mem_refsOf.mp he).1

def fanRows (a : Analysis) (ref : MetricRef) : List (String × List (String × Value)) :=
  (a.metric? ref).elim [] fun m => m.fanRows a

/-- The metrics of graphs are registered under their names, have no rows yet and can measure what
they look at. -/
structure Prepared (a : Analysis) : Prop where
  name : ∀ ref m, a.metric? ref = some m → m.kind.isGraph = true → ref.name = m.kind.name
  rows : ∀ ref m, a.metric? ref = some m → m.kind.isGraph = true → m.rows = ∅
  measures : ∀ ref m, a.metric? ref = some m → m.kind.isGraph = true → m.Measures a

end Analysis

namespace Work

variable {j : Job} {done : List MetricRef}

/-- Some of the metrics of graphs have been calculated, the others are as they were. -/
structure Measured (j : Job) (done : List MetricRef) (t : Job) : Prop where
  graphs : t.analysis.graphs = j.analysis.graphs
  metrics : ∀ r ∉ done, t.analysis.metric? r = j.analysis.metric? r
  figures : ∀ n, ∀ k ∈ keys, t.analysis.rows.figure? n k =
    (Rows.lastFiled? (done.flatMap j.analysis.fanRows) n k).or (j.analysis.rows.figure? n k)

theorem Measured.congr {t t' : Job} (h : Measured j done t) (heq : t'.analysis = t.analysis) :
    Measured j done t' :=
  ⟨heq ▸ h.graphs, heq ▸ h.metrics, heq ▸ h.figures⟩

theorem Measured.step (h : j.analysis.Prepared) {t : Job} (ht : Measured j done t)
    {ref : MetricRef} (hnew : ref ∉ done) {m : Metric} (hmetric : j.analysis.metric? ref = some m)
    (hgraph : m.kind.isGraph = true) :
    Registered ref m t ∧ Reaches (calculateMetric ref) t
      fun _ t' => Measured j (done ++ [ref]) t' := by
  have hm : Registered ref m t := ⟨(ht.metrics ref hnew).trans hmetric, h.name ref m hmetric hgraph⟩
  have hmeasures := (h.measures ref m hmetric hgraph).congr rfl ht.graphs
  refine ⟨hm, (reaches_calculateMetric hm hmeasures).imp fun _ t' ht' =>
    ⟨ht'.filed.graphs.trans ht.graphs, ?_, ?_⟩⟩
  · intro r hr
    rw [List.mem_append, not_or, List.mem_singleton] at hr
    exact (ht'.filed.others r hr.2).trans (ht.metrics r hr.1)
  · intro n k hk
    obtain ⟨m', hm', -, hfigure⟩ := ht'.filed.filed m hm
    have hempty : m.rows.get? n = none := by rw [h.rows ref m hmetric hgraph]; rfl
    have hrows : j.analysis.fanRows ref = m.fanRows t.analysis := by
      rw [Analysis.fanRows, hmetric]
      exact Metric.fanRows_congr rfl ht.graphs.symm
    rw [ht'.collected m' hm', hfigure n k hk, Metric.figure?_of_none hempty, ht.figures n k hk,
      List.flatMap_append, List.flatMap_singleton, hrows, Rows.lastFiled?_append, Option.or_assoc]

theorem reaches_calculateGraphMetrics (h : j.analysis.Prepared) :
    Reaches calculateGraphMetrics j fun _ j' => Measured j (j.analysis.refs true) j' := by
  have hloop {t : Job} (ht : t.analysis = j.analysis) :
    Reaches ((j.analysis.refs true).forM fun ref => do
      log .analysis .info ("calculating " ++ "graph" ++ " metric results for: " ++
        (← metricAt ref).kind.pretty)
      calculateMetric ref) t fun _ t' => Measured j (j.analysis.refs true) t' := by
    refine .forM (I := Measured j) [] (.congr ⟨rfl, fun _ _ => rfl, fun _ _ _ => rfl⟩ ht) ?_ rfl
    intro done ref rest t hrefs ht
    have hnew : ref ∉ done := fun hmem =>
      (List.nodup_append.mp (hrefs ▸ j.analysis.nodup_refs true)).2.2 ref hmem ref
        List.mem_cons_self rfl
    obtain ⟨m, hmetric, hgraph⟩ :=
      Analysis.mem_refs.mp (hrefs ▸ by simp : ref ∈ j.analysis.refs true)
    have hm := (ht.step h hnew hmetric hgraph).1
    refine .bind (Q := fun _ t' => t' = t) ⟨_, _, metricAt_of_metric? hm.metric, rfl⟩ ?_
    rintro _ _ rfl
    refine .bind (Q := fun _ t' => Measured j done t') ⟨(), _, rfl, ht.congr rfl⟩ fun _ t₁ ht₁ => ?_
    exact (ht₁.step h hnew hmetric hgraph).2
  refine .bind (Q := fun _ t => t.analysis = j.analysis) ⟨_, _, rfl, rfl⟩ fun _ t₀ ht₀ => ?_
  refine .bind (Q := fun _ t => t.analysis = j.analysis) ⟨(), _, rfl, ht₀⟩ fun _ t₁ ht₁ => ?_
  refine .bind (Q := fun refs t => refs = j.analysis.refs true ∧ t.analysis = j.analysis)
    ⟨t₁.analysis.refs true, t₁, rfl, by rw [ht₁], ht₁⟩ ?_
  rintro _ t₂ ⟨rfl, ht₂⟩
  refine .bind (hloop ht₂) fun _ t₃ ht₃ => ?_
  exact ⟨(), _, rfl, ht₃.congr rfl⟩

end Work

end CodeAtlas
