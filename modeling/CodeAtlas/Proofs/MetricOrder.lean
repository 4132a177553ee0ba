import CodeAtlas.Proofs.SideBySide

/-!
# Metrics in another order

Each metric owns the figures of its kind, and the calculation of another metric changes nothing that
it knows (`Work.independent`). So when the metrics of an analysis are registered in another order,
the same figures come out: `Work.calculateMetrics_alike`.
-/

namespace CodeAtlas

open Effect MetricKind

/-! ### Rows up to their order -/

/-- The same rows with the same figures, in whatever order. -/
def Rows.Alike (rows rows' : Rows) : Prop :=
  ∀ n, Option.Rel OrderedMap.Alike (rows.get? n) (rows'.get? n)

theorem Rows.alike_iff {rows rows' : Rows} : rows.Alike rows' ↔
    (∀ n, (rows'.get? n).isSome = (rows.get? n).isSome) ∧
    ∀ n k, rows'.figure? n k = rows.figure? n k := by
  constructor
  · intro h
    refine ⟨fun n => ?_, fun n k => ?_⟩
    · have hn := h n
      generalize rows.get? n = row, rows'.get? n = row' at hn ⊢
      cases hn with
      | none => rfl
      | some _ => rfl
    · have hn := h n
      rw [figure?, figure?]
      generalize rows.get? n = row, rows'.get? n = row' at hn ⊢
      cases hn with
      | none => rfl
      | some hrow => exact hrow k
  · rintro ⟨hnames, hfigures⟩ n
    have hname := hnames n
    have hfigure := hfigures n
    simp only [figure?] at hfigure
    generalize rows.get? n = row, rows'.get? n = row' at hname hfigure ⊢
    cases row with
    | none =>
      obtain rfl : row' = none := Option.not_isSome_iff_eq_none.mp (by simp [hname])
      exact .none
    | some row =>
      obtain ⟨row', rfl⟩ := Option.isSome_iff_exists.mp hname
      exact .some hfigure

theorem Rows.Alike.refl (rows : Rows) : rows.Alike rows :=
  Rows.alike_iff.mpr ⟨fun _ => rfl, fun _ _ => rfl⟩

/-! ### What a metric knows -/

def Job.tells (j : Job) (ref : MetricRef) (n : String) : Bool :=
  (j.analysis.metric? ref).any fun m => (m.rows.get? n).isSome

theorem Job.tells_congr {j j' : Job} {ref : MetricRef}
    (h : j'.analysis.metric? ref = j.analysis.metric? ref) (n : String) :
    j'.tells ref n = j.tells ref n := by
  rw [tells, tells, h]

theorem Job.tells_of_metric? {j : Job} {ref : MetricRef} {m : Metric}
    (h : j.analysis.metric? ref = some m) (n : String) :
    j.tells ref n = (m.rows.get? n).isSome := by
  rw [tells, h]
  rfl

namespace Work

variable {ref : MetricRef} {c c' j j' t : Job} {m : Metric}

/-- What metrics of some name know of two analyses, while some of them are still to be
calculated. -/
structure Alongside (name : String) (pending : List MetricRef) (j j' : Job) : Prop where
  agree : Job.Agree j j'
  nodup : pending.Nodup
  ofName : ∀ ref ∈ pending, ref.name = name
  fresh : ∀ ref ∈ pending, ∃ m, m.Fresh ∧ ref.name = m.kind.name ∧ j.analysis.metric? ref = some m ∧
    j'.analysis.metric? ref = some m
  tells : ∀ ref, ref.name = name → ∀ n, j'.tells ref n = j.tells ref n
  rows : ∀ n k, (ofFigure k).name = name →
    j'.analysis.rows.figure? n k = j.analysis.rows.figure? n k
  overall : ∀ k, (ofFigure k).name = name → j'.analysis.overall.get? k = j.analysis.overall.get? k

namespace Alongside

variable {name : String} {pending : List MetricRef} {j'' : Job}

theorem symm (h : Alongside name pending j j') : Alongside name pending j' j where
  agree := h.agree.symm
  nodup := h.nodup
  ofName := h.ofName
  fresh ref href := by
    obtain ⟨m, hfresh, hname, hm, hm'⟩ := h.fresh ref href
    exact ⟨m, hfresh, hname, hm', hm⟩
  tells ref href n := (h.tells ref href n).symm
  rows n k hk := (h.rows n k hk).symm
  overall k hk := (h.overall k hk).symm

theorem trans (h : Alongside name pending j j') (h' : Alongside name pending j' j'') :
    Alongside name pending j j'' where
  agree := h.agree.trans h'.agree
  nodup := h.nodup
  ofName := h.ofName
  fresh ref href := by
    obtain ⟨m, hfresh, hname, hm, hm'⟩ := h.fresh ref href
    obtain ⟨m₁, -, -, hm₁, hm₁'⟩ := h'.fresh ref href
    obtain rfl := Option.some.inj (hm'.symm.trans hm₁)
    exact ⟨m, hfresh, hname, hm, hm₁'⟩
  tells ref href n := (h'.tells ref href n).trans (h.tells ref href n)
  rows n k hk := (h'.rows n k hk).trans (h.rows n k hk)
  overall k hk := (h'.overall k hk).trans (h.overall k hk)

end Alongside

/-! ### One metric -/

def calculateAt (what : String) (ref : MetricRef) : Work Unit := do
  log .analysis .info ("calculating " ++ what ++ " metric results for: " ++
    (← metricAt ref).kind.pretty)
  calculateMetric ref

theorem settled_of_fresh (hfresh : m.Fresh) (hm : c.analysis.metric? ref = some m)
    (hm' : c'.analysis.metric? ref = some m) (hrows : ∀ n k, ofFigure k = m.kind →
      c'.analysis.rows.figure? n k = c.analysis.rows.figure? n k)
    (hoverall : ∀ k, ofFigure k = m.kind → c'.analysis.overall.get? k = c.analysis.overall.get? k) :
    Settled ref m.kind c c' c c' := by
  have hnone : ∀ n, m.rows.get? n = none := by
    intro n
    rw [hfresh.rows]
    rfl
  have hframed : ∀ j : Job, j.analysis.metric? ref = some m → Framed ref m.kind j m j := fun j hj =>
    ⟨rfl, hj, fun _ _ => rfl, hfresh.filing _, fun _ _ => rfl⟩
  have htied : m.Tied m.kind c.analysis.rows m c'.analysis.rows := by
    refine ⟨rfl, rfl, fun _ => rfl, fun n k hk => ?_, fun _ => hrows⟩
    rw [Metric.figure?_of_none (hnone n), Metric.figure?_of_none (hnone n), hrows n k hk]
  refine ⟨m, m, ⟨hframed c hm, hframed c' hm', htied, hoverall⟩, hrows, fun n hn => ?_,
    fun n hn => ?_⟩
  · simp [hnone] at hn
  · simp [hnone] at hn

theorem calculateAt_settled (what : String) (hfresh : m.Fresh) (hname : ref.name = m.kind.name)
    (hm : c.analysis.metric? ref = some m) (hm' : c'.analysis.metric? ref = some m)
    (hagree : Job.Agree c c') (hrows : ∀ n k, ofFigure k = m.kind →
      c'.analysis.rows.figure? n k = c.analysis.rows.figure? n k)
    (hoverall : ∀ k, ofFigure k = m.kind → c'.analysis.overall.get? k = c.analysis.overall.get? k)
    (hok : calculateAt what ref c = .ok () j) :
    Setting ref m.kind c c' ∧ ∃ j', calculateAt what ref c' = .ok () j' ∧
      Settled ref m.kind c c' j j' := by
  have hs : Setting ref m.kind c c' := ⟨hname, by rw [hm, Option.map_some], hagree⟩
  refine ⟨hs, ?_⟩
  rw [calculateAt, bind_of_ok (metricAt_of_metric? hm)] at hok
  rw [calculateAt, bind_of_ok (metricAt_of_metric? hm')]
  have hlog (message : String) : Follows (Settled ref m.kind c c') (Settled ref m.kind c c')
      (log .analysis .info message) (log .analysis .info message) :=
    Steady.follows_settled ⟨fun _ => rfl, fun _ _ => rfl, fun _ => rfl, fun _ => rfl⟩
  refine Follows.bind (hlog _) (fun _ => follows_calculateMetric hs) c c' ?_ () j hok
  exact settled_of_fresh hfresh hm hm' hrows hoverall

variable {what : String}

theorem framed_of_calculateAt (hfresh : m.Fresh) (hname : ref.name = m.kind.name)
    (hm : c.analysis.metric? ref = some m) (hok : calculateAt what ref c = .ok () j) :
    ∃ m', Framed ref m.kind c m' j ∧ ∀ n, (m'.rows.get? n).isSome →
      (j.analysis.rows.get? n).isSome := by
  have hagree : Job.Agree c c := ⟨rfl, rfl, rfl, .refl _, fun _ => rfl⟩
  obtain ⟨-, _, -, m', _, hpaired, -, hnames, -⟩ :=
    calculateAt_settled what hfresh hname hm hm hagree (fun _ _ _ => rfl) (fun _ _ => rfl) hok
  exact ⟨m', hpaired.left, hnames⟩

theorem Alongside.own (what : String) (ref : MetricRef) (pending : List MetricRef) :
    Follows (Alongside ref.name (ref :: pending)) (Alongside ref.name pending)
      (calculateAt what ref) (calculateAt what ref) := by
  intro j j' h _ t hok
  obtain ⟨m, hfresh, hname, hm, hm'⟩ := h.fresh ref List.mem_cons_self
  have hkind : ∀ k, (ofFigure k).name = ref.name ↔ ofFigure k = m.kind := by
    intro k
    rw [hname]
    exact name_injective.eq_iff
  obtain ⟨hs, t', hok', m₁, m₁', hpaired, hfigures, -⟩ :=
    calculateAt_settled what hfresh hname hm hm' h.agree
    (fun n k hk => h.rows n k ((hkind k).mpr hk)) (fun k hk => h.overall k ((hkind k).mpr hk)) hok
  obtain ⟨hnew, hnodup⟩ := List.nodup_cons.mp h.nodup
  refine ⟨t', hok', hs.agree_of_paired hpaired, hnodup,
    fun r hr => h.ofName r (List.mem_cons_of_mem _ hr), fun r hr => ?_, fun r hr n => ?_,
    fun n k hk => hfigures n k ((hkind k).mp hk), fun k hk => hpaired.overall k ((hkind k).mp hk)⟩
  · have hne : r ≠ ref := fun heq => hnew (heq ▸ hr)
    obtain ⟨m₂, hfresh₂, hname₂, hm₂, hm₂'⟩ := h.fresh r (List.mem_cons_of_mem _ hr)
    exact ⟨m₂, hfresh₂, hname₂, (hpaired.left.others r hne).trans hm₂,
      (hpaired.right.others r hne).trans hm₂'⟩
  · by_cases hne : r = ref
    · subst hne
      rw [Job.tells_of_metric? hpaired.left.metric, Job.tells_of_metric? hpaired.right.metric,
        hpaired.tied.names]
    · rw [Job.tells_congr (hpaired.left.others r hne), Job.tells_congr (hpaired.right.others r hne),
        h.tells r hr]

theorem Alongside.other {what name : String} {pending : List MetricRef} {xs : List MetricRef}
    {u : Job} (hne : ref.name ≠ name) (hown : Alongside ref.name (ref :: xs) j u)
    (h : Alongside name pending j j') (hok : calculateAt what ref j = .ok () t) :
    Alongside name pending t j' := by
  obtain ⟨m, hfresh, hname, hm, -⟩ := hown.fresh ref List.mem_cons_self
  obtain ⟨m', hframed, -⟩ := framed_of_calculateAt hfresh hname hm hok
  have hkind : ∀ k, (ofFigure k).name = name → ofFigure k ≠ m.kind := by
    rintro k rfl heq
    exact hne (hname.trans (congrArg MetricKind.name heq.symm))
  have hother : ∀ r : MetricRef, r.name = name → r ≠ ref := by
    rintro r hr rfl
    exact hne hr
  refine ⟨(hframed.agree (by rw [hm, Option.map_some])).symm.trans h.agree, h.nodup, h.ofName,
    fun r hr => ?_, fun r hr n => ?_, fun n k hk => ?_, fun k hk => ?_⟩
  · obtain ⟨m₁, hfresh₁, hname₁, hm₁, hm₁'⟩ := h.fresh r hr
    exact ⟨m₁, hfresh₁, hname₁, (hframed.others r (hother r (h.ofName r hr))).trans hm₁, hm₁'⟩
  · rw [Job.tells_congr (hframed.others r (hother r hr)), h.tells r hr]
  · rw [h.rows n k hk, (hframed.filing.others n k (hkind k hk)).1]
  · rw [h.overall k hk, hframed.overall k (hkind k hk)]

theorem independent (what : String) : Independent MetricRef.name (calculateAt what) Alongside where
  own := Alongside.own what
  other _ _ _ _ _ _ _ _ hne hown h hok := Alongside.other hne hown h hok
  symm _ _ _ _ h := h.symm
  trans _ _ _ _ _ h h' := h.trans h'

/-! ### All metrics -/

/-- Some metrics have been calculated. The others are as they were, and the rows of the analysis are
those that it had and those of the calculated ones. -/
structure Undisturbed (c : Job) (done : List MetricRef) (j : Job) : Prop where
  metrics : ∀ r ∉ done, j.analysis.metric? r = c.analysis.metric? r
  names : ∀ n, (j.analysis.rows.get? n).isSome ↔
    (c.analysis.rows.get? n).isSome ∨ ∃ r ∈ done, j.tells r n = true

theorem Undisturbed.step {done : List MetricRef} (h : Undisturbed c done j) (hnew : ref ∉ done)
    (hfresh : m.Fresh) (hname : ref.name = m.kind.name) (hm : c.analysis.metric? ref = some m)
    (hok : calculateAt what ref j = .ok () t) : Undisturbed c (done ++ [ref]) t := by
  obtain ⟨m', hframed, hnames⟩ :=
    framed_of_calculateAt hfresh hname ((h.metrics ref hnew).trans hm) hok
  refine ⟨fun r hr => ?_, fun n => ?_⟩
  · rw [List.mem_append, not_or, List.mem_singleton] at hr
    exact (hframed.others r hr.2).trans (h.metrics r hr.1)
  · have hold : ∀ r ∈ done, t.tells r n = j.tells r n := fun r hr =>
      Job.tells_congr (hframed.others r fun heq => hnew (heq ▸ hr)) n
    have hown : t.tells ref n = (m'.rows.get? n).isSome := Job.tells_of_metric? hframed.metric n
    constructor
    · intro hn
      rcases hframed.filing.names n hn with hn | hn
      · refine ((h.names n).mp hn).imp_right ?_
        rintro ⟨r, hr, htells⟩
        exact ⟨r, List.mem_append_left _ hr, (hold r hr).trans htells⟩
      · exact .inr ⟨ref, by simp, hown.trans hn⟩
    · rintro (hn | ⟨r, hr, htells⟩)
      · exact hframed.filing.kept n ((h.names n).mpr (.inl hn))
      · rcases List.mem_append.mp hr with hr | hr
        · exact hframed.filing.kept n
            ((h.names n).mpr (.inr ⟨r, hr, (hold r hr).symm.trans htells⟩))
        · obtain rfl := List.mem_singleton.mp hr
          exact hnames n (hown.symm.trans htells)

theorem undisturbed_of_forM {refs : List MetricRef} (hnodup : refs.Nodup)
    (hfresh : ∀ ref ∈ refs, ∃ m, m.Fresh ∧ ref.name = m.kind.name ∧ c.analysis.metric? ref = some m)
    (hok : refs.forM (calculateAt what) c = .ok () t) : Undisturbed c refs t := by
  have hall : ∀ (rest done : List MetricRef) (j : Job), done ++ rest = refs → Undisturbed c done j →
      rest.forM (calculateAt what) j = .ok () t → Undisturbed c refs t := by
    intro rest
    induction rest with
    | nil =>
      intro done j hdone hj hok
      obtain ⟨-, rfl⟩ := EStateM.Result.ok.inj hok
      rw [List.append_nil] at hdone
      exact hdone ▸ hj
    | cons ref rest ih =>
      intro done j hdone hj hok
      obtain ⟨⟨⟩, j₁, hstep, hok⟩ := bind_eq_ok.mp hok
      have hnew : ref ∉ done := fun hmem =>
        (List.nodup_append.mp (hdone ▸ hnodup)).2.2 ref hmem ref List.mem_cons_self rfl
      obtain ⟨m, hm, hname, hmetric⟩ := hfresh ref (hdone ▸ by simp)
      exact ih (done ++ [ref]) j₁ (by simp [hdone]) (hj.step hnew hm hname hmetric hstep) hok
  exact hall refs [] c rfl ⟨fun _ _ => rfl, by simp⟩ hok

end Work

/-- Two jobs that differ in the log, in the order in which things are registered and in that of
their figures. -/
structure Job.Alike (j j' : Job) : Prop where
  agree : Job.Agree j j'
  tells : ∀ ref n, j'.tells ref n = j.tells ref n
  rows : j.analysis.rows.Alike j'.analysis.rows
  overall : j.analysis.overall.Alike j'.analysis.overall

/-- Within a scope there is at most one metric of a name, so the order of the others does not
matter. -/
theorem Analysis.steps_refs {a a' : Analysis}
    (h : ∀ ref, (a'.metric? ref).map Metric.kind = (a.metric? ref).map Metric.kind) (graph : Bool)
    (name : String) :
    Independent.steps MetricRef.name name (a.refs graph) =
      Independent.steps MetricRef.name name (a'.refs graph) := by
  have hmem : ∀ scope ref, ref ∈ a.refsOf graph scope ↔ ref ∈ a'.refsOf graph scope := by
    intro scope ref
    have hkind : ∀ b : Analysis, (∃ m, b.metric? ref = some m ∧ m.kind.isGraph = graph) ↔
        ∃ kind, (b.metric? ref).map Metric.kind = some kind ∧ kind.isGraph = graph := by
      intro b
      simp only [Option.map_eq_some_iff]
      exact ⟨fun ⟨m, hm, hgraph⟩ => ⟨_, ⟨m, hm, rfl⟩, hgraph⟩,
        fun ⟨_, ⟨m, hm, rfl⟩, hgraph⟩ => ⟨m, hm, hgraph⟩⟩
    rw [mem_refsOf, mem_refsOf, hkind, hkind, h ref]
  have hscope : ∀ scope, Independent.steps MetricRef.name name (a.refsOf graph scope) =
      Independent.steps MetricRef.name name (a'.refsOf graph scope) := by
    intro scope
    have hperm : (a.refsOf graph scope).Perm (a'.refsOf graph scope) :=
      (List.perm_ext_iff_of_nodup (a.nodup_refsOf graph scope) (a'.nodup_refsOf graph scope)).mpr
        (hmem scope)
    have hsingle : ∀ b : Analysis,
        ∀ ref ∈ Independent.steps MetricRef.name name (b.refsOf graph scope),
          ref = ⟨scope, name⟩ := by
      rintro b ⟨scope', name'⟩ hsteps
      obtain ⟨hsteps, hname⟩ := List.mem_filter.mp hsteps
      obtain rfl : scope' = scope := (mem_refsOf.mp hsteps).1
      obtain rfl : name' = name := of_decide_eq_true hname
      rfl
    have hreplicate := List.eq_replicate_of_mem (hsingle a')
    rw [hreplicate]
    exact List.perm_replicate.mp (hreplicate ▸ hperm.filter _)
  have hrefs : ∀ b : Analysis, b.refs graph =
      b.refsOf graph .files ++ b.refsOf graph .entities := by
    intro b
    rw [refs, List.flatMap_cons, List.flatMap_singleton]
  rw [hrefs, hrefs, Independent.steps, Independent.steps, List.filter_append, List.filter_append]
  exact congrArg₂ _ (hscope .files) (hscope .entities)

namespace Work

variable {j j' t : Job}

def noted (j : Job) (kind : LogKind) (message : String) : Job :=
  { j with session := { j.session with log := j.session.log.write .analysis kind message } }

def whatOf (graph : Bool) : String := if graph then "graph" else "code"

def opened (graph : Bool) (j : Job) : Job :=
  noted j .start ("starting " ++ whatOf graph ++ " metric calculation for analysis " ++
    j.analysis.settings.name.display)

def closed (graph : Bool) (j : Job) : Job :=
  noted j .done ("done calculating " ++ whatOf graph ++ " metric results")

variable {graph : Bool}

theorem calculateMetrics_eq_ok_iff : calculateMetrics graph j = .ok () t ↔ ∃ j₁,
    (j.analysis.refs graph).forM (calculateAt (whatOf graph)) (opened graph j) = .ok () j₁ ∧
    t = closed graph j₁ := by
  have heq : calculateMetrics graph j =
      ((j.analysis.refs graph).forM (calculateAt (whatOf graph)) >>= fun _ =>
      log .analysis .done ("done calculating " ++ whatOf graph ++ " metric results"))
        (opened graph j) := rfl
  rw [heq, bind_eq_ok]
  constructor
  · rintro ⟨⟨⟩, j₁, hrun, hlog⟩
    exact ⟨j₁, hrun, (EStateM.Result.ok.inj hlog).2.symm⟩
  · rintro ⟨j₁, hrun, rfl⟩
    exact ⟨(), j₁, hrun, rfl⟩

/-- The metrics of a kind that are to be calculated are registered under their names and have
nothing to tell yet, and they are the same in both analyses. -/
def Untold (graph : Bool) (j j' : Job) : Prop :=
  ∀ ref ∈ j.analysis.refs graph, ∃ m, m.Fresh ∧ ref.name = m.kind.name ∧
    j.analysis.metric? ref = some m ∧
    j'.analysis.metric? ref = some m

theorem alongside_opened (h : Job.Alike j j') (hfresh : Untold graph j j') (name : String) :
    Alongside name (Independent.steps MetricRef.name name (j.analysis.refs graph)) (opened graph j)
      (opened graph j') where
  agree := ⟨h.agree.session, h.agree.settings, h.agree.results, h.agree.graphs, h.agree.kinds⟩
  nodup := (j.analysis.nodup_refs graph).filter _
  ofName _ href := of_decide_eq_true (List.mem_filter.mp href).2
  fresh ref href := hfresh ref (List.mem_filter.mp href).1
  tells ref _ := h.tells ref
  rows n k _ := (Rows.alike_iff.mp h.rows).2 n k
  overall k _ := h.overall k

theorem calculateMetrics_alike (h : Job.Alike j j') (hfresh : Untold graph j j')
    (hok : calculateMetrics graph j = .ok () t) :
    ∃ t', calculateMetrics graph j' = .ok () t' ∧ Job.Alike t t' ∧ ∀ r ∉ j.analysis.refs graph,
      t.analysis.metric? r = j.analysis.metric? r ∧
      t'.analysis.metric? r = j'.analysis.metric? r := by
  obtain ⟨t₁, hrun, rfl⟩ := calculateMetrics_eq_ok_iff.mp hok
  have hsteps := Analysis.steps_refs h.agree.kinds graph
  have hsame : ∀ ref, ref ∈ j.analysis.refs graph ↔ ref ∈ j'.analysis.refs graph := by
    intro ref
    have hmem := congrArg (ref ∈ ·) (hsteps ref.name)
    simpa [Independent.steps, List.mem_filter] using hmem
  obtain ⟨t₁', hrun', hend⟩ :=
    (independent (whatOf graph)).forM hsteps (alongside_opened h hfresh) hrun
  have hleft : Undisturbed (opened graph j) (j.analysis.refs graph) t₁ := by
    refine undisturbed_of_forM (j.analysis.nodup_refs graph) (fun ref href => ?_) hrun
    obtain ⟨m, hm, hname, hmetric, -⟩ := hfresh ref href
    exact ⟨m, hm, hname, hmetric⟩
  have hright : Undisturbed (opened graph j') (j'.analysis.refs graph) t₁' := by
    refine undisturbed_of_forM (j'.analysis.nodup_refs graph) (fun ref href => ?_) hrun'
    obtain ⟨m, hm, hname, -, hmetric⟩ := hfresh ref ((hsame ref).mpr href)
    exact ⟨m, hm, hname, hmetric⟩
  have htells : ∀ ref n, t₁'.tells ref n = t₁.tells ref n :=
    fun ref => (hend ref.name).tells ref rfl
  have hnames : ∀ n, (t₁'.analysis.rows.get? n).isSome ↔ (t₁.analysis.rows.get? n).isSome := by
    intro n
    have hbefore : ((opened graph j').analysis.rows.get? n).isSome =
        ((opened graph j).analysis.rows.get? n).isSome :=
      (Rows.alike_iff.mp h.rows).1 n
    rw [hleft.names, hright.names, hbefore]
    simp only [hsame, htells]
  refine ⟨closed graph t₁', calculateMetrics_eq_ok_iff.mpr ⟨t₁', hrun', rfl⟩,
    ⟨?_, htells, Rows.alike_iff.mpr ⟨?_, ?_⟩, ?_⟩, ?_⟩
  · have hagree := (hend "").agree
    exact ⟨hagree.session, hagree.settings, hagree.results, hagree.graphs, hagree.kinds⟩
  · exact fun n => Bool.eq_iff_iff.mpr (hnames n)
  · exact fun n k => (hend (ofFigure k).name).rows n k rfl
  · exact fun k => (hend (ofFigure k).name).overall k rfl
  · exact fun r hr => ⟨hleft.metrics r hr, hright.metrics r (mt (hsame r).mpr hr)⟩

end Work

end CodeAtlas
