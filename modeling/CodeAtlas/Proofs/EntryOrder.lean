import CodeAtlas.Program.Load
import CodeAtlas.Proofs.Entries
import CodeAtlas.Proofs.GraphOrder
import CodeAtlas.Proofs.ImportGraph

/-!
# The order of what is to be scanned for

Analyses that differ in the order in which their metrics and graphs were registered go through the
same scan and come to the same findings (`Run.compute_rearranged`). So it does not matter in which
order a document lists what is to be scanned for, as long as metrics of graphs find the same graphs
in front of them (`Run.applyDocument_reordered`). That they do is not a matter of course: a metric
of graphs in front of its graph measures nothing (`Sample.computed_fanFirst`).
-/

namespace CodeAtlas

open Effect CodeAtlas.Configuration

/-! ### Building the graph of the file system -/

namespace Work

variable {s : Session} {a a' : Analysis} {j : Job}

theorem checkSource_rearranged (h : a.Rearranged a') (hok : checkSource ⟨s, a⟩ = .ok () ⟨s, a⟩) :
    checkSource ⟨s, a'⟩ = .ok () ⟨s, a'⟩ := by
  obtain ⟨hnull, hdir, -⟩ := checkSource_eq_ok_iff.mp hok
  refine checkSource_eq_ok_iff.mpr ⟨?_, ?_, rfl⟩
  · exact (congrArg (fun t : Settings => t.source.isNull) h.settings).trans hnull
  · exact (congrArg (fun t : Settings => s.disk.holdsDir t.source) h.settings).trans hdir

theorem buildFileSystem_rearranged (h : a.Rearranged a') (hok : buildFileSystem ⟨s, a⟩ = .ok () j) :
    ∃ b', buildFileSystem ⟨s, a'⟩ = .ok () ⟨j.session, b'⟩ ∧ j.analysis.Rearranged b' := by
  obtain ⟨source, t, hsource, hwalk, rfl⟩ := buildFileSystem_eq_ok_iff.mp hok
  obtain ⟨fm, em, gs, rfl⟩ := h.exists_eq
  have hview : gs.get? .fileSystem = a.graphs.get? .fileSystem := h.graphs .fileSystem
  refine ⟨_, buildFileSystem_eq_ok_iff.mpr ⟨source, t, hsource, ?_, rfl⟩, rfl, rfl, ?_, h.metrics⟩
  · dsimp only
    rw [hview]
    exact hwalk
  · exact (h.graphs.insertNew _ _).insert _ _

end Work

/-! ### Computing -/

namespace Run

variable {p p' q : Program} {i : Nat} {a a' : Analysis}

theorem jobAfter_alike {j : Job} (h : j.analysis.Rearranged a') (d : Desk) :
    Job.Alike (jobAfter j d) (jobAfter ⟨j.session, a'⟩ d) := by
  obtain ⟨fm, em, gs, rfl⟩ := h.exists_eq
  exact ⟨⟨rfl, rfl, rfl, h.graphs, fun ref => congrArg _ (h.metrics ref)⟩,
    fun ref => Job.tells_congr (h.metrics ref), .refl _, .refl _⟩

/-- The findings for an analysis are the same in two programs, up to their order. -/
def SameFindings (i : Nat) (p p' : Program) : Prop :=
  ∃ a a', p.configuration.analyses[i]? = some a ∧ p'.configuration.analyses[i]? = some a' ∧
    a.SameFindings a'

/-- Nothing but the registered metrics and graphs goes into the findings, and not their order. -/
theorem compute_rearranged (hsession : p'.session = p.session)
    (hscanners : p'.scanners = p.scanners) (ha : p.configuration.analyses[i]? = some a)
    (ha' : p'.configuration.analyses[i]? = some a') (h : a.Rearranged a') (hnew : a.Pristine)
    (hok : compute i p = .ok () q) : ∃ q', compute i p' = .ok () q' ∧ SameFindings i q q' := by
  obtain ⟨j₁, d, j₂, hcheck, hbuild, hscan, hcalculate, rfl⟩ := (compute_eq_ok_iff ha).mp hok
  obtain ⟨b', hbuild', hb⟩ := Work.buildFileSystem_rearranged h hbuild
  obtain ⟨hkeyed, -, hmetrics⟩ := Work.other_of_buildFileSystem hnew.keyed hbuild
  have hfresh : ∀ ref m, (jobAfter j₁ d).analysis.metric? ref = some m → m.Fresh ∧
      ref.name = m.kind.name :=
    fun ref m hm => hnew.fresh ref m ((hmetrics ref).symm.trans hm)
  obtain ⟨j₂', hcalculate', hsame⟩ :=
    Work.calculateAll_alike (jobAfter_alike hb d) hkeyed hb.metrics hfresh hcalculate
  have hok' : compute i p' = .ok () { keep p' i j₂' with scanners := d.scanners } := by
    refine (compute_eq_ok_iff ha').mpr ⟨⟨j₁.session, b'⟩, d, j₂', ?_, ?_, ?_, hcalculate', rfl⟩
    · rw [hsession]
      exact Work.checkSource_rearranged h hcheck
    · rw [hsession]
      exact hbuild'
    · obtain ⟨fm, em, gs, rfl⟩ := hb.exists_eq
      dsimp only [deskAfter]
      rw [hb.graphs .fileSystem, hscanners]
      exact hscan
  exact ⟨_, hok', j₂.analysis, j₂'.analysis, getElem?_keep ha j₂, getElem?_keep ha' j₂', hsame⟩

theorem lt_of_compute (h : compute i p = .ok () q) : i < p.configuration.analyses.length := by
  obtain ⟨_, p₁, hcheck, -⟩ := bind_eq_ok.mp h
  rw [onAnalysis] at hcheck
  split at hcheck
  · cases hcheck
  · next a ha => exact (List.getElem?_eq_some_iff.mp ha).1

theorem computed_of_analyze (ha : p.configuration.analyses[i]? = some a)
    (hok : analyze i p = .ok () q) :
    ∃ q₁ b c, compute i p = .ok () q₁ ∧ q₁.configuration.analyses[i]? = some b ∧
      q.configuration.analyses[i]? = some c ∧
      c = { b with settings := c.settings, statistics := c.statistics } := by
  obtain ⟨j₁, d, j₂, j₃, hcheck, hbuild, hscan, hcalculate, hfinish, ha₃⟩ := of_analyze ha hok
  have hcompute := (compute_eq_ok_iff ha).mpr ⟨j₁, d, j₂, hcheck, hbuild, hscan, hcalculate, rfl⟩
  have hexported := Analysis.eq_of_unexported (Work.onlyExports_finish _ j₂ () j₃ rfl hfinish)
  exact ⟨_, j₂.analysis, j₃.analysis, hcompute, getElem?_keep ha j₂, ha₃, hexported⟩

/-- An analysis can be computed in both of two programs or in none, and comes to the same
findings. -/
structure SameOutcome (i : Nat) (p p' : Program) : Prop where
  ends : (∃ q, compute i p = .ok () q) ↔ ∃ q', compute i p' = .ok () q'
  computed : ∀ q q', compute i p = .ok () q → compute i p' = .ok () q' → SameFindings i q q'
  analyzed : ∀ q q', analyze i p = .ok () q → analyze i p' = .ok () q' → SameFindings i q q'

theorem sameOutcome_of_rearranged (hsession : p'.session = p.session)
    (hscanners : p'.scanners = p.scanners) (ha : p.configuration.analyses[i]? = some a)
    (ha' : p'.configuration.analyses[i]? = some a') (h : a.Rearranged a') (hnew : a.Pristine) :
    SameOutcome i p p' := by
  have hcomputed : ∀ q q', compute i p = .ok () q → compute i p' = .ok () q' →
      SameFindings i q q' := by
    intro q q' hok hok'
    obtain ⟨q'', hok'', hsame⟩ := compute_rearranged hsession hscanners ha ha' h hnew hok
    obtain ⟨-, rfl⟩ := EStateM.Result.ok.inj (hok''.symm.trans hok')
    exact hsame
  refine ⟨⟨fun ⟨q, hok⟩ => ?_, fun ⟨q', hok'⟩ => ?_⟩, hcomputed, fun q q' hok hok' => ?_⟩
  · obtain ⟨q', hok', -⟩ := compute_rearranged hsession hscanners ha ha' h hnew hok
    exact ⟨q', hok'⟩
  · obtain ⟨q, hok, -⟩ :=
      compute_rearranged hsession.symm hscanners.symm ha' ha h.symm (hnew.rearranged h) hok'
    exact ⟨q, hok⟩
  · obtain ⟨q₁, b, c, hq₁, hb, hc, heq⟩ := computed_of_analyze ha hok
    obtain ⟨q₁', b', c', hq₁', hb', hc', heq'⟩ := computed_of_analyze ha' hok'
    obtain ⟨_, _, hb₁, hb₁', hsame⟩ := hcomputed q₁ q₁' hq₁ hq₁'
    obtain rfl := Option.some.inj (hb₁.symm.trans hb)
    obtain rfl := Option.some.inj (hb₁'.symm.trans hb')
    refine ⟨c, c', hc, hc', ?_⟩
    rw [heq, heq']
    exact ⟨hsame.overall, hsame.rows, hsame.graphs⟩

end Run

/-! ### Loading -/

namespace Configuration

structure ReordersScans (document document' : Value) : Prop where
  others : ∀ name, name ≠ "analyses" → document'.at? name = document.at? name
  analyses : ∃ v v' entries entries', document.at? "analyses" = .ok v ∧
    document'.at? "analyses" = .ok v' ∧
    v.members = .ok entries ∧ v'.members = .ok entries' ∧ List.Forall₂ Reorders entries entries'

end Configuration

namespace Run

variable {p p' q : Program} {document document' : Value}

/-- Programs after documents that differ in the orders of what is to be scanned for, from the
analysis at `n` on. -/
structure Reloaded (n : Nat) (p p' : Program) : Prop where
  session : p'.session = p.session
  scanners : p'.scanners = p.scanners
  project : p'.configuration.project = p.configuration.project
  version : p'.configuration.version = p.configuration.version
  length : p'.configuration.analyses.length = p.configuration.analyses.length
  analyses : ∀ i ≥ n, ∀ a, p.configuration.analyses[i]? = some a →
    a.Pristine ∧ ∃ a', p'.configuration.analyses[i]? = some a' ∧ a.Rearranged a'

variable {n : Nat}

theorem Reloaded.add {a a' : Analysis} (h : Reloaded n p p') (ha : a.Pristine)
    (hrel : a.Rearranged a') :
    Reloaded n
      { p with configuration.analyses := p.configuration.analyses ++ [a] }
      { p' with configuration.analyses := p'.configuration.analyses ++ [a'] } where
  session := h.session
  scanners := h.scanners
  project := h.project
  version := h.version
  length := by simp [h.length]
  analyses := by
    intro i hi b hb
    dsimp only at hb ⊢
    by_cases hlt : i < p.configuration.analyses.length
    · rw [List.getElem?_append_left hlt] at hb
      rw [List.getElem?_append_left (h.length ▸ hlt)]
      exact h.analyses i hi b hb
    · rw [List.getElem?_append_right (Nat.le_of_not_lt hlt), List.getElem?_singleton] at hb
      rw [List.getElem?_append_right (h.length ▸ Nat.le_of_not_lt hlt), List.getElem?_singleton,
        h.length]
      split_ifs at hb ⊢
      obtain rfl := Option.some.inj hb
      exact ⟨ha, a', rfl, hrel⟩

theorem lift_eq_ok {α : Type} {x : Except Fault α} {v : α} :
    lift x p = .ok v q ↔ x = .ok v ∧ q = p :=
  lifted_eq_ok (fun _ => rfl) fun _ => rfl

theorem follows_lift {R : Program → Program → Prop} {α : Type} (x : Except Fault α) :
    Follows R R (lift x) (lift x) := by
  cases x with
  | ok v => exact .pure (fun _ _ hp => hp) v
  | error e => exact .throw e _

theorem follows_addEntries {entries entries' : List Value}
    (h : List.Forall₂ Configuration.Reorders entries entries') :
    Follows (Reloaded n) (Reloaded n) (addEntries entries) (addEntries entries') := by
  induction h with
  | nil => exact .pure (fun _ _ hp => hp) ()
  | @cons entry entry' _ _ hentry _ ih =>
    intro p p' hp u q hok
    obtain ⟨c, p₁, hc, hentry₁⟩ := bind_eq_ok.mp hok
    obtain ⟨rfl, rfl⟩ := EStateM.Result.ok.inj hc
    obtain ⟨a, p₂, hlift, hadd⟩ := bind_eq_ok.mp hentry₁
    obtain ⟨hread, rfl⟩ := lift_eq_ok.mp hlift
    obtain ⟨_, p₃, hadded, hrest⟩ := bind_eq_ok.mp hadd
    obtain ⟨-, rfl⟩ := EStateM.Result.ok.inj hadded
    obtain ⟨a', hread', hrel⟩ := hentry.readEntry hread
    obtain ⟨q', hrest', hq⟩ := ih _ _ (hp.add (pristine_of_readEntry hread) hrel) u q hrest
    refine ⟨q', ?_, hq⟩
    rw [← hp.length, ← hp.project, ← hp.version] at hread'
    exact (bind_of_ok rfl).trans
      ((bind_of_ok (lift_eq_ok.mpr ⟨hread', rfl⟩)).trans ((bind_of_ok rfl).trans hrest'))

theorem follows_applyLevel (document : Value) :
    Follows (Reloaded n) (Reloaded n) (applyLevel document) (applyLevel document) := by
  have hset : ∀ level, Follows (Reloaded n) (Reloaded n) (setLevel level)
      (setLevel level) := fun level =>
    .modify fun p p' hp => { hp with session := by rw [hp.session] }
  refine .read_bind (fun _ => rfl) (fun p p' hp => by rw [hp.session]) fun p _ _ => ?_
  split
  · exact .pure (fun _ _ hp => hp) ()
  · split
    · exact .pure (fun _ _ hp => hp) ()
    · refine .forM fun level _ => .bind (follows_lift _) fun wanted => ?_
      split
      · exact hset level
      · exact .pure (fun _ _ hp => hp) ()

def takeOver (document : Value) : Run Unit := do
  log .config .debug "updating config attributes from yaml config..."
  let project ← lift (document.at? "project_name")
  modifyConfiguration fun c => { c with project := project }
  let entries ← lift (document.at? "analyses")
  applyLevel document
  addEntries (← lift entries.members)

theorem applyDocument_eq (p : Program) :
    applyDocument p = takeOver p.configuration.documents.document p := rfl

theorem follows_takeOver (h : Configuration.ReordersScans document document') :
    Follows (Reloaded n) (Reloaded n) (takeOver document) (takeOver document') := by
  obtain ⟨v, v', entries, entries', hv, hv', hmembers, hmembers', hentries⟩ := h.analyses
  have hlevel : applyLevel document' = applyLevel document := by
    rw [applyLevel, applyLevel, field?_eq_toOption, field?_eq_toOption,
      h.others "loglevel" (by decide)]
  rw [takeOver, takeOver, h.others "project_name" (by decide), hv, hv', hlevel]
  have hlog : Follows (Reloaded n) (Reloaded n)
      (log .config .debug "updating config attributes from yaml config...")
      (log .config .debug "updating config attributes from yaml config...") :=
    .modify fun p p' hp => { hp with session := by rw [hp.session] }
  have hproject : ∀ project, Follows (Reloaded n) (Reloaded n)
      (modifyConfiguration fun c => { c with project := project })
      (modifyConfiguration fun c => { c with project := project }) := fun project =>
    .modify fun p p' hp => { hp with project := rfl }
  refine .bind hlog fun _ => .bind (follows_lift _) fun project => .bind (hproject project)
    fun _ => ?_
  change Follows (Reloaded n) (Reloaded n) (do applyLevel document; addEntries (← lift v.members))
    (do applyLevel document; addEntries (← lift v'.members))
  rw [hmembers, hmembers']
  refine .bind (follows_applyLevel document) fun _ => ?_
  exact follows_addEntries hentries

/-- Whatever the order in which a document lists what is to be scanned for, an analysis comes to the
same findings on every disk, if the metrics of graphs have the same graphs in front of them. -/
theorem applyDocument_reordered (p q : Program) (document : Value)
    (h : Configuration.ReordersScans p.configuration.documents.document document)
    (hok : applyDocument p = .ok () q) :
    ∃ q', applyDocument { p with configuration.documents.document := document } = .ok () q' ∧
      ∀ (s : Session) (scanners : List Scanner) (i : Nat), p.configuration.analyses.length ≤ i →
        i < q.configuration.analyses.length →
          SameOutcome i { q with session := s, scanners := scanners }
            { q' with session := s, scanners := scanners } := by
  have hstart : Reloaded p.configuration.analyses.length p
      { p with configuration.documents.document := document } := by
    refine ⟨rfl, rfl, rfl, rfl, rfl, fun i hi a ha => ?_⟩
    rw [List.getElem?_eq_none hi] at ha
    cases ha
  rw [applyDocument_eq] at hok
  obtain ⟨q', hok', hq⟩ := follows_takeOver h _ _ hstart () q hok
  refine ⟨q', (applyDocument_eq _).trans hok', fun s scanners i hi hlt => ?_⟩
  obtain ⟨a, ha⟩ : ∃ a, q.configuration.analyses[i]? = some a := ⟨_, List.getElem?_eq_getElem hlt⟩
  obtain ⟨hnew, a', ha', hrel⟩ := hq.analyses i hi a ha
  exact sameOutcome_of_rearranged rfl rfl ha ha' hrel hnew

end Run

namespace Sample

def entry (items : List String) : Value :=
  .map ([(.text "analysis_name", .text "n"), (.text "source_directory", .text "/w/p"),
    (.text "only_permit_languages", .ofStrings ["c"]),
    (.text "only_permit_file_extensions", .ofStrings [".c", ".h"])] ++
      [(.text "file_scan", .ofStrings items)])

def document (items : List String) : Value :=
  .map ([(.text "project_name", .text "p")] ++ [(.text "analyses", .list [entry items])])

def asking (items : List String) : Program where
  session := (including []).session
  configuration.documents.document := document items

theorem lookup_concat (es : List (Value × Value)) (key name : String) (v : Value) :
    Value.lookup (.text name) (es ++ [(.text key, v)]) =
      (Value.lookup (.text name) es).or (if key = name then some v else none) := by
  rw [Value.lookup, Value.lookup, List.find?_append, Option.map_or, List.find?_singleton]
  by_cases hkey : key = name
  · simp [Value.beq_text, hkey]
  · simp [Value.beq_text, hkey]

theorem at?_concat_of_ne {name key : String} (h : name ≠ key) (es : List (Value × Value))
    (v : Value) : (Value.map (es ++ [(.text key, v)])).at? name = (Value.map es).at? name := by
  rw [Value.at?, Value.at?, lookup_concat, if_neg (Ne.symm h), Option.or_none]

theorem reordersScans_document {items items' : List String}
    (h : Configuration.Rearranges .files (items.map .text) (items'.map .text)) :
    Configuration.ReordersScans (document items) (document items') where
  others := fun name hname => (at?_concat_of_ne hname _ _).trans (at?_concat_of_ne hname _ _).symm
  analyses := by
    have hentry : Configuration.Reorders (entry items) (entry items') := by
      refine ⟨fun name hname => ?_, fun scope => ?_⟩
      · exact (at?_concat_of_ne (hname .files) _ _).trans (at?_concat_of_ne (hname .files) _ _).symm
      · cases scope with
        | files =>
          have hfield : ∀ ss, (entry ss).field? "file_scan" = some (.ofStrings ss) := fun ss => by
            simp [entry, Value.field?, Value.lookup, Value.beq_text]
          rw [scanKey, hfield, hfield]
          exact .some ⟨_, _, rfl, rfl, h⟩
        | entities =>
          have hfield : ∀ ss, (entry ss).field? "entity_scan" = none := fun ss => by
            simp [entry, Value.field?, Value.lookup, Value.beq_text]
          rw [scanKey, hfield, hfield]
          exact .none
    have hanalyses : ∀ ss, (document ss).at? "analyses" = .ok (.list [entry ss]) := fun ss => by
      simp [document, Value.at?, Value.lookup, Value.beq_text]
    exact ⟨_, _, _, _, hanalyses items, hanalyses items', rfl, rfl, .cons hentry .nil⟩

theorem rearranges_graphFirst : Configuration.Rearranges .files
    (["number_of_methods", "dependency_graph", "source_lines_of_code", "fan_in_out"].map .text)
    (["dependency_graph", "fan_in_out", "source_lines_of_code", "number_of_methods"].map .text)
  where
  perm := List.Perm.map _ (by decide)
  fronts := by
    intro kind hkind g
    cases kind with
    | fanInOut => exact iff_of_eq (congrArg (g ∈ ·) (by decide +kernel))
    | communities => exact iff_of_eq (congrArg (g ∈ ·) (by decide +kernel))
    | _ => cases hkind

def computed? (items : List String) : Option Analysis := do
  let q ← final? Run.applyDocument (asking items)
  let t ← final? (Run.compute 0) q
  t.configuration.analyses[0]?

theorem of_computed? {items : List String} {a : Analysis} (h : computed? items = some a) : ∃ q t,
    Run.applyDocument (asking items) = .ok () q ∧ Run.compute 0 q = .ok () t ∧
    t.configuration.analyses[0]? = some a := by
  obtain ⟨q, hq, h⟩ := Option.bind_eq_some_iff.mp h
  obtain ⟨t, ht, h⟩ := Option.bind_eq_some_iff.mp h
  exact ⟨q, t, of_final? hq, of_final? ht, h⟩

def measuresFan (a : Analysis) : Bool := (a.overall.get? "max-fan-in-dependency-graph").isSome

theorem measuresFan_graphFirst :
    (computed? ["number_of_methods", "dependency_graph", "source_lines_of_code", "fan_in_out"]).map
      measuresFan = some true := by
  decide +kernel

/-- The graph comes in front of the metric of graphs in both orders, and the figures of this metric
are the same. -/
theorem applyDocument_reordered_graphFirst : ∃ q q' t t' a,
    Run.applyDocument (asking ["number_of_methods", "dependency_graph", "source_lines_of_code",
      "fan_in_out"]) = .ok () q ∧
    Run.applyDocument (asking ["dependency_graph", "fan_in_out", "source_lines_of_code",
      "number_of_methods"]) = .ok () q' ∧
    Run.compute 0 q = .ok () t ∧ t.configuration.analyses[0]? = some a ∧ measuresFan a = true ∧
    Run.compute 0 { q' with session := q.session, scanners := q.scanners } = .ok () t' ∧
    Run.SameFindings 0 t t' := by
  obtain ⟨a, ha, hfan⟩ := Option.map_eq_some_iff.mp measuresFan_graphFirst
  obtain ⟨q, t, hq, ht, ha⟩ := of_computed? ha
  obtain ⟨q', hq', hsame⟩ :=
    Run.applyDocument_reordered _ q _ (reordersScans_document rearranges_graphFirst) hq
  have houtcome := hsame q.session q.scanners 0 (Nat.le_refl 0) (Run.lt_of_compute ht)
  obtain ⟨t', ht'⟩ := houtcome.ends.mp ⟨t, ht⟩
  exact ⟨q, q', t, t', a, hq, hq', ht, ha, hfan, ht', houtcome.computed t t' ht ht'⟩

/-- A metric of graphs in front of its graph has nothing to measure. -/
theorem computed_fanFirst : ∃ a a', computed? ["dependency_graph", "fan_in_out"] = some a ∧
    computed? ["fan_in_out", "dependency_graph"] = some a' ∧ ¬ a.SameFindings a' := by
  have hfirst : (computed? ["dependency_graph", "fan_in_out"]).map measuresFan = some true := by
    decide +kernel
  have hlast : (computed? ["fan_in_out", "dependency_graph"]).map measuresFan = some false := by
    decide +kernel
  obtain ⟨a, ha, hfan⟩ := Option.map_eq_some_iff.mp hfirst
  obtain ⟨a', ha', hnone⟩ := Option.map_eq_some_iff.mp hlast
  refine ⟨a, a', ha, ha', fun hsame => ?_⟩
  rw [measuresFan, hsame.overall] at hnone
  exact Bool.false_ne_true (hnone.symm.trans hfan)

end Sample

end CodeAtlas
