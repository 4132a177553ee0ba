import CodeAtlas.Proofs.Exporting
import CodeAtlas.Proofs.Measuring

/-!
# Whom results belong to

Results are made for an analysis (`Results.MadeFor`). Whatever is done with an analysis once it has
its results, from measuring to exporting, leaves it with results of its own (`Work.KeepsOwn`): one
lemma for each kind of work, each from those of the work it is made of.
-/

namespace CodeAtlas

open Effect OrderedMap

/-! ### Results made for an analysis -/

namespace Results

def MadeFor (rs : Results) (id : Nat) : Prop := ∀ key r, rs.get? key = some r → r.analysis = id

variable {rs rs' : Results} {id : Nat}

theorem madeFor_empty (id : Nat) : MadeFor ∅ id := by
  intro key r hget
  simp at hget

theorem MadeFor.insert (h : rs.MadeFor id) {r : ScanResult} (hr : r.analysis = id) (key : String) :
    MadeFor (insert rs key r) id := by
  intro key' r' hget
  rw [get?_insert] at hget
  split_ifs at hget
  · exact Option.some.inj hget ▸ hr
  · exact h key' r' hget

theorem MadeFor.update (h : rs.MadeFor id) (h' : rs'.MadeFor id) : MadeFor (update rs rs') id := by
  intro key r hget
  rw [get?_update, Option.or_eq_some_iff] at hget
  rcases hget with hget | ⟨-, hget⟩
  · exact h' key r hget
  · exact h key r hget

theorem MadeFor.mapValues (h : rs.MadeFor id) {g : String → ScanResult → ScanResult}
    (hg : ∀ key r, (g key r).analysis = r.analysis) : MadeFor (mapValues g rs) id := by
  intro key r hget
  rw [get?_mapValues, Option.map_eq_some_iff] at hget
  obtain ⟨r', hget, rfl⟩ := hget
  rw [hg]
  exact h key r' hget

end Results

namespace Analysis

/-- All results of the analysis were made for it, and its number is `id`. -/
structure Own (a : Analysis) (id : Nat) : Prop where
  id_eq : a.id = id
  results : a.results.MadeFor id

variable {a b : Analysis} {id : Nat}

theorem Own.congr (h : a.Own id) (hid : b.id = a.id) (hresults : b.results = a.results) :
    b.Own id :=
  ⟨hid.trans h.id_eq, hresults ▸ h.results⟩

theorem Own.fillGraph (h : a.Own id) (kind : GraphKind) (f : GraphView → GraphView) :
    (a.fillGraph kind f).Own id := by
  rw [Analysis.fillGraph]
  split
  · exact h.congr rfl rfl
  · exact h

theorem Own.fillGraphs (h : a.Own id) : a.fillGraphs.1.Own id := by
  have hsimple : a.fillSimpleGraphs.Own id := ((h.fillGraph _ _).fillGraph _ _).fillGraph _ _
  rw [Analysis.fillGraphs]
  split
  · exact hsimple
  · split
    · exact hsimple.congr rfl rfl
    · exact hsimple

theorem Own.addRowsTo (h : a.Own id) (views : List GraphView) : (a.addRowsTo views).1.Own id := by
  induction views generalizing a with
  | nil => exact h
  | cons v rest ih =>
    rw [Analysis.addRowsTo]
    split
    · exact ih (h.congr rfl rfl)
    · exact h.congr rfl rfl

end Analysis

/-! ### Work on an analysis -/

namespace Work

variable {id : Nat} {α : Type} {f : Analysis → Analysis}

abbrev KeepsOwn (id : Nat) (w : Work α) : Prop := Keeps (fun j => j.analysis.Own id) w

theorem keepsOwn_modifyAnalysis (h : ∀ a, a.Own id → (f a).Own id) :
    KeepsOwn id (modifyAnalysis f) :=
  .modify fun j hj => h j.analysis hj

theorem keepsOwn_modifyRest (hid : ∀ a, (f a).id = a.id)
    (hresults : ∀ a, (f a).results = a.results) : KeepsOwn id (Work.modifyAnalysis f) :=
  keepsOwn_modifyAnalysis fun a ha => ha.congr (hid a) (hresults a)

theorem keepsOwn_modifySession (f : Session → Session) : KeepsOwn id (modifySession f) :=
  .modify fun _ hj => hj

theorem keepsOwn_modifyStatistics (f : Statistics → Statistics) :
    KeepsOwn id (modifyStatistics f) :=
  keepsOwn_modifyRest (fun _ => rfl) fun _ => rfl

theorem keepsOwn_analysis : KeepsOwn id analysis := .bind .get fun _ => .pure _

theorem keepsOwn_session : KeepsOwn id session := .bind .get fun _ => .pure _

theorem keepsOwn_settings : KeepsOwn id settings := .bind .get fun _ => .pure _

theorem keepsOwn_lift (x : Except Fault α) : KeepsOwn id (lift x) := by
  cases x with
  | ok v => exact .pure v
  | error e => exact .throw e

theorem keepsOwn_log (source : LogSource) (kind : LogKind) (message : String) :
    KeepsOwn id (log source kind message) :=
  keepsOwn_modifySession _

theorem keepsOwn_step {f : Analysis → Analysis × Except Fault Unit}
    (h : ∀ a, a.Own id → (f a).1.Own id) : KeepsOwn id (step f) := by
  intro j _ j' hj hok
  obtain ⟨a, j₁, ha, hok⟩ := bind_eq_ok.mp hok
  obtain ⟨rfl, rfl⟩ := EStateM.Result.ok.inj ha
  exact (Keeps.bind (keepsOwn_modifyAnalysis fun _ _ => h _ hj) fun _ => keepsOwn_lift _) _ _
    _ hj hok

/-! ### Metrics -/

/-- Measuring files figures with results and makes none. -/
theorem keepsOwn_of_onlyMeasures {w : Work α} (h : ∀ c, OnlyMeasures c w) : KeepsOwn id w := by
  intro j x j' hj hok
  have hmeasuring := h j j x j' (.refl j) hok
  have hbare : Results.MadeFor j'.analysis.results.bare id := by
    rw [hmeasuring.bare]
    exact hj.results.mapValues fun _ _ => rfl
  refine ⟨hmeasuring.id.trans hj.id_eq, fun key r hget => ?_⟩
  exact hbare key { r with metrics := ∅ } (by rw [Results.bare, get?_mapValues, hget]; rfl)

theorem keepsOwn_calculateAll : KeepsOwn id calculateAll := by
  refine .bind keepsOwn_analysis fun a => .ite_rest
    (.bind (keepsOwn_of_onlyMeasures fun _ => onlyMeasures_calculateMetrics false) fun _ => ·) ?_
  refine .bind keepsOwn_analysis fun b => ?_
  split
  · refine .bind (keepsOwn_step fun _ h => h.fillGraphs) fun _ => ?_
    refine .bind (keepsOwn_of_onlyMeasures fun _ => onlyMeasures_calculateMetrics true) fun _ => ?_
    exact keepsOwn_step fun _ h => h.addRowsTo _
  · exact .pure _

/-! ### The file system and the exports -/

theorem keepsOwn_surveyFiles : KeepsOwn id surveyFiles := by
  refine .bind .get fun j => .ite_rest (.bind (.throw _) fun _ => ·) ?_
  refine .bind (keepsOwn_log _ _ _) fun _ => .bind (keepsOwn_lift _) fun shown => ?_
  refine .bind (keepsOwn_log _ _ _) fun _ => .bind (keepsOwn_lift _) fun source => ?_
  split
  · exact .throw _
  · dsimp only
    split
    · exact .bind (keepsOwn_modifyRest (fun _ => rfl) fun _ => rfl) fun _ => .throw _
    · exact .bind (keepsOwn_modifyRest (fun _ => rfl) fun _ => rfl) fun _ => .bind keepsOwn_session
        fun _ =>
        keepsOwn_modifyStatistics _

theorem keepsOwn_buildFileSystem : KeepsOwn id buildFileSystem := by
  intro j _ j' hj hok
  let a := { j.analysis with graphs := j.analysis.graphs.insertNew .fileSystem (.new .fileSystem) }
  have ha : a.Own id := hj.congr rfl rfl
  exact keepsOwn_surveyFiles ⟨j.session, a⟩ () j' ha hok

theorem keepsOwn_checkSource : KeepsOwn id checkSource := by
  refine .bind keepsOwn_settings fun s => .ite_rest (.bind (.throw _) fun _ => ·) ?_
  refine .bind keepsOwn_session fun _ => .bind (keepsOwn_lift _) fun there => ?_
  split
  · exact .bind (keepsOwn_log _ _ _) fun _ => .throw _
  · exact .pure _

theorem keepsOwn_finish (start : Int) : KeepsOwn id (finish start) := by
  intro j _ j' hj hok
  rw [Analysis.eq_of_unexported (onlyExports_finish start j () j' rfl hok)]
  exact hj.congr rfl rfl

theorem keepsOwn_startTimer : KeepsOwn id startTimer :=
  .bind keepsOwn_session fun _ => keepsOwn_modifyRest (fun _ => rfl) fun _ => rfl

theorem keepsOwn_stopTimer : KeepsOwn id stopTimer := by
  refine .bind keepsOwn_session fun _ => .bind (keepsOwn_modifyRest (fun _ => rfl) fun _ => rfl)
    fun _ => ?_
  refine .bind keepsOwn_analysis fun a => ?_
  split
  · exact keepsOwn_modifyStatistics _
  · exact keepsOwn_modifyStatistics _

end Work

end CodeAtlas
