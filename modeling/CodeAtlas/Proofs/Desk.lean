import CodeAtlas.Proofs.Scanning

/-!
# What scanning works on

Scanning for an analysis changes the log, the scanners and, of the analysis, its results and its
statistics: its `Desk`. It reads nothing else but the context of the scan and the files to be
scanned. So every step of it is a step on a desk, from `Run.worksOn_scan` to `Run.worksOn_scanAll`,
in whatever program and analysis the desk stands.
-/

namespace CodeAtlas

open Effect

/-- The log, the scanners, and the results and statistics of an analysis. -/
structure Desk where
  log : Log
  scanners : List Scanner
  results : Results
  statistics : Statistics

namespace Desk

variable {α : Type}

def lift : Except Fault α → EStateM Fault Desk α
  | .ok a => pure a
  | .error e => throw e

def scanner? (language : Language) : EStateM Fault Desk (Option Scanner) := do
  return (← get).scanners.find? fun s => s.language = language

def put (d : Desk) (t : ScanState) : Desk :=
  { d with
    scanners := d.scanners.map fun s => if s.language = t.scanner.language then t.scanner else s
    statistics := t.statistics }

def scan (scanner : Scanner) (x : ScanM α) : EStateM Fault Desk α :=
  fun d => mapState d.put (x ⟨scanner, d.statistics⟩)

def addResults (rs : Results) : EStateM Fault Desk Unit :=
  modify fun d => { d with results := d.results.update rs }

def takeImports (rs : Results) : EStateM Fault Desk Unit :=
  modify fun d =>
    { d with
      results := d.results.mapValues fun name r =>
        match rs.get? name with
        | some s => { r with imports := s.imports }
        | none => r }

def useResults (language : Language) (f : Results → EStateM Fault Desk Unit) :
    EStateM Fault Desk Unit := do
  match ← scanner? language with
  | some s => f s.results
  | none => return

def scannerFor (ctx : ScanContext) (node : FileNode) : EStateM Fault Desk (Option Scanner) := do
  match ← lift (Language.ofExtension? (Path.suffix node.name) ctx.settings.filters.languages) with
  | none => return none
  | some language => scanner? language

def scanNode (ctx : ScanContext) (node : FileNode) : EStateM Fault Desk Unit := do
  if node.isDirectory then return
  match ← scannerFor ctx node with
  | none => return
  | some scanner =>
    match node.content with
    | none => throw (.failure ("file content is None for file: " ++ node.name))
    | some content =>
      let _ ← scan scanner (Scanner.scanFile ctx ⟨Path.name node.name, node.name, content⟩)
      useResults scanner.language addResults

def busy (d : Desk) : List Language :=
  (d.scanners.filter fun s => !s.results.isEmpty).map Scanner.language

def eachBusy (f : Scanner → EStateM Fault Desk Unit) : EStateM Fault Desk Unit := do
  (← get).busy.forM fun language => do
    match ← scanner? language with
    | some s => f s
    | none => return

def linkWith (ctx : ScanContext) (scanner : Scanner) : EStateM Fault Desk Unit := do
  scan scanner (Scanner.linkFiles ctx)
  useResults scanner.language takeImports

def scanEntitiesWith (ctx : ScanContext) (scanner : Scanner) : EStateM Fault Desk Unit := do
  scan scanner (Scanner.scanEntities ctx)
  useResults scanner.language addResults

def write (message : String) : EStateM Fault Desk Unit :=
  modify fun d => { d with log := d.log.write .analysis .start message }

/-- Counts the results of the files. No time passes on a desk. -/
def countFiles : EStateM Fault Desk Unit :=
  modify fun d =>
    { d with
      statistics :=
        (d.statistics.add .extractedFileResults (.figure (.int d.results.files.size))).add
        .fileResultsCreationRuntime (.duration ⟨0⟩) }

def countEntities : EStateM Fault Desk Unit :=
  modify fun d =>
    { d with statistics := d.statistics.add .extractedEntityResults (.figure
      (.int d.results.entities.size)) }

/-- Scans the files of a graph of the file system, which has to be there. -/
def scanFiles (ctx : ScanContext) (view : Option GraphView) : EStateM Fault Desk Unit := do
  write ("starting file result creation in " ++ ctx.settings.name.display)
  match view with
  | none => throw .noSuchPart
  | some view => view.fileNodes.values.forM (scanNode ctx)
  eachBusy (linkWith ctx)
  countFiles

def scanEntities (ctx : ScanContext) : EStateM Fault Desk Unit := do
  write ("starting entity extraction in " ++ ctx.settings.name.display)
  eachBusy (scanEntitiesWith ctx)
  countEntities

def scanAll (ctx : ScanContext) (view : Option GraphView) : EStateM Fault Desk Unit := do
  let files ← lift (ctx.settings.scans.hasText (Configuration.scanKey .files))
  let entities ← lift (ctx.settings.scans.hasText (Configuration.scanKey .entities))
  if files || entities then scanFiles ctx view
  if entities then scanEntities ctx

end Desk

def Analysis.withDesk (a : Analysis) (d : Desk) : Analysis :=
  { a with results := d.results, statistics := d.statistics }

namespace Run

variable {p : Program} {i : Nat} {a : Analysis} {α : Type} {y : EStateM Fault Desk α}

def sessionAt (p : Program) (d : Desk) : Session := { p.session with log := d.log }

def atDesk (p : Program) (i : Nat) (a : Analysis) (d : Desk) : Program :=
  { keep p i ⟨sessionAt p d, a.withDesk d⟩ with scanners := d.scanners }

def deskOf (p : Program) (a : Analysis) : Desk :=
  ⟨p.session.log, p.scanners, a.results, a.statistics⟩

def contextOf (p : Program) (a : Analysis) : ScanContext :=
  ⟨a.id, a.settings, p.session.disk, p.session.knownModules⟩

theorem atDesk_self (ha : p.configuration.analyses[i]? = some a) : atDesk p i a (deskOf p a) = p :=
  congrArg (fun q : Program => { q with scanners := p.scanners }) (keep_self ha)

section
variable (hi : i < p.configuration.analyses.length)
include hi

theorem getElem?_atDesk (d : Desk) :
    (atDesk p i a d).configuration.analyses[i]? = some (a.withDesk d) :=
  List.getElem?_set_self hi

theorem onAnalysis_atDesk {w : Work α} {d : Desk} {x : α} {a' : Analysis}
    (hw : w ⟨sessionAt p d, a.withDesk d⟩ = .ok x ⟨sessionAt p d, a'⟩) :
    onAnalysis i w (atDesk p i a d) =
      .ok x { keep p i ⟨sessionAt p d, a'⟩ with scanners := d.scanners } := by
  refine (onAnalysis_eq_ok (getElem?_atDesk hi d)).mpr ⟨_, hw, ?_⟩
  simp only [atDesk, keep, List.set_set]

theorem read_atDesk {w : Work α} {x : α} {d : Desk}
    (hw : w ⟨sessionAt p d, a.withDesk d⟩ = .ok x ⟨sessionAt p d, a.withDesk d⟩) :
    onAnalysis i w (atDesk p i a d) = .ok x (atDesk p i a d) :=
  onAnalysis_atDesk hi hw

end

theorem eq_of_worksOn (ha : p.configuration.analyses[i]? = some a) {x : Run α}
    (h : WorksOn (atDesk p i a) x y) : x p = mapState (atDesk p i a) (y (deskOf p a)) := by
  rw [← h, atDesk_self ha]

theorem of_worksOn (ha : p.configuration.analyses[i]? = some a) {x : Run α}
    (h : WorksOn (atDesk p i a) x y) {v : α} {p' : Program} (hok : x p = .ok v p') :
    ∃ d, y (deskOf p a) = .ok v d ∧ p' = atDesk p i a d := by
  rw [eq_of_worksOn ha h] at hok
  exact mapState_eq_ok.mp hok

theorem worksOn_lift (x : Except Fault α) : WorksOn (atDesk p i a) (lift x) (Desk.lift x) := by
  cases x with
  | ok v => exact .pure v
  | error e => exact .throw e

theorem worksOn_scanner? (language : Language) :
    WorksOn (atDesk p i a) (scanner? language) (Desk.scanner? language) :=
  fun _ => rfl

section
variable (hi : i < p.configuration.analyses.length)
include hi

theorem worksOn_scan (s : Scanner) (x : ScanM α) :
    WorksOn (atDesk p i a) (scan i s x) (Desk.scan s x) := by
  intro d
  rw [Desk.scan, scan]
  cases hx : x ⟨s, d.statistics⟩ with
  | ok v t => exact bind_of_ok (onAnalysis_atDesk hi (withScanner_of_ok hx))
  | error e t => exact bind_of_ok (onAnalysis_atDesk hi (withScanner_of_error hx))

theorem worksOn_addResults (rs : Results) :
    WorksOn (atDesk p i a) (onAnalysis i (Work.modifyAnalysis fun a => a.addResults rs))
      (Desk.addResults rs) :=
  fun _ => onAnalysis_atDesk hi rfl

theorem worksOn_takeImports (rs : Results) :
    WorksOn (atDesk p i a) (onAnalysis i (Work.takeImports rs)) (Desk.takeImports rs) :=
  fun _ => onAnalysis_atDesk hi rfl

end

theorem worksOn_useResults {f : Results → Run Unit} {f' : Results → EStateM Fault Desk Unit}
    (hf : ∀ rs, WorksOn (atDesk p i a) (f rs) (f' rs)) (language : Language) :
    WorksOn (atDesk p i a)
      (do match ← scanner? language with | some s => f s.results | none => return)
      (Desk.useResults language f') := by
  refine .bind (worksOn_scanner? language) fun found => ?_
  cases found with
  | none => exact .pure _
  | some s => exact hf s.results

theorem worksOn_scanNode (hi : i < p.configuration.analyses.length) (node : FileNode) :
    WorksOn (atDesk p i a) (scanNode i node) (Desk.scanNode (contextOf p a) node) := by
  rw [scanNode, Desk.scanNode]
  split
  · exact .pure _
  have hchoice : WorksOn (atDesk p i a) (scannerFor i node)
      (Desk.scannerFor (contextOf p a) node) := by
    refine .read_bind (fun d => read_atDesk hi rfl) (.bind (worksOn_lift _) fun choice => ?_)
    cases choice with
    | none => exact .pure _
    | some language => exact worksOn_scanner? language
  refine .bind hchoice fun found => ?_
  cases found with
  | none => exact .pure _
  | some s =>
    cases node.content with
    | none => exact .throw _
    | some content =>
      refine .read_bind (fun d => read_atDesk hi rfl) (.bind (worksOn_scan hi s _) fun _ => ?_)
      exact worksOn_useResults (worksOn_addResults hi) s.language

theorem worksOn_eachBusy {f : Scanner → Run Unit} {f' : Scanner → EStateM Fault Desk Unit}
    (hf : ∀ s, WorksOn (atDesk p i a) (f s) (f' s)) :
    WorksOn (atDesk p i a) (eachBusy f) (Desk.eachBusy f') := by
  have hbusy : WorksOn (atDesk p i a) busyScanners (do return (← get).busy) := fun _ => rfl
  refine .bind hbusy fun languages => .forM fun language _ => .bind (worksOn_scanner? language)
    fun found => ?_
  cases found with
  | none => exact .pure _
  | some s => exact hf s

theorem worksOn_linkWith (hi : i < p.configuration.analyses.length) (s : Scanner) :
    WorksOn (atDesk p i a) (linkWith i s) (Desk.linkWith (contextOf p a) s) := by
  refine .read_bind (fun d => read_atDesk hi rfl) (.bind (worksOn_scan hi s _) fun _ => ?_)
  exact worksOn_useResults (worksOn_takeImports hi) s.language

theorem worksOn_scanEntitiesWith (hi : i < p.configuration.analyses.length) (s : Scanner) :
    WorksOn (atDesk p i a) (scanEntitiesWith i s) (Desk.scanEntitiesWith (contextOf p a) s) := by
  refine .read_bind (fun d => read_atDesk hi rfl) (.bind (worksOn_scan hi s _) fun _ => ?_)
  exact worksOn_useResults (worksOn_addResults hi) s.language

/-! ### All files and entities -/

theorem worksOn_write (message : String) :
    WorksOn (atDesk p i a) (log .analysis .start message) (Desk.write message) :=
  fun _ => rfl

theorem session_atDesk (d : Desk) :
    session (atDesk p i a d) = .ok (sessionAt p d) (atDesk p i a d) := rfl

section
variable (hi : i < p.configuration.analyses.length)
include hi

theorem worksOn_scanFiles :
    WorksOn (atDesk p i a) (scanFiles i)
      (Desk.scanFiles (contextOf p a) (a.graphs.get? .fileSystem)) := by
  have hlast : ∀ start, start = p.session.now → WorksOn (atDesk p i a) (do
      eachBusy (linkWith i)
      let runtime : Duration := ⟨(← session).now - start⟩
      onAnalysis i do
        let count := (← Work.analysis).fileResults.size
        Work.modifyStatistics fun st => (st.add .extractedFileResults (.figure (.int count))).add
          .fileResultsCreationRuntime (.duration runtime))
      (do Desk.eachBusy (Desk.linkWith (contextOf p a)); Desk.countFiles) := by
    rintro _ rfl
    refine .bind (worksOn_eachBusy (worksOn_linkWith hi)) fun _ d => ?_
    rw [bind_of_ok (session_atDesk d),
      show (sessionAt p d).now - p.session.now = 0 from Int.sub_self _]
    exact onAnalysis_atDesk hi rfl
  intro d
  rw [scanFiles, bind_of_ok (read_atDesk hi (analysis_eq _))]
  refine WorksOn.bind (worksOn_write _) (fun _ d₁ => ?_) d
  rw [bind_of_ok (session_atDesk d₁)]
  have hview : (a.withDesk d).graphs.get? .fileSystem = a.graphs.get? .fileSystem := rfl
  rw [hview]
  cases a.graphs.get? .fileSystem with
  | none => rfl
  | some view =>
    exact WorksOn.bind (.forM fun node _ => worksOn_scanNode hi node) (fun _ => hlast _ rfl) d₁

theorem worksOn_scanEntities :
    WorksOn (atDesk p i a) (scanEntities i) (Desk.scanEntities (contextOf p a)) := by
  refine .read_bind (fun d => read_atDesk hi rfl) (.bind (worksOn_write _) fun _ => ?_)
  refine .bind (worksOn_eachBusy (worksOn_scanEntitiesWith hi)) fun _ d => ?_
  exact onAnalysis_atDesk hi rfl

/-- Scanning depends on the context and on the graph of the file system, and changes nothing but the
desk. -/
theorem worksOn_scanAll :
    WorksOn (atDesk p i a) (scanAll i)
      (Desk.scanAll (contextOf p a) (a.graphs.get? .fileSystem)) := by
  refine .read_bind (fun d => read_atDesk hi rfl) ?_
  refine .bind (worksOn_lift _) fun files => .bind (worksOn_lift _) fun entities => ?_
  have hentities : WorksOn (atDesk p i a) (if entities then scanEntities i else pure ())
      (if entities then Desk.scanEntities (contextOf p a) else pure ()) :=
    .ite (worksOn_scanEntities hi) (.pure _)
  exact .ite (.bind (worksOn_scanFiles hi) fun _ => hentities) hentities

end

end Run

end CodeAtlas
