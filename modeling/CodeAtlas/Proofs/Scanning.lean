import CodeAtlas.Program.Analyze
import CodeAtlas.Proofs.Effects
import CodeAtlas.Proofs.Maps

/-!
# Scanning the files of an analysis

While files are scanned, the files on the disk, the settings, the graphs and the choice of scanners
stay as they are; a `Frame` holds them. `Scanning F known done p` says where a program is on its
way: the scanners and the analysis have new results for files of `known` only, and for every file of
`done` that a scanner takes, that scanner and the analysis have one. Scanning one more file
preserves this for one more file (`Scanning.scanNode`), and so does linking the files, which only
changes imports (`Scanning.linkWith`).
-/

namespace CodeAtlas

open OrderedMap

namespace Run

open Effect

/-! ### Work on one analysis -/

def keep (p : Program) (i : Nat) (j : Job) : Program :=
  { p with
    session := j.session
    configuration :=
      { p.configuration with analyses := p.configuration.analyses.set i j.analysis } }

variable {i : Nat} {p p' : Program} {a : Analysis} {j : Job} {α : Type}

theorem onAnalysis_eq_ok (ha : p.configuration.analyses[i]? = some a) {w : Work α} {x : α} :
    onAnalysis i w p = .ok x p' ↔ ∃ j, w ⟨p.session, a⟩ = .ok x j ∧ p' = keep p i j := by
  rw [onAnalysis, ha]
  simp only
  cases w ⟨p.session, a⟩ with
  | ok y j =>
    simp only [EStateM.Result.ok.injEq]
    constructor
    · rintro ⟨rfl, rfl⟩
      exact ⟨j, ⟨rfl, rfl⟩, rfl⟩
    · rintro ⟨j', ⟨rfl, rfl⟩, rfl⟩
      exact ⟨rfl, rfl⟩
  | error e j => simp

theorem keep_self (ha : p.configuration.analyses[i]? = some a) : keep p i ⟨p.session, a⟩ = p := by
  obtain ⟨hlt, rfl⟩ := List.getElem?_eq_some_iff.mp ha
  simp [keep]

theorem getElem?_keep (ha : p.configuration.analyses[i]? = some a) (j : Job) :
    (keep p i j).configuration.analyses[i]? = some j.analysis := by
  obtain ⟨hlt, -⟩ := List.getElem?_eq_some_iff.mp ha
  simp [keep, hlt]

theorem onAnalysis_read (ha : p.configuration.analyses[i]? = some a) {w : Work α} {x : α}
    (hw : w ⟨p.session, a⟩ = .ok x ⟨p.session, a⟩) : onAnalysis i w p = .ok x p :=
  (onAnalysis_eq_ok ha).mpr ⟨_, hw, (keep_self ha).symm⟩

theorem of_lift {x : Except Fault α} {v : α} (h : lift x p = .ok v p') : x = .ok v ∧ p' = p := by
  cases x with
  | ok u =>
    obtain ⟨rfl, rfl⟩ := EStateM.Result.ok.inj h
    exact ⟨rfl, rfl⟩
  | error e => cases h

/-! ### Scanners -/

def putScanner (p : Program) (s : Scanner) : Program :=
  { p with scanners := p.scanners.map fun t => if t.language = s.language then s else t }

theorem languages_putScanner (s : Scanner) :
    (putScanner p s).scanners.map Scanner.language = p.scanners.map Scanner.language := by
  rw [putScanner, List.map_map]
  refine List.map_congr_left fun t _ => ?_
  simp only [Function.comp_apply]
  split_ifs with h
  · exact h.symm
  · rfl

theorem mem_putScanner {s t : Scanner} (h : t ∈ (putScanner p s).scanners) :
    t = s ∨ t ∈ p.scanners ∧ t.language ≠ s.language := by
  obtain ⟨u, hu, rfl⟩ := List.mem_map.mp h
  split_ifs with hlanguage
  · exact .inl rfl
  · exact .inr ⟨hu, hlanguage⟩

theorem scanner?_eq (language : Language) :
    scanner? language p = .ok (p.scanners.find? fun s => s.language = language) p := rfl

theorem find?_putScanner {s : Scanner} (h : s.language ∈ p.scanners.map Scanner.language) :
    ((putScanner p s).scanners.find? fun t => t.language = s.language) = some s := by
  cases hfind : (putScanner p s).scanners.find? fun t => t.language = s.language with
  | none =>
    obtain ⟨t, ht, hlang⟩ := List.mem_map.mp h
    have := List.find?_eq_none.mp hfind s (List.mem_map.mpr ⟨t, ht, if_pos hlang⟩)
    simp at this
  | some u =>
    have hlang : u.language = s.language := by simpa using List.find?_some hfind
    obtain ⟨t, -, rfl⟩ := List.mem_map.mp (List.mem_of_find?_eq_some hfind)
    split_ifs at hlang ⊢ with ht
    · rfl
    · exact absurd hlang ht

theorem analysis_eq (j : Job) : Work.analysis j = .ok j.analysis j := rfl

variable {scanner : Scanner} {x : ScanM α} {t : ScanState}

theorem withScanner_of_ok {v : α}
    (hx : x ⟨scanner, j.analysis.statistics⟩ = .ok v t) : Work.withScanner scanner x j =
      .ok (t.scanner, .ok v)
        { j with analysis := { j.analysis with statistics := t.statistics } } := by
  rw [Work.withScanner, bind_of_ok (analysis_eq j), hx]
  rfl

theorem withScanner_of_error {e : Fault}
    (hx : x ⟨scanner, j.analysis.statistics⟩ = .error e t) : Work.withScanner scanner x j =
      .ok (t.scanner, .error e)
        { j with analysis := { j.analysis with statistics := t.statistics } } := by
  rw [Work.withScanner, bind_of_ok (analysis_eq j), hx]
  rfl

/-- What a scanner that has done its work for an analysis leaves behind. -/
theorem of_scan (ha : p.configuration.analyses[i]? = some a) {v : α}
    (h : scan i scanner x p = .ok v p') : ∃ t, x ⟨scanner, a.statistics⟩ = .ok v t ∧
      p' = putScanner (keep p i ⟨p.session, { a with statistics := t.statistics }⟩) t.scanner := by
  obtain ⟨⟨s, r⟩, p₁, h₁, h⟩ := bind_eq_ok.mp h
  obtain ⟨j, hj, rfl⟩ := (onAnalysis_eq_ok ha).mp h₁
  cases hx : x ⟨scanner, a.statistics⟩ with
  | ok u t =>
    obtain ⟨heq, rfl⟩ := EStateM.Result.ok.inj ((withScanner_of_ok hx).symm.trans hj)
    obtain ⟨rfl, rfl⟩ := Prod.mk.inj heq
    obtain ⟨rfl, rfl⟩ := EStateM.Result.ok.inj h
    exact ⟨t, rfl, rfl⟩
  | error e t =>
    obtain ⟨heq, rfl⟩ := EStateM.Result.ok.inj ((withScanner_of_error hx).symm.trans hj)
    obtain ⟨rfl, rfl⟩ := Prod.mk.inj heq
    cases h

end Run

/-! ### The result of one file -/

namespace Scanner

open Effect

variable {ctx : ScanContext} {source : String} {file : SourceFile} {t t' : ScanState}
  {r : ScanResult} {language : Language} {st st' : Statistics}

theorem of_fileResult (hsource : ctx.settings.source = .text source)
    (h : fileResult language ctx file st = .ok r st') :
    ∃ package imports, r =
      { blankResult language ctx source file with moduleName := package, imports := imports } := by
  have hpath : ctx.settings.sourcePath = .ok source := by rw [Settings.sourcePath, hsource]
  rw [fileResult, hpath] at h
  obtain ⟨source', st₀, hlift, h⟩ := bind_eq_ok.mp h
  obtain ⟨rfl, rfl⟩ := EStateM.Result.ok.inj hlift
  -- only one language has packages, but all go on in the same way
  split at h
  all_goals
    obtain ⟨package, st₁, -, h⟩ := bind_eq_ok.mp h
    obtain ⟨imports, st₂, -, h⟩ := bind_eq_ok.mp h
    exact ⟨package, imports, (EStateM.Result.ok.inj h).1.symm⟩

theorem tallied_eq_ok_iff {α : Type} {x : Tallied α} {v : α} :
    ScanM.tallied x t = .ok v t' ↔
    ∃ st, x t.statistics = .ok v st ∧ t' = { t with statistics := st } := by
  rw [ScanM.tallied]
  cases x t.statistics with
  | ok u st => simp [eq_comm]
  | error e st => simp

theorem of_scanFile (hsource : ctx.settings.source = .text source)
    (h : scanFile ctx file t = .ok r t') : (∃ package imports, r =
      { blankResult t.scanner.language ctx source file with
        moduleName := package, imports := imports }) ∧
    t'.scanner = { t.scanner with results := t.scanner.results.insert r.uniqueName r } := by
  rw [scanFile, get_bind] at h
  obtain ⟨r', t₁, htallied, h⟩ := bind_eq_ok.mp h
  obtain ⟨st, hr, rfl⟩ := tallied_eq_ok_iff.mp htallied
  obtain ⟨rfl, rfl⟩ := EStateM.Result.ok.inj h
  exact ⟨of_fileResult hsource hr, rfl⟩

end Scanner

/-! ### Results on the way -/

/-- What stays as it is while the files of an analysis are scanned. -/
structure Frame where
  index : Nat
  disk : Disk
  source : String
  settings : Settings
  graphs : OrderedMap GraphKind GraphView
  languages : List Language
  /-- What is known of the results from before. -/
  old : ScanResult → Prop
  old_relink : ∀ r imports, old r → old { r with imports := imports }

/-- A result is that of a file, made by the scanner of a language. -/
structure Describes (source : String) (language : Language) (n : FileNode) (r : ScanResult) :
    Prop where
  uniqueName : r.uniqueName = n.name
  scannedBy : r.scannedBy = language.scannerName
  language : r.language = some language
  details : ∃ content, n.content = some content ∧
    r.details = .file (.ofNames source n.name n.name content)

variable {language : Language} {n : FileNode} {ctx : ScanContext} {source : String} {r : ScanResult}

theorem Describes.relink
    (h : Describes source language n r) (imports : List String) :
    Describes source language n { r with imports := imports } :=
  ⟨h.uniqueName, h.scannedBy, h.language, h.details⟩

theorem Describes.isFile
    (h : Describes source language n r) : r.isFile = true := by
  obtain ⟨content, -, hdetails⟩ := h.details
  rw [ScanResult.isFile, hdetails]

theorem Describes.of_blankResult {source content package : String}
    {imports : List String} (hcontent : n.content = some content)
    (hname : Resolve.relativeName source n.name = n.name) :
    Describes source language n
      { Scanner.blankResult language ctx source ⟨Path.name n.name, n.name, content⟩ with
        moduleName := package, imports := imports } where
  uniqueName := hname
  scannedBy := rfl
  language := rfl
  details := ⟨content, hcontent, by simp only [Scanner.blankResult, hname]⟩

namespace Frame

/-- The scanner of a language takes a file: it is chosen for it, and it is there. -/
structure Takes (F : Frame) (language : Language) (n : FileNode) : Prop where
  isFile : n.isDirectory = false
  chosen : Language.ofExtension? (Path.suffix n.name) F.settings.filters.languages =
    .ok (some language)
  available : language ∈ F.languages

/-- There are results from before, and results of taken files of a list under their names. -/
def Sound (F : Frame) (known : List FileNode) (rs : Results) : Prop :=
  ∀ key r, rs.get? key = some r →
    F.old r ∨ ∃ n ∈ known, ∃ language, F.Takes language n ∧ key = n.name ∧
      Describes F.source language n r

/-- There are results of all taken files of a list. -/
def Complete (F : Frame) (done : List FileNode) (rs : Results) : Prop :=
  ∀ n ∈ done, ∀ language, F.Takes language n → n.name ∈ rs.keys

/-- A scanner has made a result of every file of a list that it takes, or of another one of that
name. -/
def Made (F : Frame) (done : List FileNode) (s : Scanner) : Prop :=
  ∀ n ∈ done, F.Takes s.language n →
    ∃ m r, m.name = n.name ∧ s.results.get? n.name = some r ∧ Describes F.source s.language m r

variable {F : Frame} {known known' done : List FileNode} {rs rs' : Results} {n : FileNode}
  {language : Language} {r : ScanResult}

theorem Takes.unique {language' : Language} (h : F.Takes language n) (h' : F.Takes language' n) :
    language = language' := by
  have := h.chosen.symm.trans h'.chosen
  simpa using this

theorem Sound.mono (h : F.Sound known rs) (hsub : known ⊆ known') : F.Sound known' rs := by
  intro key r hget
  rcases h key r hget with hold | ⟨n, hn, hrest⟩
  · exact .inl hold
  · exact .inr ⟨n, hsub hn, hrest⟩

theorem Sound.insert (h : F.Sound known rs) (hn : n ∈ known) (htakes : F.Takes language n)
    (hr : Describes F.source language n r) : F.Sound known (rs.insert r.uniqueName r) := by
  intro key r' hget
  rw [get?_insert] at hget
  split_ifs at hget with hkey
  · obtain rfl := Option.some.inj hget
    exact .inr ⟨n, hn, language, htakes, hkey.symm.trans hr.uniqueName, hr⟩
  · exact h key r' hget

theorem Sound.update (h : F.Sound known rs) (h' : F.Sound known rs') :
    F.Sound known (rs.update rs') := by
  intro key r hget
  rw [get?_update, Option.or_eq_some_iff] at hget
  rcases hget with hget | ⟨-, hget⟩
  · exact h' key r hget
  · exact h key r hget

theorem complete_concat_iff : F.Complete (done ++ [n]) rs ↔
    F.Complete done rs ∧ ∀ language, F.Takes language n → n.name ∈ rs.keys := by
  simp only [Complete, List.forall_mem_append, List.forall_mem_singleton]

/-- The results are the same but for the imports. -/
structure Relinked (rs rs' : Results) : Prop where
  keys : rs'.keys = rs.keys
  imports : ∀ key r', rs'.get? key = some r' → ∃ r imports, rs.get? key = some r ∧
    r' = { r with imports := imports }

theorem Relinked.mapValues {g : String → ScanResult → ScanResult}
    (hg : ∀ key r, ∃ imports, g key r = { r with imports := imports }) (rs : Results) :
    Relinked rs (rs.mapValues g) := by
  refine ⟨keys_mapValues g rs, fun key r' hget => ?_⟩
  rw [get?_mapValues, Option.map_eq_some_iff] at hget
  obtain ⟨r, hr, rfl⟩ := hget
  obtain ⟨imports, himports⟩ := hg key r
  exact ⟨r, imports, hr, himports⟩

theorem Sound.relinked (h : F.Sound known rs) (hrel : Relinked rs rs') : F.Sound known rs' := by
  intro key r' hget
  obtain ⟨r, imports, hr, rfl⟩ := hrel.imports key r' hget
  rcases h key r hr with hold | ⟨n, hn, language, htakes, hkey, hd⟩
  · exact .inl (F.old_relink r imports hold)
  · exact .inr ⟨n, hn, language, htakes, hkey, hd.relink imports⟩

variable {s s' : Scanner}

theorem Made.mono {done' : List FileNode} (h : F.Made done' s) (hsub : done ⊆ done') :
    F.Made done s :=
  fun n hn => h n (hsub hn)

theorem Made.insert (h : F.Made done s) (hlanguage : s'.language = s.language)
    (hresults : s'.results = s.results.insert r.uniqueName r)
    (hr : Describes F.source s.language n r) : F.Made (done ++ [n]) s' := by
  intro m hm htakes
  rw [hresults, get?_insert, hr.uniqueName, hlanguage]
  rw [hlanguage] at htakes
  split_ifs with hname
  · exact ⟨n, r, hname, rfl, hr⟩
  · rcases List.mem_append.mp hm with hm | hm
    · exact h m hm htakes
    · exact absurd (congrArg FileNode.name (List.mem_singleton.mp hm)).symm hname

theorem Made.relinked (h : F.Made done s) (hlanguage : s'.language = s.language)
    (hrel : Relinked s.results s'.results) : F.Made done s' := by
  intro n hn htakes
  rw [hlanguage] at htakes ⊢
  obtain ⟨m, r, hname, hget, hr⟩ := h n hn htakes
  have hmem : n.name ∈ s'.results.keys := hrel.keys ▸ mem_keys_iff.mpr ⟨r, hget⟩
  obtain ⟨r', hget'⟩ := mem_keys_iff.mp hmem
  obtain ⟨r₀, imports, hr₀, rfl⟩ := hrel.imports n.name r' hget'
  obtain rfl := Option.some.inj (hget.symm.trans hr₀)
  exact ⟨m, _, hname, hget', hr.relink imports⟩

theorem Made.skip (h : F.Made done s) (hn : ¬ F.Takes s.language n) : F.Made (done ++ [n]) s := by
  intro m hm htakes
  rcases List.mem_append.mp hm with hm | hm
  · exact h m hm htakes
  · obtain rfl := List.mem_singleton.mp hm
    exact absurd htakes hn

end Frame

theorem Scanner.of_linkFiles {t t' : ScanState} (h : linkFiles ctx t = .ok () t') :
    t'.scanner.language = t.scanner.language ∧
    Frame.Relinked t.scanner.results t'.scanner.results := by
  rw [linkFiles, Effect.get_bind] at h
  split at h
  · obtain ⟨-, rfl⟩ := EStateM.Result.ok.inj h
    refine ⟨rfl, ?_⟩
    dsimp only
    refine Frame.Relinked.mapValues (fun key r => ?_) _
    split
    · exact ⟨_, rfl⟩
    · exact ⟨r.imports, rfl⟩
  · obtain ⟨-, rfl⟩ := EStateM.Result.ok.inj h
    exact ⟨rfl, rfl, fun key r hget => ⟨r, r.imports, hget, rfl⟩⟩

/-- Where a program is on its way through the files: there are new results of files of `known` only,
and of all files of `done`. -/
structure Scanning (F : Frame) (known done : List FileNode) (p : Program) : Prop where
  disk : p.session.disk = F.disk
  languages : p.scanners.map Scanner.language = F.languages
  scanners : ∀ s ∈ p.scanners, F.Sound known s.results ∧ F.Made done s
  analysis : ∃ a, p.configuration.analyses[F.index]? = some a ∧ a.settings = F.settings ∧
    a.graphs = F.graphs ∧
    F.Sound known a.results ∧ F.Complete done a.results

namespace Scanning

open Run Effect

variable {F : Frame} {known known' done : List FileNode} {p p' : Program} {n : FileNode}
  {s : Scanner} {a : Analysis}

section
variable (h : Scanning F known done p)
include h

theorem mono (hsub : known ⊆ known') : Scanning F known' done p := by
  obtain ⟨a, ha, hsettings, hgraphs, hsound, hcomplete⟩ := h.analysis
  exact ⟨h.disk, h.languages, fun s hs => (h.scanners s hs).imp_left fun hsound => hsound.mono hsub,
    a, ha, hsettings, hgraphs, hsound.mono hsub, hcomplete⟩

theorem putScanner (hsound : F.Sound known s.results) (hmade : F.Made done s) :
    Scanning F known done (putScanner p s) := by
  refine ⟨h.disk, (languages_putScanner s).trans h.languages, fun t ht => ?_, h.analysis⟩
  rcases mem_putScanner ht with rfl | ⟨ht, -⟩
  · exact ⟨hsound, hmade⟩
  · exact h.scanners t ht

theorem keep {j : Job} (hdisk : j.session.disk = F.disk)
    (hsettings : j.analysis.settings = F.settings) (hgraphs : j.analysis.graphs = F.graphs)
    (hsound : F.Sound known j.analysis.results) (hcomplete : F.Complete done j.analysis.results) :
    Scanning F known done (keep p F.index j) := by
  obtain ⟨a, ha, -⟩ := h.analysis
  exact ⟨hdisk, h.languages, h.scanners, j.analysis, getElem?_keep ha j, hsettings, hgraphs, hsound,
    hcomplete⟩

theorem concat (hmade : ∀ s ∈ p.scanners, F.Made (done ++ [n]) s)
    (ha : p.configuration.analyses[F.index]? = some a)
    (hn : ∀ language, F.Takes language n → n.name ∈ a.results.keys) :
    Scanning F known (done ++ [n]) p := by
  obtain ⟨a', ha', hsettings, hgraphs, hsound, hcomplete⟩ := h.analysis
  obtain rfl := Option.some.inj (ha.symm.trans ha')
  exact ⟨h.disk, h.languages, fun s hs => ⟨(h.scanners s hs).1, hmade s hs⟩, a, ha, hsettings,
    hgraphs, hsound, Frame.complete_concat_iff.mpr ⟨hcomplete, hn⟩⟩

theorem of_scan {α : Type} {x : ScanM α} {v : α}
    (ha : p.configuration.analyses[F.index]? = some a) (hok : scan F.index s x p = .ok v p')
    (hx : ∀ t, x ⟨s, a.statistics⟩ = .ok v t → F.Sound known t.scanner.results ∧
      F.Made done t.scanner) :
    Scanning F known done p' := by
  obtain ⟨a', ha', hsettings, hgraphs, hsound, hcomplete⟩ := h.analysis
  obtain rfl := Option.some.inj (ha.symm.trans ha')
  obtain ⟨t, ht, rfl⟩ := Run.of_scan ha hok
  have hkept : Scanning F known done
      (Run.keep p F.index ⟨p.session, { a with statistics := t.statistics }⟩) :=
    h.keep h.disk hsettings hgraphs hsound hcomplete
  exact hkept.putScanner (hx t ht).1 (hx t ht).2

/-- The scanner of a file is one that takes it; there is none only if no scanner takes it. -/
theorem of_scannerFor (hfile : n.isDirectory = false) {found : Option Scanner}
    (hok : scannerFor F.index n p = .ok found p') : p' = p ∧
      (found = none ∧ (∀ language, ¬ F.Takes language n) ∨ ∃ s ∈ p.scanners, found = some s ∧
        F.Takes s.language n) := by
  obtain ⟨a, ha, hsettings, -⟩ := h.analysis
  have hread : onAnalysis F.index Work.settings p = .ok a.settings p := onAnalysis_read ha rfl
  rw [scannerFor, bind_of_ok hread, hsettings] at hok
  obtain ⟨choice, p₁, hlift, hok⟩ := bind_eq_ok.mp hok
  obtain ⟨hchoice, rfl⟩ := of_lift hlift
  cases choice with
  | none =>
    obtain ⟨rfl, rfl⟩ := EStateM.Result.ok.inj hok
    refine ⟨rfl, .inl ⟨rfl, fun language htakes => ?_⟩⟩
    have := hchoice.symm.trans htakes.chosen
    simp at this
  | some language =>
    obtain ⟨rfl, rfl⟩ := EStateM.Result.ok.inj hok
    refine ⟨rfl, ?_⟩
    cases hfind : p₁.scanners.find? fun s => s.language = language with
    | none =>
      refine .inl ⟨rfl, fun language' htakes => ?_⟩
      obtain rfl : language = language' := by simpa using hchoice.symm.trans htakes.chosen
      have havailable := htakes.available
      rw [← h.languages] at havailable
      obtain ⟨s, hs, hlanguage⟩ := List.mem_map.mp havailable
      exact List.find?_eq_none.mp hfind s hs (by simpa using hlanguage)
    | some s =>
      have hs := List.mem_of_find?_eq_some hfind
      obtain rfl : s.language = language := by simpa using List.find?_some hfind
      exact .inr ⟨s, hs, rfl, hfile, hchoice, h.languages ▸ List.mem_map_of_mem hs⟩

end

theorem skip (h : Scanning F done done p) (hn : ∀ language, ¬ F.Takes language n) :
    Scanning F (done ++ [n]) (done ++ [n]) p := by
  obtain ⟨a, ha, -⟩ := h.analysis
  exact (h.mono (List.subset_append_left done [n])).concat
    (fun s hs => (h.scanners s hs).2.skip (hn _)) ha
    fun language htakes => absurd htakes (hn language)

theorem scanTaken (h : Scanning F done done p) (hsource : F.settings.source = .text F.source)
    (hs : s ∈ p.scanners) (htakes : F.Takes s.language n) {content : String}
    (hcontent : n.content = some content) (hname : Resolve.relativeName F.source n.name = n.name)
    (hok : (do
      let ctx ← onAnalysis F.index Work.context
      let _ ← scan F.index s (Scanner.scanFile ctx ⟨Path.name n.name, n.name, content⟩)
      match ← scanner? s.language with
      | some s => onAnalysis F.index (Work.modifyAnalysis fun a => a.addResults s.results)
      | none => return : Run Unit) p = .ok () p') : Scanning F (done ++ [n]) (done ++ [n]) p' := by
  obtain ⟨a, ha, hsettings, -⟩ := h.analysis
  have hctx : onAnalysis F.index Work.context p =
      .ok ⟨a.id, a.settings, p.session.disk, p.session.knownModules⟩ p :=
    onAnalysis_read ha rfl
  rw [bind_of_ok hctx, hsettings] at hok
  obtain ⟨r, p₁, hscan, hok⟩ := bind_eq_ok.mp hok
  obtain ⟨t, ht, rfl⟩ := Run.of_scan ha hscan
  obtain ⟨⟨package, imports, hr⟩, hscanner⟩ := Scanner.of_scanFile hsource ht
  have hdescribes : Describes F.source s.language n r := hr ▸ .of_blankResult hcontent hname
  have hresults : t.scanner.results = s.results.insert r.uniqueName r := by rw [hscanner]
  have hlanguage : t.scanner.language = s.language := by rw [hscanner]
  have hmono := h.mono (List.subset_append_left done [n])
  have hsound : F.Sound (done ++ [n]) t.scanner.results := by
    rw [hresults]
    exact (hmono.scanners s hs).1.insert (by simp) htakes hdescribes
  have hmade : F.Made (done ++ [n]) t.scanner :=
    (h.scanners s hs).2.insert hlanguage hresults hdescribes
  have h₁ := hmono.of_scan ha hscan fun t' ht' =>
    (EStateM.Result.ok.inj (ht.symm.trans ht')).2 ▸
      ⟨hsound, hmade.mono (List.subset_append_left done [n])⟩
  -- the scanner that is asked for is the one that has just worked
  have havailable : t.scanner.language ∈ p.scanners.map Scanner.language := by
    rw [hlanguage, h.languages]
    exact htakes.available
  have hfind : ∀ j, ((Run.putScanner (Run.keep p F.index j) t.scanner).scanners.find? fun u =>
      u.language = t.scanner.language) = some t.scanner := fun _ => find?_putScanner havailable
  rw [bind_of_ok (scanner?_eq _), ← hlanguage, hfind] at hok
  obtain ⟨a₁, ha₁, hsettings₁, hgraphs₁, hsound₁, hcomplete₁⟩ := h₁.analysis
  obtain ⟨j, hj, rfl⟩ := (onAnalysis_eq_ok ha₁).mp hok
  obtain ⟨-, rfl⟩ := EStateM.Result.ok.inj hj
  have h₂ := h₁.keep (j := ⟨_, a₁.addResults t.scanner.results⟩) h₁.disk hsettings₁ hgraphs₁
    (hsound₁.update hsound)
    fun m hm language hm' => mem_keys_update.mpr (.inl (hcomplete₁ m hm language hm'))
  refine h₂.concat (fun u hu => ?_) (getElem?_keep ha₁ _) fun _ _ => ?_
  · rcases mem_putScanner hu with rfl | ⟨hu, hother⟩
    · exact hmade
    · exact (h.scanners u hu).2.skip fun hu' => hother ((hu'.unique htakes).trans hlanguage.symm)
  · refine mem_keys_update.mpr (.inr (mem_keys_iff.mpr ⟨r, ?_⟩))
    rw [hresults, get?_insert, if_pos hdescribes.uniqueName]

theorem scanNode (h : Scanning F done done p) (hsource : F.settings.source = .text F.source)
    (hname : n.isDirectory = false → Resolve.relativeName F.source n.name = n.name)
    (hok : Run.scanNode F.index n p = .ok () p') : Scanning F (done ++ [n]) (done ++ [n]) p' := by
  rw [Run.scanNode] at hok
  cases hdir : n.isDirectory with
  | true =>
    rw [hdir, if_pos rfl] at hok
    obtain ⟨-, rfl⟩ := EStateM.Result.ok.inj hok
    exact h.skip fun language htakes => by simp [htakes.isFile] at hdir
  | false =>
    rw [hdir, if_neg (by simp)] at hok
    obtain ⟨found, p₁, hfound, hok⟩ := bind_eq_ok.mp hok
    obtain ⟨rfl, ⟨rfl, hnone⟩ | ⟨s, hs, rfl, htakes⟩⟩ := h.of_scannerFor hdir hfound
    · obtain ⟨-, rfl⟩ := EStateM.Result.ok.inj hok
      exact h.skip hnone
    · cases hcontent : n.content with
      | none =>
        rw [hcontent] at hok
        cases hok
      | some content =>
        rw [hcontent] at hok
        exact h.scanTaken hsource hs htakes hcontent (hname hdir) hok

/-! ### Linking the files -/

theorem of_takeImports {rs : Results} {j j' : Job} (h : Work.takeImports rs j = .ok () j') :
    ∃ rs', Frame.Relinked j.analysis.results rs' ∧
      j' = { j with analysis := { j.analysis with results := rs' } } := by
  obtain ⟨-, rfl⟩ := EStateM.Result.ok.inj h
  refine ⟨_, Frame.Relinked.mapValues (fun name r => ?_) _, rfl⟩
  cases rs.get? name with
  | some s => exact ⟨s.imports, rfl⟩
  | none => exact ⟨r.imports, rfl⟩

theorem linkWith (h : Scanning F known done p) (hs : s ∈ p.scanners)
    (hok : Run.linkWith F.index s p = .ok () p') : Scanning F known done p' := by
  obtain ⟨a, ha, -⟩ := h.analysis
  have hctx : onAnalysis F.index Work.context p =
      .ok ⟨a.id, a.settings, p.session.disk, p.session.knownModules⟩ p :=
    onAnalysis_read ha rfl
  rw [Run.linkWith, bind_of_ok hctx] at hok
  obtain ⟨⟨⟩, p₁, hscan, hok⟩ := bind_eq_ok.mp hok
  have h₁ := h.of_scan ha hscan fun t ht =>
    have ⟨hlanguage, hrel⟩ := Scanner.of_linkFiles ht
    ⟨(h.scanners s hs).1.relinked hrel, (h.scanners s hs).2.relinked hlanguage hrel⟩
  rw [bind_of_ok (scanner?_eq _)] at hok
  cases hfind : p₁.scanners.find? fun t => t.language = s.language with
  | none =>
    rw [hfind] at hok
    obtain ⟨-, rfl⟩ := EStateM.Result.ok.inj hok
    exact h₁
  | some t =>
    rw [hfind] at hok
    obtain ⟨a₁, ha₁, hsettings, hgraphs, hsound, hcomplete⟩ := h₁.analysis
    obtain ⟨j, hj, rfl⟩ := (onAnalysis_eq_ok ha₁).mp hok
    obtain ⟨rs, hrel, rfl⟩ := of_takeImports hj
    exact h₁.keep h₁.disk hsettings hgraphs (hsound.relinked hrel)
      fun n hn language htakes => hrel.keys ▸ hcomplete n hn language htakes

theorem eachBusy {f : Scanner → Run Unit}
    (hf : ∀ p p' s, Scanning F known done p → s ∈ p.scanners → f s p = .ok () p' →
      Scanning F known done p')
    (h : Scanning F known done p) (hok : Run.eachBusy f p = .ok () p') :
    Scanning F known done p' := by
  obtain ⟨languages, p₁, hbusy, hok⟩ := bind_eq_ok.mp hok
  obtain ⟨-, rfl⟩ := EStateM.Result.ok.inj hbusy
  refine forM_induction (I := fun _ p => Scanning F known done p) [] ?_ h hok
  intro _ language _ p p' h hok
  rw [bind_of_ok (scanner?_eq _)] at hok
  cases hfind : p.scanners.find? fun s => s.language = language with
  | none =>
    rw [hfind] at hok
    obtain ⟨-, rfl⟩ := EStateM.Result.ok.inj hok
    exact h
  | some s =>
    rw [hfind] at hok
    exact hf p p' s h (List.mem_of_find?_eq_some hfind) hok

/-! ### Scanning all files -/

theorem withSession (h : Scanning F known done p) {session : Session}
    (hdisk : session.disk = F.disk) : Scanning F known done { p with session := session } :=
  ⟨hdisk, h.languages, h.scanners, h.analysis⟩

theorem scanFiles {view : GraphView} (h : Scanning F [] [] p)
    (hsource : F.settings.source = .text F.source) (hview : F.graphs.get? .fileSystem = some view)
    (hnames : ∀ n ∈ view.fileNodes.values, n.isDirectory = false →
      Resolve.relativeName F.source n.name = n.name)
    (hok : Run.scanFiles F.index p = .ok () p') :
    Scanning F view.fileNodes.values view.fileNodes.values p' := by
  obtain ⟨a, ha, -, hgraphs, -⟩ := h.analysis
  have hread : onAnalysis F.index Work.analysis p = .ok a p := onAnalysis_read ha rfl
  rw [Run.scanFiles, bind_of_ok hread, hgraphs, hview] at hok
  obtain ⟨⟨⟩, p₁, hlog, hok⟩ := bind_eq_ok.mp hok
  have h₁ : Scanning F [] [] p₁ := by
    obtain ⟨-, rfl⟩ := EStateM.Result.ok.inj hlog
    exact h.withSession h.disk
  obtain ⟨session, p₂, hsession, hok⟩ := bind_eq_ok.mp hok
  obtain ⟨rfl, rfl⟩ := EStateM.Result.ok.inj hsession
  obtain ⟨⟨⟩, p₃, hscan, hok⟩ := bind_eq_ok.mp hok
  have h₃ : Scanning F view.fileNodes.values view.fileNodes.values p₃ :=
    forM_induction (I := fun done p => Scanning F done done p) []
      (fun done n hn p p' h hok => h.scanNode hsource (hnames n hn) hok) h₁ hscan
  obtain ⟨⟨⟩, p₄, hlink, hok⟩ := bind_eq_ok.mp hok
  have h₄ := h₃.eachBusy (fun p p' s h hs hok => h.linkWith hs hok) hlink
  obtain ⟨session', p₅, hsession', hok⟩ := bind_eq_ok.mp hok
  obtain ⟨rfl, rfl⟩ := EStateM.Result.ok.inj hsession'
  obtain ⟨a₄, ha₄, hsettings, hgraphs, hsound, hcomplete⟩ := h₄.analysis
  obtain ⟨j, hj, rfl⟩ := (onAnalysis_eq_ok ha₄).mp hok
  obtain ⟨-, rfl⟩ := EStateM.Result.ok.inj hj
  exact h₄.keep h₄.disk hsettings hgraphs hsound hcomplete

end Scanning

end CodeAtlas
