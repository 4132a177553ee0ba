import CodeAtlas.Proofs.Maps
import CodeAtlas.Proofs.Places

/-!
# Walks that end well

Filters that are lists of texts answer every question, and `Filters.Lists` says what they answer.
With such filters the walk through a regular project ends well, provided that no file to be read has
a path longer than a file system takes (`Regular.exists_walk`). `Work.surveyFiles_eq_ok_iff` carries
this over to the work on an analysis.
-/

namespace CodeAtlas

/-! ### Filters that are lists -/

namespace Value

theorem beq_text (a b : String) : (Value.text a == Value.text b) = (a == b) := by
  change same (.text a) (.text b) = (a == b)
  rw [same]
  rfl

theorem hasText_ofStrings (names : List String) (s : String) :
    (ofStrings names).hasText s = .ok (names.contains s) := by
  rw [hasText, ofStrings, hasMember, List.any_map, List.contains_eq_any_beq]
  congr 2
  funext name
  exact (beq_text name s).trans Bool.beq_comm

theorem membersIfAny_ofStrings (names : List String) :
    (ofStrings names).membersIfAny = .ok (names.map .text) := by
  cases names with
  | nil => rfl
  | cons name names => rfl

end Value

/-- The filters on files and directories are lists of texts. -/
structure Filters.Lists (f : Filters) (ignoredDirs ignoredParts paths extensions : List String) :
    Prop where
  ignoredDirectories : f.ignoredDirectories = .ofStrings ignoredDirs
  ignoredFiles : f.ignoredFiles = .ofStrings ignoredParts
  files : f.files = .ofStrings paths
  extensions : f.extensions = .ofStrings extensions

namespace Filters.Lists

variable {f : Filters} {ignoredDirs ignoredParts paths extensions : List String}

theorem ignoresDirectory_eq (h : f.Lists ignoredDirs ignoredParts paths extensions)
    (name : String) : f.ignoresDirectory name = .ok (ignoredDirs.contains name) := by
  rw [ignoresDirectory, h.ignoredDirectories, Value.hasText_ofStrings]
  cases ignoredDirs with
  | nil => rfl
  | cons dir dirs => rfl

theorem occurs_map_text (s : List Char) (parts : List String) :
    occurs s (parts.map .text) = .ok (parts.any fun part => Chars.contains part.toList s) := by
  induction parts with
  | nil => rfl
  | cons part parts ih =>
    rw [List.map_cons, occurs, ih, List.any_cons]
    split_ifs with hpart
    · rw [hpart]
      rfl
    · rw [Bool.not_eq_true] at hpart
      rw [hpart]
      rfl

section
variable (h : f.Lists ignoredDirs ignoredParts paths extensions)
include h

theorem ignoresFile_eq (name : String) :
    f.ignoresFile name =
      .ok (ignoredParts.any fun part => Chars.contains part.toList name.toList) := by
  rw [ignoresFile, h.ignoredFiles, Value.membersIfAny_ofStrings]
  exact occurs_map_text name.toList ignoredParts

theorem allowsFile_eq (path : String) :
    f.allowsFile path = .ok (!f.filesOnly || paths.contains path) := by
  rw [allowsFile, h.files, Value.hasText_ofStrings]
  cases f.filesOnly <;> rfl

theorem allowsExtension_eq (ext : String) :
    f.allowsExtension ext = .ok (extensions.contains ext) := by
  rw [allowsExtension, h.extensions, Value.hasText_ofStrings]

end

end Filters.Lists

namespace Survey

open Effect FileTree

variable {disk : Disk} {f : Filters} {source : String}
  {ignoredDirs ignoredParts paths extensions : List String}

/-! ### What lists keep -/

theorem keepsDirectory_iff (h : f.Lists ignoredDirs ignoredParts paths extensions) (name : String) :
    keepsDirectory f name = true ↔ name ∉ ignoredDirs := by
  simp [keepsDirectory, h.ignoresDirectory_eq, Except.toOption]

theorem keepsFile_iff (h : f.Lists ignoredDirs ignoredParts paths extensions) (name : String) :
    keepsFile f name = true ↔ ∀ part ∈ ignoredParts, ¬ part.toList <:+: name.toList := by
  simp [keepsFile, h.ignoresFile_eq, Except.toOption, Chars.contains_eq_false_iff]

theorem isSome_ofExtension?_iff (ext : String) :
    (FileKind.ofExtension? ext).isSome = true ↔ ∃ kind : FileKind, kind.extension = ext := by
  simp only [FileKind.ofExtension?, List.find?_isSome, beq_iff_eq]
  constructor
  · rintro ⟨kind, -, hkind⟩
    exact ⟨kind, hkind⟩
  · rintro ⟨kind, hkind⟩
    exact ⟨kind, by cases kind <;> decide, hkind⟩

theorem scans_iff (h : f.Lists ignoredDirs ignoredParts paths extensions) (path : String) :
    scans f path = true ↔
    (f.filesOnly = true → path ∈ paths) ∧ Path.extension path ∈ extensions ∧
      ∃ kind : FileKind, kind.extension = Path.extension path := by
  rw [← isSome_ofExtension?_iff]
  simp only [scans, h.allowsFile_eq, h.allowsExtension_eq, affirms, Bool.and_eq_true,
    Bool.or_eq_true, Bool.not_eq_true', List.contains_eq_mem, decide_eq_true_eq]
  cases f.filesOnly <;> simp

/-! ### The walk -/

variable {ns : List String} {name : String} {ls : List Listing} {s s' : Survey}

theorem size_lt_of_readSource {path text : String} (h : readSource disk path = .ok text) :
    path.utf8ByteSize < maxPath := by
  rw [readSource, Disk.read] at h
  cases hloc : disk.tree.locate disk.cwd path true with
  | error o =>
    rw [hloc] at h
    cases h
  | ok place => exact size_lt_of_locate hloc

namespace Regular

section
variable (h : Regular disk f source)
include h

theorem target?_eq (path : String) : target? disk path = some path := by
  rw [target?, h.plain.not_pathIsLink]
  rfl

theorem readSource_eq {content : ByteArray} (hfile : Holds disk source ns (.file content))
    (hlen : (Path.descend source ns).utf8ByteSize < maxPath) :
    readSource disk (Path.descend source ns) = .ok (Text.ofLatin1 content) := by
  obtain ⟨place, hne, hnames, rfl, hget⟩ := h.get?_of_holds hfile
  have hspells := spells_pathOf (by simp [hne]) (h.plain.pathNames hget)
  rw [Path.descend_pathOf hnames (h.pathNames hfile)] at hlen ⊢
  rw [readSource, Disk.read, h.plain.locate_eq hget (by simp [hne]) hspells hlen]
  simp only [hget]
  rfl

theorem walk_eq_ok_iff (hls : listings disk f source = .ok ls) :
    walk disk f source s = .ok () s' ↔ (∀ l ∈ ls, ListingReady disk f l) ∧
      s' = (events disk f ls).foldl (record source) (s.addDirectory (nodeName source [])) :=
  Survey.walk_eq_ok_iff hls fun _ _ _ _ => h.target?_eq _

/-- A walk that ends well has read every file that it scans, so their paths were short enough. -/
theorem size_lt_of_walk (hwalk : walk disk f source s = .ok () s')
    (hscans : Scans disk f source ns name) :
    (Path.descend source (ns ++ [name])).utf8ByteSize < maxPath := by
  obtain ⟨hready, -⟩ := (h.walk_eq_ok_iff (h.listings_eq f)).mp hwalk
  obtain ⟨content, hfile⟩ := hscans.isFile
  obtain ⟨es, hdir, hl⟩ := holds_concat_iff.mp hfile
  have hlisted := (h.mem_listings (h.listings_eq f)).mpr ⟨ns, es, hdir, hscans.kept, rfl⟩
  have hname : name ∈ (Listing.ofDir (Path.descend source ns) es).files :=
    (h.plain_of_holds hdir).mem_files_ofDir.mpr ⟨content, hl⟩
  have hfileReady := (hready _ hlisted).ready name hname hscans.keptFile
  have hpath : Path.join (Listing.ofDir (Path.descend source ns) es).root name =
      Path.descend source (ns ++ [name]) :=
    (Path.descend_concat ..).symm
  rw [hpath] at hfileReady
  obtain ⟨text, hread⟩ := hfileReady.readable hscans.scans
  exact size_lt_of_readSource hread

/-- With lists as filters the walk ends well if the paths of the files that it scans are short
enough. -/
theorem exists_walk (hf : f.Lists ignoredDirs ignoredParts paths extensions)
    (hlen : ∀ ns name, Scans disk f source ns name →
      (Path.descend source (ns ++ [name])).utf8ByteSize < maxPath)
    (s : Survey) : ∃ s', walk disk f source s = .ok () s' := by
  refine ⟨_, (h.walk_eq_ok_iff (h.listings_eq f)).mpr ⟨fun l hl => ?_, rfl⟩⟩
  obtain ⟨ns, es, hdir, hkept, rfl⟩ := (h.mem_listings (h.listings_eq f)).mp hl
  refine ⟨fun n _ => ⟨_, hf.ignoresDirectory_eq n⟩, fun n _ => ⟨_, hf.ignoresFile_eq n⟩,
    fun n hn hkeep => ?_⟩
  obtain ⟨content, hl⟩ := (h.plain_of_holds hdir).mem_files_ofDir.mp hn
  have hfile : Holds disk source (ns ++ [n]) (.file content) := holds_concat_iff.mpr ⟨es, hdir, hl⟩
  have hvisits : Visits disk f source ns n := ⟨⟨content, hfile⟩, hkept, hkeep⟩
  have hpath : Path.join (Listing.ofDir (Path.descend source ns) es).root n =
      Path.descend source (ns ++ [n]) :=
    (Path.descend_concat ..).symm
  rw [hpath]
  exact ⟨⟨_, hf.allowsFile_eq _⟩, fun _ => ⟨_, hf.allowsExtension_eq _⟩,
    fun hscans => ⟨_, h.readSource_eq hfile (hlen ns n ⟨hvisits, hscans⟩)⟩⟩

end

end Regular

end Survey

/-! ### The work on an analysis -/

namespace Work

open Effect

variable {j j' : Job} {source : String} {view : GraphView}

def surveyLog (a : Analysis) (source : String) (log : Log) : Log :=
  (log.write .analysis .start
    ("starting to create filesystem graph in " ++ a.settings.name.display)).write .analysis .info
    ("starting scan at directory: " ++ (Value.text (Path.truncate source)).display)

def surveyed (j : Job) (source : String) (s : Survey) : Job :=
  { session := { j.session with log := surveyLog j.analysis source j.session.log }
    analysis :=
      { j.analysis.setGraph s.view with
        scannedNames := s.scannedNames
        filesIn := s.filesIn
        statistics :=
          ((j.analysis.statistics.add .scanningRuntime
            (.duration ⟨j.session.now - j.session.now⟩)).add .scannedFiles
            (.figure (.int s.scanned))).add .skippedFiles (.figure (.int s.skipped)) } }

theorem statistics_surveyed (s : Survey)
    (hscanned : j.analysis.statistics.entries.get? StatisticKey.scannedFiles.name = none)
    (hskipped : j.analysis.statistics.entries.get? StatisticKey.skippedFiles.name = none) :
    (surveyed j source s).analysis.statistics.entries.get? StatisticKey.scannedFiles.name =
      some (.figure (.int s.scanned)) ∧
    (surveyed j source s).analysis.statistics.entries.get? StatisticKey.skippedFiles.name =
      some (.figure (.int s.skipped)) := by
  simp only [surveyed, Statistics.add, Statistics.addNamed, OrderedMap.get?_insertNew, hscanned,
    hskipped]
  exact ⟨rfl, rfl⟩

theorem log_bind {β : Type} (source : LogSource) (kind : LogKind) (message : String)
    (f : Unit → Work β) (j : Job) : (log source kind message >>= f) j =
      f ()
        { j with session := { j.session with log := j.session.log.write source kind message } } :=
  rfl

theorem lift_ok_bind {α β : Type} (a : α) (f : α → Work β) (j : Job) :
    (lift (.ok a) >>= f) j = f a j := rfl

theorem surveyFiles_eq_ok_iff (hsource : j.analysis.settings.source = .text source)
    (hgraph : j.analysis.graphs.get? .fileSystem = some view) :
    surveyFiles j = .ok () j' ↔ ∃ s, Survey.walk j.session.disk j.analysis.settings.filters source
        ⟨view, j.analysis.scannedNames, j.analysis.filesIn, 0, 0⟩ = .ok () s ∧
        j' = surveyed j source s := by
  have hpath : j.analysis.settings.sourcePath = .ok source := by rw [Settings.sourcePath, hsource]
  rw [surveyFiles, get_bind]
  simp only [hsource, hpath, hgraph, Survey.shortPath, Value.isNull, Bool.false_eq_true, if_false]
  rw [log_bind, lift_ok_bind, log_bind, lift_ok_bind]
  cases hwalk : Survey.walk j.session.disk j.analysis.settings.filters source
      ⟨view, j.analysis.scannedNames, j.analysis.filesIn, 0, 0⟩ with
  | error e s =>
    constructor
    · intro h
      cases h
    · rintro ⟨s', h, -⟩
      cases h
  | ok u s =>
    change EStateM.Result.ok () (surveyed j source s) = .ok () j' ↔ _
    simp [eq_comm]

end Work

end CodeAtlas
