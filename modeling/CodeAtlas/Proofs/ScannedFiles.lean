import CodeAtlas.Proofs.FileGraph
import Mathlib.Data.Set.Card

/-!
# Which files are scanned

A walk through a regular project records the files that it scans three times: in one list of names,
in a list of names for each directory, and as a number beside that of the files it skips. The three
agree: the lists of the directories are a partition of the list of all names
(`Regular.filesIn_of_walk`, `flatten_values_foldl_fileUnder`), and the two numbers add up to the
number of files that are visited (`Regular.encard_visits`). `Survey.Wanted` says for lists as
filters, in terms of the lists alone, which files these are.
-/

namespace CodeAtlas

namespace Survey

open FileTree Resolve

variable {disk : Disk} {f : Filters} {source name dir : String} {ns ms names : List String}
  {ls : List Listing} {s s' : Survey}

namespace Regular

/-! ### The recorded names -/

section
variable (h : Regular disk f source)
include h

/-- The names that are recorded are those of scanned files, each with that of its directory. -/
theorem mem_scannedEntries (hls : listings disk f source = .ok ls) {entry : String × String} :
    entry ∈ scannedEntries source (events disk f ls) ↔
      ∃ ns base, Scans disk f source ns base ∧
        entry = (nodeName source ns, nodeName source (ns ++ [base])) := by
  rw [scannedEntries, List.mem_filterMap]
  constructor
  · rintro ⟨e, he, hentry⟩
    rcases (h.mem_events hls).mp he with ⟨ns, base, -, rfl⟩ | ⟨ns, base, hvisits, rfl⟩
    · cases hentry
    · rw [fileEvent, ← Path.descend_concat] at hentry
      split_ifs at hentry with hscans
      · obtain rfl := Option.some.inj hentry
        rw [Event.path, Event.root, Event.name, ← Path.descend_concat]
        exact ⟨ns, base, ⟨hvisits, hscans⟩, rfl⟩
      · cases hentry
  · rintro ⟨ns, base, hscans, rfl⟩
    refine ⟨_, (h.mem_events hls).mpr (.inr ⟨ns, base, hscans.toVisits, rfl⟩), ?_⟩
    rw [fileEvent, ← Path.descend_concat, if_pos hscans.scans, Event.scanned?, Event.path,
      Event.root, Event.name, ← Path.descend_concat]
    rfl

theorem nodup_scannedEntries (hls : listings disk f source = .ok ls) :
    ((scannedEntries source (events disk f ls)).map Prod.snd).Nodup := by
  rw [scannedEntries, List.Nodup, List.pairwise_map, List.pairwise_filterMap]
  refine (h.pairwise_names hls).imp ?_
  intro e e' hne entry hentry entry' hentry' heq
  rw [Event.eq_of_scanned? hentry, Event.eq_of_scanned? hentry'] at heq
  exact hne heq

theorem records_of_walk (hls : listings disk f source = .ok ls) {view : GraphView}
    (hwalk : walk disk f source ⟨view, [], ∅, 0, 0⟩ = .ok () s) :
    s.scannedNames = (scannedEntries source (events disk f ls)).map Prod.snd ∧
    s.filesIn = (scannedEntries source (events disk f ls)).foldl fileUnder ∅ ∧
    s.scanned + s.skipped = ((events disk f ls).filter Event.isFile).length := by
  have hnormal : ∀ e ∈ events disk f ls, e.Normal := fun e he => h.normal_event hls he
  obtain ⟨-, rfl⟩ := (h.walk_eq_ok_iff hls).mp hwalk
  refine ⟨?_, filesIn_foldl_record hnormal, ?_⟩
  · rw [scannedNames_foldl_record hnormal]
    exact foldl_noteName (h.nodup_scannedEntries hls)
  · rw [scanned_foldl_record hnormal, skipped_foldl_record hnormal, length_filter_isFile source]
    simp only [addDirectory]
    omega

/-- The list of a directory holds the scanned files in it, and only directories with such files have
one. -/
theorem filesIn_of_walk (hls : listings disk f source = .ok ls)
    (hget : ((scannedEntries source (events disk f ls)).foldl fileUnder ∅).get? dir = some names) :
    names ≠ [] ∧ ∃ ns, Enters disk f source ns ∧ dir = nodeName source ns ∧
      ∀ name, name ∈ names ↔ ∃ base, Scans disk f source ns base ∧
        name = nodeName source (ns ++ [base]) := by
  have hnames : names = ((scannedEntries source (events disk f ls)).filter fun entry => entry.1 ==
      dir).map Prod.snd := by
    have := getD_foldl_fileUnder (scannedEntries source (events disk f ls)) ∅ dir
    rw [OrderedMap.getD_eq, hget] at this
    exact this
  have hmem : ∀ name, name ∈ names ↔ (dir, name) ∈ scannedEntries source (events disk f ls) := by
    intro name
    rw [hnames]
    simp
  have hkey := mem_keys_foldl_fileUnder.mp (OrderedMap.mem_keys_iff.mpr ⟨names, hget⟩)
  obtain ⟨entry, hentry, rfl⟩ := List.mem_map.mp (hkey.resolve_left (by simp))
  obtain ⟨ns, base, hscans, rfl⟩ := (h.mem_scannedEntries hls).mp hentry
  have henters := hscans.toVisits.enters
  refine ⟨List.ne_nil_of_mem ((hmem _).mpr hentry), ns, henters, rfl, fun name => ?_⟩
  rw [hmem, h.mem_scannedEntries hls]
  constructor
  · rintro ⟨ms, base', hscans', heq⟩
    obtain ⟨hdir, rfl⟩ := Prod.mk.inj heq
    -- the directory is told by its name
    have hplace : ns = ms :=
      h.place_injective (.of_enters (.inr henters)) (.of_enters (.inr hscans'.toVisits.enters)) hdir
    exact ⟨base', hplace ▸ hscans', hplace ▸ rfl⟩
  · rintro ⟨base', hscans', rfl⟩
    exact ⟨ns, base', hscans', rfl⟩

theorem encard_visits (hls : listings disk f source = .ok ls) :
    {p : List String × String | Visits disk f source p.1 p.2}.encard =
      ((events disk f ls).filter Event.isFile).length := by
  have hnd : (((events disk f ls).filter Event.isFile).map Event.path).Nodup :=
    (h.nodup_paths hls).sublist (List.filter_sublist.map _)
  have hinj : Set.InjOn (fun p : List String × String => Path.descend source (p.1 ++ [p.2]))
      {p | Visits disk f source p.1 p.2} := by
    rintro ⟨ns, base⟩ ⟨⟨content, hfile⟩, -, -⟩ ⟨ms, base'⟩ ⟨⟨content', hfile'⟩, -, -⟩ heq
    have := h.normal.descend_injective (h.pathNames hfile) (h.pathNames hfile') heq
    simpa using this
  have himage : (fun p : List String × String => Path.descend source (p.1 ++ [p.2])) ''
      {p | Visits disk f source p.1 p.2} =
      {path | path ∈ ((events disk f ls).filter Event.isFile).map Event.path} := by
    ext path
    simp only [Set.mem_image, Set.mem_ofPred_eq, List.mem_map]
    constructor
    · rintro ⟨⟨ns, base⟩, hvisits, rfl⟩
      refine ⟨_, List.mem_filter.mpr
        ⟨(h.mem_events hls).mpr (.inr ⟨ns, base, hvisits, rfl⟩), isFile_fileEvent⟩, ?_⟩
      rw [path_fileEvent, Path.descend_concat]
    · rintro ⟨e, he, rfl⟩
      obtain ⟨he, hfile⟩ := List.mem_filter.mp he
      rcases (h.mem_events hls).mp he with ⟨ns, base, -, rfl⟩ | ⟨ns, base, hvisits, rfl⟩
      · cases hfile
      · exact ⟨(ns, base), hvisits, by rw [path_fileEvent, Path.descend_concat]⟩
  rw [← hinj.encard_image, himage, ← List.coe_toFinset, Set.encard_coe_eq_coe_finsetCard,
    List.toFinset_card_of_nodup hnd, List.length_map]

end

end Regular

/-! ### Lists as filters -/

/-- A file below the source directory that lists as filters let through: no directory on the way to
it is ignored, no ignored part occurs in its name, it is one of the permitted paths if only these
are scanned, and its extension is permitted and that of a kind of source file. -/
structure Wanted (disk : Disk) (source : String) (ignoredDirs ignoredParts : List String)
    (filesOnly : Bool) (paths extensions : List String) (ns : List String) (base : String) :
    Prop where
  isFile : ∃ content, Holds disk source (ns ++ [base]) (.file content)
  dirs : ∀ dir ∈ ns, dir ∉ ignoredDirs
  parts : ∀ part ∈ ignoredParts, ¬ part.toList <:+: base.toList
  listed : filesOnly = true → Path.descend source (ns ++ [base]) ∈ paths
  permitted : Path.extension (Path.descend source (ns ++ [base])) ∈ extensions
  known : ∃ kind : FileKind, kind.extension = Path.extension (Path.descend source (ns ++ [base]))

variable {ignoredDirs ignoredParts paths extensions : List String} {base : String}

theorem visits_iff (hf : f.Lists ignoredDirs ignoredParts paths extensions) :
    Visits disk f source ns base ↔
    (∃ content, Holds disk source (ns ++ [base]) (.file content)) ∧
    (∀ dir ∈ ns, dir ∉ ignoredDirs) ∧
      ∀ part ∈ ignoredParts, ¬ part.toList <:+: base.toList := by
  constructor
  · rintro ⟨hfile, hkept, hkeep⟩
    exact ⟨hfile, fun dir hdir => (keepsDirectory_iff hf dir).mp (hkept dir hdir),
      (keepsFile_iff hf base).mp hkeep⟩
  · rintro ⟨hfile, hdirs, hparts⟩
    exact ⟨hfile, fun dir hdir => (keepsDirectory_iff hf dir).mpr (hdirs dir hdir),
      (keepsFile_iff hf base).mpr hparts⟩

theorem scans_iff_wanted (hf : f.Lists ignoredDirs ignoredParts paths extensions) :
    Scans disk f source ns base ↔
    Wanted disk source ignoredDirs ignoredParts f.filesOnly paths extensions ns base := by
  constructor
  · rintro ⟨hvisits, hscans⟩
    obtain ⟨hfile, hdirs, hparts⟩ := (visits_iff hf).mp hvisits
    obtain ⟨hlisted, hpermitted, hknown⟩ := (scans_iff hf _).mp hscans
    exact ⟨hfile, hdirs, hparts, hlisted, hpermitted, hknown⟩
  · rintro ⟨hfile, hdirs, hparts, hlisted, hpermitted, hknown⟩
    exact ⟨(visits_iff hf).mpr ⟨hfile, hdirs, hparts⟩,
      (scans_iff hf _).mpr ⟨hlisted, hpermitted, hknown⟩⟩

end Survey

namespace Work

open Survey FileTree

/-- A first walk with lists as filters ends well whenever the paths of the files to scan are short
enough to be opened, and if it does, it has recorded exactly the files that the lists let through:
their names, once each, the names in each directory, which are a partition of them, and numbers of
scanned and of skipped files that add up to the number of the files that are neither in an ignored
directory nor have an ignored part in their name. -/
theorem surveyFiles_scannedNames (j : Job) (source : String) (view : GraphView)
    (ignoredDirs ignoredParts paths extensions : List String)
    (hsource : j.analysis.settings.source = .text source)
    (hview : j.analysis.graphs.get? .fileSystem = some view)
    (hnames : j.analysis.scannedNames = []) (hfilesIn : j.analysis.filesIn = ∅)
    (hscanned : j.analysis.statistics.entries.get? StatisticKey.scannedFiles.name = none)
    (hskipped : j.analysis.statistics.entries.get? StatisticKey.skippedFiles.name = none)
    (hf : j.analysis.settings.filters.Lists ignoredDirs ignoredParts paths extensions)
    (h : Regular j.session.disk j.analysis.settings.filters source) :
    ((∀ ns base, Wanted j.session.disk source ignoredDirs ignoredParts
      j.analysis.settings.filters.filesOnly paths
        extensions ns base → (Path.descend source (ns ++ [base])).utf8ByteSize < maxPath) →
      ∃ j', surveyFiles j = .ok () j') ∧
    ∀ j', surveyFiles j = .ok () j' →
      j'.analysis.scannedNames.Nodup ∧
      (∀ name, name ∈ j'.analysis.scannedNames ↔
        ∃ ns base, Wanted j.session.disk source ignoredDirs ignoredParts
          j.analysis.settings.filters.filesOnly paths
          extensions ns base ∧ name = nodeName source (ns ++ [base])) ∧
      j'.analysis.filesIn.values.flatten.Perm j'.analysis.scannedNames ∧
      (∀ dir names, j'.analysis.filesIn.get? dir = some names → names ≠ [] ∧
        ∃ ns, dir = nodeName source ns ∧
        ∀ name, name ∈ names ↔
          ∃ base, Wanted j.session.disk source ignoredDirs ignoredParts
            j.analysis.settings.filters.filesOnly paths
            extensions ns base ∧ name = nodeName source (ns ++ [base])) ∧
      ∃ scanned skipped : Nat,
        j'.analysis.statistics.entries.get? StatisticKey.scannedFiles.name =
          some (.figure (.int scanned)) ∧
        j'.analysis.statistics.entries.get? StatisticKey.skippedFiles.name =
          some (.figure (.int skipped)) ∧
        {p : List String × String | (∃ content,
          Holds j.session.disk source (p.1 ++ [p.2]) (.file content)) ∧
          (∀ dir ∈ p.1, dir ∉ ignoredDirs) ∧
          ∀ part ∈ ignoredParts, ¬ part.toList <:+: p.2.toList}.encard =
          (scanned + skipped : Nat) := by
  refine ⟨fun hlen => ?_, fun j' hok => ?_⟩
  · obtain ⟨s, hwalk⟩ :=
      h.exists_walk hf (fun ns base hscans => hlen ns base ((scans_iff_wanted hf).mp hscans))
      ⟨view, j.analysis.scannedNames, j.analysis.filesIn, 0, 0⟩
    exact ⟨_, (surveyFiles_eq_ok_iff hsource hview).mpr ⟨s, hwalk, rfl⟩⟩
  obtain ⟨ls, hls⟩ := h.exists_listings j.analysis.settings.filters
  obtain ⟨s, hwalk, rfl⟩ := (surveyFiles_eq_ok_iff hsource hview).mp hok
  rw [hnames, hfilesIn] at hwalk
  obtain ⟨hsnames, hsfiles, hcount⟩ := h.records_of_walk hls hwalk
  refine ⟨?nodup, ?names, ?partition, ?directories, s.scanned, s.skipped,
    (statistics_surveyed s hscanned hskipped).1,
    (statistics_surveyed s hscanned hskipped).2, ?count⟩
  case nodup =>
    change s.scannedNames.Nodup
    rw [hsnames]
    exact h.nodup_scannedEntries hls
  case names =>
    intro name
    change name ∈ s.scannedNames ↔ _
    rw [hsnames, List.mem_map]
    constructor
    · rintro ⟨entry, hentry, rfl⟩
      obtain ⟨ns, base, hscans, rfl⟩ := (h.mem_scannedEntries hls).mp hentry
      exact ⟨ns, base, (scans_iff_wanted hf).mp hscans, rfl⟩
    · rintro ⟨ns, base, hwanted, rfl⟩
      exact ⟨_, (h.mem_scannedEntries hls).mpr ⟨ns, base, (scans_iff_wanted hf).mpr hwanted, rfl⟩,
        rfl⟩
  case partition =>
    change s.filesIn.values.flatten.Perm s.scannedNames
    rw [hsnames, hsfiles]
    exact flatten_values_foldl_fileUnder _ ∅
  case directories =>
    intro dir names hget
    change s.filesIn.get? dir = some names at hget
    rw [hsfiles] at hget
    obtain ⟨hne, ns, -, hdir, hmem⟩ := h.filesIn_of_walk hls hget
    refine ⟨hne, ns, hdir, fun name => ?_⟩
    rw [hmem]
    simp only [scans_iff_wanted hf]
  case count =>
    rw [hcount, ← h.encard_visits hls]
    simp only [visits_iff hf]

end Work

theorem Sample.surveyFiles_scannedNames_sample : ∃ j', Work.surveyFiles Sample.job = .ok () j' ∧
    "proj/sub/b.h" ∈ j'.analysis.scannedNames ∧
    j'.analysis.filesIn.values.flatten.Perm j'.analysis.scannedNames := by
  have hname : Survey.nodeName "/w/proj" (["sub"] ++ ["b.h"]) = "proj/sub/b.h" := by decide
  obtain ⟨hends, hrecords⟩ :=
    Work.surveyFiles_scannedNames job "/w/proj" (.new .fileSystem) ["build"] [] [] [".c", ".h"]
    rfl rfl rfl rfl rfl rfl lists regular
  obtain ⟨j', hok⟩ :=
    hends fun ns base hwanted => scans_short ns base ((Survey.scans_iff_wanted lists).mpr hwanted)
  obtain ⟨-, hnames, hperm, -⟩ := hrecords j' hok
  exact ⟨j', hok, (hnames _).mpr
    ⟨["sub"], "b.h", (Survey.scans_iff_wanted lists).mp scans_header, hname.symm⟩, hperm⟩

end CodeAtlas
