import CodeAtlas.Proofs.Events
import CodeAtlas.Proofs.Listings

/-!
# The places that a walk visits

A place below the source directory is the list of the names that lead there. The walk enters a
directory if none of these names is ignored (`Survey.Enters`), and it visits the files in it whose
own name is not ignored (`Survey.Visits`). `Survey.Regular` gathers what is asked of a project: its
source directory is given in normal form, there are no links, and the parent of the source directory
stands in the visited paths at their start only. In such a project the events of the walk are
exactly those of these places (`Regular.mem_events`), and no two of them are about one path
(`Regular.nodup_paths`) or one name (`Regular.pairwise_names`).
-/

namespace CodeAtlas.Survey

open Effect FileTree Resolve

/-! ### Places -/

/-- What is at a place below the source directory. -/
def Holds (disk : Disk) (source : String) (ns : List String) (t : FileTree) : Prop :=
  ∃ d, disk.tree.stat? disk.cwd source = some d ∧ d.get? ns = some t

/-- The walk enters the directory at a place: no name on the way to it is ignored. -/
structure Enters (disk : Disk) (f : Filters) (source : String) (ns : List String) : Prop where
  isDir : ∃ es, Holds disk source ns (.dir es)
  kept : ∀ n ∈ ns, keepsDirectory f n = true

/-- The walk visits the file of a name in the directory at a place. -/
structure Visits (disk : Disk) (f : Filters) (source : String) (ns : List String) (name : String) :
    Prop where
  isFile : ∃ content, Holds disk source (ns ++ [name]) (.file content)
  kept : ∀ n ∈ ns, keepsDirectory f n = true
  keptFile : keepsFile f name = true

/-- The walk scans the file of a name in the directory at a place. -/
structure Scans (disk : Disk) (f : Filters) (source : String) (ns : List String) (name : String) :
    Prop
    extends Visits disk f source ns name where
  scans : scans f (Path.descend source (ns ++ [name])) = true

/-- A source directory in normal form on a disk without links. -/
structure Tidy (disk : Disk) (source : String) : Prop where
  normal : Path.Normal source
  plain : disk.tree.Plain

/-- A project in a tidy source directory whose parent stands in the visited paths at their start
only. -/
structure Regular (disk : Disk) (f : Filters) (source : String) :
    Prop extends Tidy disk source where
  dirs : ∀ ns, Enters disk f source ns →
    Text.OnlyAtStart (parentSlash source) (Path.descend source ns)
  files : ∀ ns name, Visits disk f source ns name →
    Text.OnlyAtStart (parentSlash source) (Path.descend source (ns ++ [name]))

variable {disk : Disk} {f : Filters} {source name : String} {ns ms : List String} {t : FileTree}
  {ls : List Listing} {l : Listing} {e : Event}

namespace Tidy

theorem get?_of_holds (h : Tidy disk source) (ht : Holds disk source ns t) :
    ∃ place, place ≠ [] ∧ (∀ n ∈ place, PathName n) ∧ source = pathOf place ∧
      disk.tree.get? (place ++ ns) = some t := by
  obtain ⟨place, hne, hnames, rfl⟩ := h.normal
  obtain ⟨d, hstat, hget⟩ := ht
  refine ⟨place, hne, hnames, rfl, ?_⟩
  rw [get?_append, ((h.plain.stat?_eq_some_iff (spells_pathOf hne hnames) hne).mp hstat).2,
    Option.bind_some, hget]

theorem pathNames (h : Tidy disk source) (ht : Holds disk source ns t) : ∀ n ∈ ns, PathName n := by
  obtain ⟨place, -, -, -, hget⟩ := h.get?_of_holds ht
  intro n hn
  exact h.plain.pathNames hget n (List.mem_append_right _ hn)

theorem plain_of_holds (h : Tidy disk source) (ht : Holds disk source ns t) : Plain t := by
  obtain ⟨place, -, -, -, hget⟩ := h.get?_of_holds ht
  exact (h.plain.get? hget).2

end Tidy

theorem holds_concat_iff : Holds disk source (ns ++ [name]) t ↔
    ∃ es, Holds disk source ns (.dir es) ∧ es.lookup name = some t := by
  constructor
  · rintro ⟨d, hstat, hget⟩
    rw [get?_append, Option.bind_eq_some_iff] at hget
    obtain ⟨sub, hsub, hget⟩ := hget
    rw [get?_cons, Option.bind_eq_some_iff] at hget
    obtain ⟨c, hc, hct⟩ := hget
    obtain rfl : c = t := by simpa using hct
    cases sub with
    | dir es => exact ⟨es, ⟨d, hstat, hsub⟩, hc⟩
    | file content => simp [FileTree.child?, entries] at hc
    | link target => simp [FileTree.child?, entries] at hc
  · rintro ⟨es, ⟨d, hstat, hget⟩, hl⟩
    refine ⟨d, hstat, ?_⟩
    rw [get?_append, hget, Option.bind_some, get?_cons, FileTree.child?, entries, hl]
    rfl

theorem Visits.enters (h : Visits disk f source ns name) : Enters disk f source ns := by
  obtain ⟨content, hfile⟩ := h.isFile
  obtain ⟨es, hdir, -⟩ := holds_concat_iff.mp hfile
  exact ⟨⟨es, hdir⟩, h.kept⟩

/-! ### Listings -/

namespace Tidy

section
variable (h : Tidy disk source)
include h

theorem listings_eq (f : Filters) : listings disk f source =
    .ok ((disk.tree.stat? disk.cwd source).elim []
      (FileTree.listings (fun path => disk.tree.pathIsDir disk.cwd path)
        (keepsDirectory f) source)) := by
  obtain ⟨place, -, hnames, rfl⟩ := h.normal
  rw [listings, (pathText_pathOf hnames).pathObstacle?_eq]
  split_ifs <;> cases disk.tree.stat? disk.cwd (pathOf place) <;> rfl

theorem exists_listings (f : Filters) : ∃ ls, listings disk f source = .ok ls :=
  ⟨_, h.listings_eq f⟩

theorem mem_listings (hls : listings disk f source = .ok ls) : l ∈ ls ↔
    ∃ ns es, Holds disk source ns (.dir es) ∧ (∀ n ∈ ns, keepsDirectory f n = true) ∧
      l = .ofDir (Path.descend source ns) es := by
  obtain rfl := Except.ok.inj ((h.listings_eq f).symm.trans hls)
  cases hstat : disk.tree.stat? disk.cwd source with
  | none => simp [Holds, hstat]
  | some d =>
    have hd := h.plain_of_holds ⟨d, hstat, get?_nil d⟩
    rw [Option.elim_some, hd.mem_listings]
    simp [Holds, hstat]

theorem nodup_roots (hls : listings disk f source = .ok ls) :
    (ls.map Listing.root).Nodup := by
  obtain rfl := Except.ok.inj ((h.listings_eq f).symm.trans hls)
  cases hstat : disk.tree.stat? disk.cwd source with
  | none => simp
  | some d => exact (h.plain_of_holds ⟨d, hstat, get?_nil d⟩).nodup_roots h.normal

theorem topDown (hls : listings disk f source = .ok ls) :
    TopDown (keepsDirectory f) [source] ls := by
  obtain rfl := Except.ok.inj ((h.listings_eq f).symm.trans hls)
  cases hstat : disk.tree.stat? disk.cwd source with
  | none => trivial
  | some d => exact (h.plain_of_holds ⟨d, hstat, get?_nil d⟩).topDown (List.mem_singleton_self _)

theorem of_mem_listings (hls : listings disk f source = .ok ls) (hl : l ∈ ls) :
    Path.Normal l.root ∧ (∀ n ∈ l.dirs ++ l.files, PathName n) ∧ (l.dirs ++ l.files).Nodup := by
  obtain ⟨ns, es, hdir, -, rfl⟩ := (h.mem_listings hls).mp hl
  have hperm : ((Listing.ofDir (Path.descend source ns) es).dirs ++
      (Listing.ofDir (Path.descend source ns) es).files).Perm
      (es.map Prod.fst) := by
    rw [Listing.ofDir, ← List.map_append]
    exact (List.filter_append_perm ..).map _
  cases h.plain_of_holds hdir with
  | dir es nodup names subs =>
    refine ⟨h.normal.descend (h.pathNames hdir), fun n hn => ?_, hperm.nodup_iff.mpr nodup⟩
    obtain ⟨e, he, rfl⟩ := List.mem_map.mp (hperm.mem_iff.mp hn)
    exact (names e he).toPathName

end

end Tidy

/-- The paths that a walk visits: directories that are entered, each with the files in it that are
not ignored. -/
def visitedPaths (disk : Disk) (f : Filters) (source : String) : List String :=
  match listings disk f source with
  | .ok ls => ls.flatMap fun l => l.root :: (l.files.filter (keepsFile f)).map (Path.join l.root)
  | .error _ => []

namespace Tidy

theorem mem_visitedPaths_of_enters (h : Tidy disk source) (henters : Enters disk f source ns) :
    Path.descend source ns ∈ visitedPaths disk f source := by
  obtain ⟨ls, hls⟩ := h.exists_listings f
  obtain ⟨es, hdir⟩ := henters.isDir
  rw [visitedPaths, hls]
  refine List.mem_flatMap.mpr ⟨_, (h.mem_listings hls).mpr ⟨ns, es, hdir, henters.kept, rfl⟩, ?_⟩
  exact List.mem_cons_self ..

theorem mem_visitedPaths_of_visits (h : Tidy disk source) (hvisits : Visits disk f source ns name) :
    Path.descend source (ns ++ [name]) ∈ visitedPaths disk f source := by
  obtain ⟨ls, hls⟩ := h.exists_listings f
  obtain ⟨content, hfile⟩ := hvisits.isFile
  obtain ⟨es, hdir, hl⟩ := holds_concat_iff.mp hfile
  have hname : name ∈ (Listing.ofDir (Path.descend source ns) es).files :=
    (h.plain_of_holds hdir).mem_files_ofDir.mpr ⟨content, hl⟩
  rw [visitedPaths, hls, Path.descend_concat]
  refine List.mem_flatMap.mpr ⟨_, (h.mem_listings hls).mpr ⟨ns, es, hdir, hvisits.kept, rfl⟩, ?_⟩
  exact List.mem_cons_of_mem _ (List.mem_map_of_mem (List.mem_filter.mpr ⟨hname, hvisits.keptFile⟩))

/-- Whether a project is regular is told by the visited paths. -/
theorem regular (h : Tidy disk source)
    (hpaths : ∀ path ∈ visitedPaths disk f source, Text.OnlyAtStart (parentSlash source) path) :
    Regular disk f source :=
  ⟨h, fun _ henters => hpaths _ (h.mem_visitedPaths_of_enters henters),
    fun _ _ hvisits => hpaths _ (h.mem_visitedPaths_of_visits hvisits)⟩

end Tidy

/-! ### Events -/

def entriesOf (f : Filters) (l : Listing) : List String :=
  l.dirs.filter (keepsDirectory f) ++ l.files.filter (keepsFile f)

theorem map_path_eventsOf (disk : Disk) (f : Filters) (l : Listing) :
    (eventsOf disk f l).map Event.path = (entriesOf f l).map (Path.join l.root) := by
  simp only [eventsOf, entriesOf, List.map_append, List.map_map]
  congr 1
  exact List.map_congr_left fun n _ => by simp [Event.path]

theorem root_of_mem_eventsOf (h : e ∈ eventsOf disk f l) : e.root = l.root := by
  rcases List.mem_append.mp h with h | h
  · obtain ⟨name, -, rfl⟩ := List.mem_map.mp h
    rfl
  · obtain ⟨name, -, rfl⟩ := List.mem_map.mp h
    exact root_fileEvent

theorem entriesOf_sublist (f : Filters) (l : Listing) :
    (entriesOf f l).Sublist (l.dirs ++ l.files) :=
  List.filter_sublist.append List.filter_sublist

namespace Regular

section
variable (h : Regular disk f source)
include h

/-- The events of a walk: one for each directory that is entered, apart from the first, and one for
each file that is visited. -/
theorem mem_events (hls : listings disk f source = .ok ls) : e ∈ events disk f ls ↔
    (∃ ns name, Enters disk f source (ns ++ [name]) ∧
      e = .directory (Path.descend source ns) name) ∨
    ∃ ns name, Visits disk f source ns name ∧
      e = fileEvent disk f (Path.descend source ns) name := by
  rw [events, List.mem_flatMap]
  constructor
  · rintro ⟨l, hl, he⟩
    obtain ⟨ns, es, hdir, hkept, rfl⟩ := (h.mem_listings hls).mp hl
    have hes := h.plain_of_holds hdir
    rcases List.mem_append.mp he with he | he
    · obtain ⟨name, hname, rfl⟩ := List.mem_map.mp he
      obtain ⟨hmem, hkeep⟩ := List.mem_filter.mp hname
      obtain ⟨sub, hsub⟩ := hes.mem_dirs_ofDir.mp hmem
      have henters : ∀ n ∈ ns ++ [name], keepsDirectory f n = true :=
        List.forall_mem_append.mpr ⟨hkept, List.forall_mem_singleton.mpr hkeep⟩
      exact .inl ⟨ns, name, ⟨⟨sub, holds_concat_iff.mpr ⟨es, hdir, hsub⟩⟩, henters⟩, rfl⟩
    · obtain ⟨name, hname, rfl⟩ := List.mem_map.mp he
      obtain ⟨hmem, hkeep⟩ := List.mem_filter.mp hname
      obtain ⟨content, hsub⟩ := hes.mem_files_ofDir.mp hmem
      exact .inr ⟨ns, name, ⟨⟨content, holds_concat_iff.mpr ⟨es, hdir, hsub⟩⟩, hkept, hkeep⟩, rfl⟩
  · rintro (⟨ns, name, ⟨⟨sub, hsub⟩, hkept⟩, rfl⟩ | ⟨ns, name,
      ⟨⟨content, hfile⟩, hkept, hkeep⟩, rfl⟩)
    · obtain ⟨hkept, hkeep⟩ := List.forall_mem_append.mp hkept
      obtain ⟨es, hdir, hl⟩ := holds_concat_iff.mp hsub
      refine ⟨_, (h.mem_listings hls).mpr ⟨ns, es, hdir, hkept, rfl⟩, List.mem_append_left _ ?_⟩
      exact List.mem_map_of_mem (List.mem_filter.mpr
        ⟨(h.plain_of_holds hdir).mem_dirs_ofDir.mpr ⟨sub, hl⟩, hkeep name (by simp)⟩)
    · obtain ⟨es, hdir, hl⟩ := holds_concat_iff.mp hfile
      refine ⟨_, (h.mem_listings hls).mpr ⟨ns, es, hdir, hkept, rfl⟩, List.mem_append_right _ ?_⟩
      exact List.mem_map_of_mem (List.mem_filter.mpr
        ⟨(h.plain_of_holds hdir).mem_files_ofDir.mpr ⟨content, hl⟩, hkeep⟩)

theorem exists_place (hls : listings disk f source = .ok ls) (he : e ∈ events disk f ls) :
    ∃ ns, e.root = Path.descend source ns ∧ e.path = Path.descend source (ns ++ [e.name]) ∧
      (∀ n ∈ ns ++ [e.name], PathName n) ∧
      Text.OnlyAtStart (parentSlash source) (Path.descend source (ns ++ [e.name])) := by
  rcases (h.mem_events hls).mp he with ⟨ns, name, henters, rfl⟩ | ⟨ns, name, hvisits, rfl⟩
  · obtain ⟨sub, hsub⟩ := henters.isDir
    exact ⟨ns, rfl, (Path.descend_concat ..).symm, h.pathNames hsub, h.dirs _ henters⟩
  · obtain ⟨content, hfile⟩ := hvisits.isFile
    rw [Event.path, root_fileEvent, name_fileEvent]
    exact ⟨ns, rfl, (Path.descend_concat ..).symm, h.pathNames hfile, h.files _ _ hvisits⟩

theorem nodup_paths (hls : listings disk f source = .ok ls) :
    ((events disk f ls).map Event.path).Nodup := by
  rw [events, List.map_flatMap, List.nodup_flatMap]
  simp only [map_path_eventsOf]
  refine ⟨?_, ?_⟩
  · intro l hl
    obtain ⟨hnormal, hnames, hnd⟩ := h.of_mem_listings hls hl
    refine (hnd.sublist (entriesOf_sublist f l)).map_on ?_
    intro n hn m hm heq
    have hn := hnames n ((entriesOf_sublist f l).mem hn)
    have hm := hnames m ((entriesOf_sublist f l).mem hm)
    rw [hnormal.join hn, hnormal.join hm] at heq
    exact (String.append_right_inj _).mp heq
  · -- the path of an event tells the directory that it is in
    refine (List.pairwise_map.mp (h.nodup_roots hls)).imp_of_mem ?_
    intro l l' hl hl' hne p hp hp'
    obtain ⟨n, hn, rfl⟩ := List.mem_map.mp hp
    obtain ⟨n', hn', heq⟩ := List.mem_map.mp hp'
    obtain ⟨hnormal, hnames, -⟩ := h.of_mem_listings hls hl
    obtain ⟨hnormal', hnames', -⟩ := h.of_mem_listings hls hl'
    have hparent := congrArg Path.parent heq
    rw [hnormal.parent_join (hnames n ((entriesOf_sublist f l).mem hn)),
      hnormal'.parent_join (hnames' n' ((entriesOf_sublist f l').mem hn'))] at hparent
    exact hne hparent.symm

theorem pairwise_names (hls : listings disk f source = .ok ls) :
    (events disk f ls).Pairwise fun e e' => projectName source e.path ≠
      projectName source e'.path := by
  refine (List.pairwise_map.mp (h.nodup_paths hls)).imp_of_mem ?_
  intro e e' he he' hne heq
  obtain ⟨ns, -, hpath, hnames, honly⟩ := h.exists_place hls he
  obtain ⟨ns', -, hpath', hnames', honly'⟩ := h.exists_place hls he'
  rw [hpath, hpath'] at heq hne
  rw [nodeName_injective h.normal hnames hnames' honly honly' heq] at hne
  exact hne rfl

end

end Regular

end CodeAtlas.Survey
