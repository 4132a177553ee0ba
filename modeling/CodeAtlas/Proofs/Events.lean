import CodeAtlas.Proofs.Effects
import CodeAtlas.Proofs.PlainTrees

/-!
# The walk as a list of events

A walk that ends well does one thing for each entry that it looks at: it adds a directory, it adds a
file, or it skips a file. `Survey.events` lists these events, computed from the listings alone, and
`Survey.record` is what one of them does to a survey. `Survey.walk_eq_ok_iff` says that the walk
ends well just if every filter answers and every file that is scanned can be read, and that it then
has done exactly these events in their order.
-/

namespace CodeAtlas.Survey

open Effect FileTree

/-! ### Events -/

/-- What the walk does with one entry of a directory. -/
inductive Event where
  | directory (root name : String)
  | scanned (root name content : String)
  | skipped (root name : String)
deriving Repr, DecidableEq

namespace Event

def root : Event → String
  | directory root _ | scanned root _ _ | skipped root _ => root

def name : Event → String
  | directory _ name | scanned _ name _ | skipped _ name => name

def path (e : Event) : String := Path.join e.root e.name

end Event

def keepsDirectory (f : Filters) (name : String) : Bool :=
  (f.ignoresDirectory name).toOption == some false

def keepsFile (f : Filters) (name : String) : Bool := (f.ignoresFile name).toOption == some false

def scans (f : Filters) (path : String) : Bool :=
  affirms (f.allowsFile path) && (affirms (f.allowsExtension (Path.extension path))
    && (FileKind.ofExtension? (Path.extension path)).isSome)

def contentAt (disk : Disk) (path : String) : String := (readSource disk path).toOption.getD ""

def fileEvent (disk : Disk) (f : Filters) (root name : String) : Event :=
  if scans f (Path.join root name) then .scanned root name (contentAt disk (Path.join root name))
  else .skipped root name

/-- The events of one directory: its directories come first. -/
def eventsOf (disk : Disk) (f : Filters) (l : Listing) : List Event :=
  (l.dirs.filter (keepsDirectory f)).map (.directory l.root)
    ++ (l.files.filter (keepsFile f)).map (fileEvent disk f l.root)

def events (disk : Disk) (f : Filters) (ls : List Listing) : List Event :=
  ls.flatMap (eventsOf disk f)

def record (source : String) (s : Survey) : Event → Survey
  | .directory root name => addSubdirectory source root s name
  | .scanned root name content =>
    addFile source root (Path.join root name) content
      (recordName source root (Path.join root name) s)
  | .skipped _ _ => { s with skipped := s.skipped + 1 }

variable {disk : Disk} {f : Filters} {source root name : String} {s s' : Survey} {l : Listing}
  {names wanted : List String}

@[simp] theorem root_fileEvent : (fileEvent disk f root name).root = root := by
  rw [fileEvent]
  split_ifs <;> rfl

@[simp] theorem name_fileEvent : (fileEvent disk f root name).name = name := by
  rw [fileEvent]
  split_ifs <;> rfl

theorem path_fileEvent : (fileEvent disk f root name).path = Path.join root name := by
  rw [Event.path, root_fileEvent, name_fileEvent]

/-! ### One file -/

theorem lift_bind_eq_ok {α β : Type} {x : Except Fault α} {g : α → SurveyM β} {b : β} :
    (lift x >>= g) s = .ok b s' ↔ ∃ a, x = .ok a ∧ g a s = .ok b s' := by
  simp [bind_eq_ok, lifted_eq_ok (l := lift) (fun _ => rfl) fun _ => rfl]

/-- The filters on files answer, and a file that is scanned can be read. -/
structure FileReady (disk : Disk) (f : Filters) (path : String) : Prop where
  allowsFile : ∃ b, f.allowsFile path = .ok b
  allowsExtension : f.allowsFile path = .ok true →
    ∃ b, f.allowsExtension (Path.extension path) = .ok b
  readable : scans f path = true → ∃ content, readSource disk path = .ok content

/-- The ways in which the walk gets past a file: it is not allowed, its extension is not scanned, or
it is read. -/
theorem visitFile_cases (hplain : target? disk (Path.join root name) = some (Path.join root name))
    (h : visitFile disk f source root name s = .ok () s') :
    (f.allowsFile (Path.join root name) = .ok false ∧ s' = { s with skipped := s.skipped + 1 }) ∨
    ∃ b, f.allowsFile (Path.join root name) = .ok true ∧
      f.allowsExtension (Path.extension (Path.join root name)) = .ok b ∧
      ((b && (FileKind.ofExtension? (Path.extension (Path.join root name))).isSome) = false ∧
          s' = { s with skipped := s.skipped + 1 } ∨
        (b && (FileKind.ofExtension? (Path.extension (Path.join root name))).isSome) = true ∧
          ∃ content, readSource disk (Path.join root name) = .ok content ∧
            s' = record source s (.scanned root name content)) := by
  obtain ⟨allowed, hallowed, h⟩ := lift_bind_eq_ok.mp h
  cases allowed with
  | false => exact .inl ⟨hallowed, (EStateM.Result.ok.inj h).2.symm⟩
  | true =>
    simp only [hplain, Bool.not_true, Bool.false_eq_true, if_false] at h
    obtain ⟨b, hb, h⟩ := lift_bind_eq_ok.mp h
    refine .inr ⟨b, hallowed, hb, ?_⟩
    split at h
    case isTrue hscan =>
      rw [modify_bind] at h
      obtain ⟨content, hread, h⟩ := lift_bind_eq_ok.mp h
      exact .inr ⟨hscan, content, hread, (EStateM.Result.ok.inj h).2.symm⟩
    case isFalse hscan => exact .inl ⟨by simpa using hscan, (EStateM.Result.ok.inj h).2.symm⟩

theorem visitFile_eq_ok_iff
    (hplain : target? disk (Path.join root name) = some (Path.join root name)) :
    visitFile disk f source root name s = .ok () s' ↔
      FileReady disk f (Path.join root name) ∧
      s' = record source s (fileEvent disk f root name) := by
  constructor
  · intro h
    obtain ⟨hallowed, rfl⟩ | ⟨b, hallowed, hb, ⟨hscan, rfl⟩ | ⟨hscan, content, hread, rfl⟩⟩ :=
      visitFile_cases hplain h
    · have hscans : scans f (Path.join root name) = false := by simp [scans, hallowed, affirms]
      exact ⟨⟨⟨_, hallowed⟩, by simp [hallowed], by simp [hscans]⟩, by simp [fileEvent, hscans,
        record]⟩
    · have hscans : scans f (Path.join root name) = false := by
        simpa [scans, hallowed, hb, affirms] using hscan
      exact ⟨⟨⟨_, hallowed⟩, fun _ => ⟨b, hb⟩, by simp [hscans]⟩, by simp [fileEvent, hscans,
        record]⟩
    · have hscans : scans f (Path.join root name) = true := by
        simpa [scans, hallowed, hb, affirms] using hscan
      have hcontent : contentAt disk (Path.join root name) = content := by
        simp [contentAt, hread, Except.toOption]
      exact ⟨⟨⟨_, hallowed⟩, fun _ => ⟨b, hb⟩, fun _ => ⟨content, hread⟩⟩, by simp [fileEvent,
        hscans, hcontent]⟩
  · rintro ⟨⟨⟨allowed, hallowed⟩, hext, hread⟩, rfl⟩
    refine lift_bind_eq_ok.mpr ⟨allowed, hallowed, ?_⟩
    cases allowed with
    | false => simp [fileEvent, scans, hallowed, affirms]; rfl
    | true =>
      obtain ⟨b, hb⟩ := hext hallowed
      simp only [hplain, Bool.not_true, Bool.false_eq_true, if_false]
      refine lift_bind_eq_ok.mpr ⟨b, hb, ?_⟩
      have hscans : scans f (Path.join root name) =
          (b && (FileKind.ofExtension? (Path.extension (Path.join root name))).isSome) := by
        simp [scans, hallowed, hb, affirms]
      rw [← hscans]
      split
      case isTrue h =>
        obtain ⟨content, hread⟩ := hread h
        have hcontent : contentAt disk (Path.join root name) = content := by
          simp [contentAt, hread, Except.toOption]
        rw [fileEvent, if_pos h, hcontent, hread]
        rfl
      case isFalse h =>
        rw [fileEvent, if_neg h]
        rfl

/-! ### One directory -/

theorem wantedDirs_eq_ok : wantedDirs f names = .ok wanted ↔
    (∀ n ∈ names, ∃ b, f.ignoresDirectory n = .ok b) ∧
    wanted = names.filter (keepsDirectory f) := by
  simp only [wantedDirs, filterM_eq_ok, exists_not_eq_ok, affirms_not]
  rfl

theorem wantedFiles_eq_ok : wantedFiles f names = .ok wanted ↔
    (∀ n ∈ names, ∃ b, f.ignoresFile n = .ok b) ∧ wanted = names.filter (keepsFile f) := by
  simp only [wantedFiles, filterM_eq_ok, exists_not_eq_ok, affirms_not]
  rfl

structure ListingReady (disk : Disk) (f : Filters) (l : Listing) : Prop where
  dirs : ∀ n ∈ l.dirs, ∃ b, f.ignoresDirectory n = .ok b
  files : ∀ n ∈ l.files, ∃ b, f.ignoresFile n = .ok b
  ready : ∀ n ∈ l.files, keepsFile f n = true → FileReady disk f (Path.join l.root n)

theorem foldl_eventsOf : (eventsOf disk f l).foldl (record source) s =
    (l.files.filter (keepsFile f)).foldl (fun s n => record source s (fileEvent disk f l.root n))
      ((l.dirs.filter (keepsDirectory f)).foldl (addSubdirectory source l.root) s) := by
  simp only [eventsOf, List.foldl_append, List.foldl_map, record]

theorem visit_eq_ok_iff
    (hplain : ∀ n ∈ l.files, target? disk (Path.join l.root n) = some (Path.join l.root n)) :
    visit disk f source l s = .ok () s' ↔
      ListingReady disk f l ∧ s' = (eventsOf disk f l).foldl (record source) s := by
  have hfiles : ∀ n ∈ l.files.filter (keepsFile f), ∀ s s',
      visitFile disk f source l.root n s = .ok () s' ↔
      FileReady disk f (Path.join l.root n) ∧ s' = record source s (fileEvent disk f l.root n) :=
    fun n hn _ _ => visitFile_eq_ok_iff (hplain n (List.mem_of_mem_filter hn))
  rw [visit, lift_bind_eq_ok, foldl_eventsOf]
  constructor
  · rintro ⟨dirs, hdirs, h⟩
    rw [modify_bind] at h
    obtain ⟨files, hwanted, h⟩ := lift_bind_eq_ok.mp h
    obtain ⟨hdirAnswers, rfl⟩ := wantedDirs_eq_ok.mp hdirs
    obtain ⟨hfileAnswers, rfl⟩ := wantedFiles_eq_ok.mp hwanted
    obtain ⟨hready, rfl⟩ := (forM_eq_ok_iff hfiles).mp h
    exact ⟨⟨hdirAnswers, hfileAnswers,
      fun n hn hkeep => hready n (List.mem_filter.mpr ⟨hn, hkeep⟩)⟩, rfl⟩
  · rintro ⟨⟨hdirs, hwanted, hready⟩, rfl⟩
    refine ⟨_, wantedDirs_eq_ok.mpr ⟨hdirs, rfl⟩, ?_⟩
    rw [modify_bind]
    refine lift_bind_eq_ok.mpr ⟨_, wantedFiles_eq_ok.mpr ⟨hwanted, rfl⟩,
      (forM_eq_ok_iff hfiles).mpr ⟨?_, rfl⟩⟩
    intro n hn
    obtain ⟨hn, hkeep⟩ := List.mem_filter.mp hn
    exact hready n hn hkeep

/-- A walk past no links ends well just if all that it meets is ready, and it then has done the
events in their order. -/
theorem walk_eq_ok_iff {ls : List Listing} (hls : listings disk f source = .ok ls)
    (hplain : ∀ l ∈ ls, ∀ n ∈ l.files, target? disk (Path.join l.root n) =
      some (Path.join l.root n)) :
    walk disk f source s = .ok () s' ↔ (∀ l ∈ ls, ListingReady disk f l) ∧
      s' = (events disk f ls).foldl (record source)
        (s.addDirectory (Resolve.relativeName source source)) := by
  rw [walk, modify_bind, lift_bind_eq_ok, events, List.foldl_flatMap]
  simp only [hls, Except.ok.injEq, exists_eq_left']
  exact forM_eq_ok_iff fun l hl _ _ => visit_eq_ok_iff (hplain l hl)

end CodeAtlas.Survey
