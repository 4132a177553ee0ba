import CodeAtlas.Proofs.SideBySide
import CodeAtlas.Proofs.Walks
import Mathlib.Data.List.FinRange
import Mathlib.Data.List.Forall2
import Mathlib.Data.Nat.Choose.Basic

/-!
# Recorded commits

Of the commits that are gone through the relevant ones are recorded, as many as the limit allows: a
commit that changes no known file does not use it up (`History.changes_ofStrings`). A record has the
known files and one link for each pair of them (`History.links_eq_pairs`), and the records end up
with the oldest first (`Work.measure_history`).
-/

namespace CodeAtlas

namespace History

variable {exts names : List String} {lead : String} {scope : Scope} {c : Commit} {f : ChangedFile}
  {files : List ChangedFile}

/-! ### Files of a commit -/

def permits (exts : List String) (f : ChangedFile) : Bool := exts.contains (Path.extension f.name)

/-- Whether a file is looked at: if it is still there, its path has to be known. -/
def counts (exts names : List String) (lead : String) (f : ChangedFile) : Bool :=
  permits exts f && f.path.all (isKnown names lead)

/-- The files that are looked at; none if they cannot be read. -/
def lookedAt (exts names : List String) (lead : String) (c : Commit) : List ChangedFile :=
  (c.files.getD []).filter (counts exts names lead)

/-- The known paths of the permitted files, in their order. -/
def touched (exts names : List String) (lead : String) (c : Commit) : List String :=
  ((c.files.getD []).filter (permits exts)).filterMap fun f => f.path.filter (isKnown names lead)

/-- The files can be read, and one of them is permitted and has a known path. -/
def relevant (exts names : List String) (lead : String) (c : Commit) : Bool :=
  c.files.any fun files => files.any fun f => permits exts f && f.path.any (isKnown names lead)

/-- A commit has a date, and the lines that changed in its files can be added up. -/
structure Complete (c : Commit) : Prop where
  date : c.date.isSome
  churn : ∀ f ∈ c.files.getD [], (sum f.added f.deleted).isOk = true

theorem counted_ofStrings (h : ∀ f ∈ files, (sum f.added f.deleted).isOk = true) :
    counted (.ofStrings exts) names lead files = .ok (files.filter (counts exts names lead)) := by
  induction files with
  | nil => rfl
  | cons f files ih =>
    obtain ⟨hf, hfiles⟩ := List.forall_mem_cons.mp h
    have ih := ih hfiles
    simp only [counted] at ih ⊢
    rw [List.filterMapM_cons, ih, Value.hasText_ofStrings, List.filter_cons, counts, permits]
    cases hpermits : exts.contains (Path.extension f.name) with
    | false => rfl
    | true =>
      cases hknown : f.path.all (isKnown names lead) with
      | false => rfl
      | true =>
        cases hsum : sum f.added f.deleted with
        | error e => simp [hsum, Except.isOk, Except.toBool] at hf
        | ok v => rfl

theorem filterMap_path_lookedAt (exts names : List String) (lead : String) (c : Commit) :
    (lookedAt exts names lead c).filterMap ChangedFile.path = touched exts names lead c := by
  rw [lookedAt, touched, List.filterMap_filter, List.filterMap_filter]
  congr 1
  funext f
  rw [counts]
  cases permits exts f <;> cases f.path <;> simp [Option.filter]

theorem any_lookedAt (hfiles : c.files = some files) :
    ((lookedAt exts names lead c).any fun f => f.path.isSome) = relevant exts names lead c := by
  rw [lookedAt, relevant, hfiles, Option.getD_some, Option.any_some, List.any_filter]
  congr 1
  funext f
  rw [counts]
  cases f.path <;> simp

/-! ### Records -/

/-- What is recorded of a commit that has a date. -/
def record (exts names : List String) (scope : Scope) (c : Commit) : Value :=
  change names scope c (c.date.getD default) (lookedAt exts names scope.lead c)

theorem relevant?_ofStrings {date : DateTime} (hc : Complete c) (hdate : c.date = some date) :
    relevant? (.ofStrings exts) names scope c date =
      .ok (if relevant exts names scope.lead c then some (record exts names scope c)
        else none) := by
  cases hfiles : c.files with
  | none => rw [relevant?, hfiles, relevant, hfiles]; rfl
  | some files =>
    have hlooked : lookedAt exts names scope.lead c =
        files.filter (counts exts names scope.lead) := by
      rw [lookedAt, hfiles, Option.getD_some]
    rw [relevant?, hfiles, ← any_lookedAt hfiles, record, hlooked, hdate]
    dsimp only
    rw [counted_ofStrings (by simpa only [hfiles, Option.getD_some] using hc.churn)]
    rfl

theorem examine_ofStrings (hc : Complete c) (limit done : Nat) :
    examine (.ofStrings exts) names scope (.int limit) done c = .ok (if limit ≤ done then none
      else some (if relevant exts names scope.lead c then some (record exts names scope c)
        else none)) := by
  obtain ⟨date, hdate⟩ := Option.isSome_iff_exists.mp hc.date
  have hreached : reached done (.int limit) = .ok (decide (limit ≤ done)) := by
    rw [reached]
    simp
  rw [examine, hdate]
  dsimp only
  rw [hreached, relevant?_ofStrings hc hdate]
  by_cases hle : limit ≤ done
  · rw [if_pos hle, decide_eq_true hle]
    rfl
  · rw [if_neg hle, decide_eq_false hle]
    rfl

theorem changes_ofStrings {commits : List Commit} (h : ∀ c ∈ commits, Complete c)
    (limit done : Nat) : changes (.ofStrings exts) names scope (.int limit) done commits =
      (((commits.filter (relevant exts names scope.lead)).take (limit - done)).map
        (record exts names scope), .ok ()) := by
  induction commits generalizing done with
  | nil => simp [changes]
  | cons c commits ih =>
    obtain ⟨hc, hcommits⟩ := List.forall_mem_cons.mp h
    rw [changes, examine_ofStrings hc]
    by_cases hle : limit ≤ done
    · simp [hle]
    · rw [if_neg hle, List.filter_cons]
      cases relevant exts names scope.lead c with
      | false => exact ih hcommits done
      | true =>
        have hleft : limit - done = limit - (done + 1) + 1 := by omega
        simp only [if_true, ih hcommits (done + 1), hleft, List.take_succ_cons, List.map_cons]

/-! ### Links -/

/-- The pairs of members at a lower and a higher position, in the order of the lower and then of the
higher one. -/
def pairs {α : Type} (xs : List α) : List (α × α) :=
  (List.finRange xs.length).flatMap fun i => ((List.finRange xs.length).filter (i < ·)).map
    fun k => (xs.get i, xs.get k)

theorem pairs_cons {α : Type} (x : α) (xs : List α) :
    pairs (x :: xs) = xs.map (x, ·) ++ pairs xs := by
  have hrange : List.finRange (x :: xs).length =
      (0 : Fin (xs.length + 1)) :: (List.finRange xs.length).map Fin.succ :=
    List.finRange_succ
  rw [pairs, hrange, List.flatMap_cons, List.flatMap_map]
  congr 1
  · -- the first member is before all others
    have hfirst : ((0 : Fin (xs.length + 1)) :: (List.finRange xs.length).map Fin.succ).filter
        (0 < ·) = (List.finRange xs.length).map Fin.succ := by
      simp [List.filter_map, Function.comp_def]
    calc
      _ = ((List.finRange xs.length).map Fin.succ).map fun k : Fin (xs.length + 1) =>
          (x, (x :: xs).get k) := congrArg _ hfirst
      _ = ((List.finRange xs.length).map xs.get).map (x, ·) := by
        rw [List.map_map, List.map_map]
        rfl
      _ = xs.map (x, ·) := by rw [List.map_get_finRange]
  · rw [pairs]
    congr 1
    funext i
    simp [List.filter_map, Function.comp_def]

theorem length_pairs {α : Type} (xs : List α) :
    (pairs xs).length = xs.length * (xs.length - 1) / 2 := by
  induction xs with
  | nil => simp [pairs]
  | cons x xs ih =>
    rw [pairs_cons, List.length_append, List.length_map, ih, List.length_cons, Nat.triangle_succ,
      Nat.add_comm]

def link (lead : String) (ends : String × String) : Value :=
  .map [(.text "source", .text (stripped lead ends.1)),
    (.text "target", .text (stripped lead ends.2)), (.text "temporal", .bool true)]

theorem links_eq_pairs {paths : List String}
    (h : ∀ p ∈ paths, isKnown names lead p = true ∧ stripped lead p ≠ "") :
    links names lead paths = (pairs paths).map (link lead) := by
  induction paths with
  | nil => rfl
  | cons p paths ih =>
    obtain ⟨hp, hpaths⟩ := List.forall_mem_cons.mp h
    rw [links, pairs_cons, List.map_append, List.map_map, ih hpaths]
    congr 1
    rw [← List.filterMap_eq_map]
    refine List.filterMap_congr fun q hq => ?_
    obtain ⟨hknown, hne⟩ := hpaths q hq
    simp [hp.1, hp.2, hknown, hne, link]

structure Records (exts names : List String) (lead : String) (c : Commit) (v : Value) : Prop where
  hash : v.field? "hash" = some (.text c.hash)
  filepaths : v.field? "filepaths" = some (.ofStrings (touched exts names lead c))
  links : (∀ p ∈ touched exts names lead c, stripped lead p ≠ "") →
    ∃ ls, v.field? "links" = some (.list ls) ∧
    ls = (pairs (touched exts names lead c)).map (link lead) ∧
    ls.length = (touched exts names lead c).length * ((touched exts names lead c).length - 1) / 2

theorem isKnown_of_mem_touched {p : String} (h : p ∈ touched exts names lead c) :
    isKnown names lead p = true := by
  obtain ⟨f, -, hf⟩ := List.mem_filterMap.mp h
  exact (Option.filter_eq_some_iff.mp hf).2

theorem records_record (exts names : List String) (scope : Scope) (c : Commit) :
    Records exts names scope.lead c (record exts names scope c) where
  hash := by simp [record, change, Value.field?, Value.lookup, Value.beq_text]
  filepaths := by simp [record, change, Value.field?, Value.lookup, Value.beq_text,
    filterMap_path_lookedAt]
  links hne := by
    refine ⟨_, ?_, rfl, by rw [List.length_map, length_pairs]⟩
    rw [← links_eq_pairs fun p hp => ⟨isKnown_of_mem_touched hp, hne p hp⟩,
      ← filterMap_path_lookedAt]
    simp [record, change, Value.field?, Value.lookup, Value.beq_text]

theorem exists_scope (source directory : String) (before : Scope) :
    ∃ scope, History.scope (.text source) (.text directory) before = .ok scope := by
  rw [History.scope]
  split
  · exact ⟨_, rfl⟩
  · split
    · exact ⟨_, rfl⟩
    · exact ⟨_, rfl⟩

end History

/-! ### The whole history -/

namespace HistoryState

open History

theorem exists_datesOf {commits : List Commit} (h : ∀ c ∈ commits, Complete c) (limit : Nat) :
    ∃ dates, datesOf (.int limit) commits = (dates, .ok ()) := by
  induction commits with
  | nil => exact ⟨_, rfl⟩
  | cons c commits ih =>
    obtain ⟨hc, hcommits⟩ := List.forall_mem_cons.mp h
    obtain ⟨date, hdate⟩ := Option.isSome_iff_exists.mp hc.date
    obtain ⟨dates, hdates⟩ := ih hcommits
    rw [datesOf, hdate, hdates, reached]
    cases decide ((limit : Int) ≤ (0 : Nat)) with
    | false => exact ⟨_, rfl⟩
    | true => exact ⟨_, rfl⟩

def fresh (settings : Settings) : HistoryState :=
  { limit := settings.history.limit, excludeMerges := settings.history.excludeMerges }

theorem exists_read_fresh {settings : Settings} {exts : List String} {commits : List Commit}
    {limit : Nat} {scope : Scope}
    (hscope : History.scope settings.source settings.history.directory ⟨"", ""⟩ = .ok scope)
    (hlimit : settings.history.limit = .int limit) (hexts : settings.filters.extensions =
      .ofStrings exts) (hcommits : ∀ c ∈ commits, Complete c) (names : List String) :
    ∃ h', (fresh settings).read settings names commits = (h', .ok ()) ∧ h'.changes =
      (((considered settings.history.excludeMerges commits).filter
        (relevant exts names scope.lead)).take limit).reverse.map
        (record exts names scope) := by
  have hconsidered : ∀ c ∈ considered settings.history.excludeMerges commits, Complete c :=
    fun c hc => hcommits c (List.mem_of_mem_filter hc)
  obtain ⟨dates, hdates⟩ := exists_datesOf hconsidered limit
  rw [HistoryState.read, fresh]
  dsimp only
  rw [hscope]
  dsimp only
  rw [hexts, hlimit, changes_ofStrings hconsidered]
  dsimp only
  rw [hdates]
  exact ⟨_, rfl, List.map_reverse.symm⟩

end HistoryState

namespace Work

open Effect History

/-- A fresh history metric records the first relevant commits that the limit allows, the last of
them first. -/
theorem measure_history (j : Job) (ref : MetricRef) (m : Metric) (kinds : List GraphKind)
    (rs : Results) (exts : List String) (source directory : String) (limit : Nat)
    (hm : Registered ref m j) (hnew : Metric.new .history j.analysis.settings kinds = .ok m)
    (hlimit : j.analysis.settings.history.limit = .int limit)
    (hexts : j.analysis.settings.filters.extensions = .ofStrings exts)
    (hsource : j.analysis.settings.source = .text source)
    (hdirectory : j.analysis.settings.history.directory = .text directory)
    (hcommits : ∀ c ∈ j.session.commits, Complete c) :
    ∃ j' m' state scope, measure ref rs j = .ok () j' ∧ Registered ref m' j' ∧
      m'.gauge = .history state ∧
      m'.overall.get? "commit-metrics" = some (.list state.changes) ∧
      History.scope (.text source) (.text directory) ⟨"", ""⟩ = .ok scope ∧
      List.Forall₂ (Records exts rs.keys scope.lead)
        (((considered j.analysis.settings.history.excludeMerges j.session.commits).filter
          (relevant exts rs.keys scope.lead)).take limit).reverse state.changes := by
  obtain ⟨scope, hscope⟩ := exists_scope source directory ⟨"", ""⟩
  obtain rfl : { gauge := .history (.fresh j.analysis.settings) } = m := by
    rw [Metric.new, hdirectory] at hnew
    exact Except.ok.inj hnew
  obtain ⟨state, hread, hchanges⟩ :=
    HistoryState.exists_read_fresh (hsource ▸ hdirectory ▸ hscope) hlimit hexts hcommits rs.keys
  let read : Metric := { gauge := .history state }
  let j₁ := j.put ref read j.analysis.rows
  have hput : Registered ref read j₁ := hm.put (show read.kind = .history from rfl) j.analysis.rows
  let filed : Metric :=
    { read with overall := read.overall.insertMany [("commit-metrics", .list state.changes)] }
  refine ⟨_, filed, state, scope, ?_,
    hput.put (show filed.kind = read.kind from rfl) j₁.analysis.rows, rfl, rfl, hscope, ?_⟩
  · rw [measure, bind_of_ok (metricAt_of_metric? hm.metric)]
    change measureHistory ref (.fresh j.analysis.settings) rs.keys j = _
    rw [measureHistory, bind_of_ok (show settings j = .ok j.analysis.settings j from rfl),
      bind_of_ok (show session j = .ok j.session j from rfl), hread]
    exact (bind_of_ok (modifyMetric_of_metric? hm.metric)).trans
      (modifyMetric_of_metric? hput.metric)
  · rw [hchanges, List.forall₂_map_right_iff, List.forall₂_same]
    exact fun c _ => records_record exts rs.keys scope c

end Work

namespace Sample

open History

def changed (name : String) (path : Option String) : ChangedFile :=
  ⟨name, path, .int 2, .int 1, none, .int 3⟩

def committed (hash : String) (files : Option (List ChangedFile)) : Commit :=
  ⟨hash, some ⟨2024, 1, 2, 3, 4, 5, 0, none⟩, none, false, files⟩

/-- Both files of an analysis have changed; the others are gone, or elsewhere, or not permitted. -/
def bothChanged : Commit := committed "4" (some
  [changed "A.java" (some "src/app/A.java"), changed "B.java" none,
    changed "C.java" (some "lib/C.java"), changed "B.java" (some "src/app/B.java"),
    changed "A.md" (some "src/app/A.md")])

def oneChanged (hash : String) : Commit :=
  committed hash (some [changed "A.java" (some "src/app/A.java")])

def commits : List Commit :=
  [bothChanged, committed "3" none, committed "2" (some [changed "C.java" (some "lib/C.java")]),
    oneChanged "1", oneChanged "0"]

def historySettings : Settings :=
  { source := .text "/repo/src/app", history := { directory := .text "/repo", limit := .int 2 },
    filters := { extensions := .ofStrings [".java"] } }

def historyJob : Job :=
  ⟨{ session with commits := commits },
    { settings := historySettings
      fileMetrics :=
        .ofList [(MetricKind.history.name, { gauge := .history (.fresh historySettings) })] }⟩

def sources : Results := .ofList
  [part "app/A.java" [] (.entity { entityName := "A" }),
    part "app/B.java" [] (.entity { entityName := "B" })]

/-- Two commits are skipped before the second relevant one, and the limit keeps the third out. -/
theorem measure_history_twoOfThree : ∃ (j' : Job) (m' : Metric) (older newer : Value),
    Work.measure ⟨.files, MetricKind.history.name⟩ sources historyJob = .ok () j' ∧
      m'.overall.get? "commit-metrics" = some (.list [older, newer]) ∧
      older.field? "hash" = some (.text "1") ∧ newer.field? "hash" = some (.text "4") ∧
      newer.field? "filepaths" = some (.ofStrings ["src/app/A.java", "src/app/B.java"]) ∧
      newer.field? "links" = some (.list [link "src" ("src/app/A.java", "src/app/B.java")]) := by
  have hcomplete : ∀ c ∈ commits, Complete c := fun c hc =>
    ⟨(by decide : ∀ c ∈ commits, c.date.isSome = true) c hc,
      (by decide : ∀ c ∈ commits, ∀ f ∈ c.files.getD [],
        (History.sum f.added f.deleted).isOk = true) c hc⟩
  obtain ⟨j', m', state, scope, hok, -, -, hoverall, hscope, hall⟩ :=
    Work.measure_history historyJob ⟨.files, MetricKind.history.name⟩ _ [] sources [".java"]
      "/repo/src/app" "/repo" 2 ⟨rfl, rfl⟩ rfl rfl rfl rfl rfl hcomplete
  obtain rfl : scope = ⟨"src", "src/app"⟩ := by
    have hlead : Path.parent (Text.replace "/repo/src/app" ("/repo" ++ "/") "") = "src" ∧
        Text.replace "/repo/src/app" ("/repo" ++ "/") "" = "src/app" := by decide +kernel
    simp only [History.scope, Value.beq_text, hlead] at hscope
    exact (Except.ok.inj hscope).symm
  have htouched : touched [".java"] sources.keys "src" bothChanged =
      ["src/app/A.java", "src/app/B.java"] := by decide +kernel
  have hlist : (((considered (.bool true) commits).filter
      (relevant [".java"] sources.keys "src")).take 2).reverse = [oneChanged "1", bothChanged] := by
    have hrelevant : relevant [".java"] sources.keys "src" bothChanged = true ∧
        relevant [".java"] sources.keys "src" (oneChanged "1") = true ∧
        relevant [".java"] sources.keys "src" (committed "3" none) = false ∧
        relevant [".java"] sources.keys "src"
          (committed "2" (some [changed "C.java" (some "lib/C.java")])) = false := by
      decide +kernel
    obtain ⟨hboth, hone, hunread, helsewhere⟩ := hrelevant
    rw [show considered (.bool true) commits = commits from rfl, commits]
    simp only [List.filter_cons, hboth, hone, hunread, helsewhere]
    rfl
  change List.Forall₂ _ (((considered (.bool true) commits).filter _).take 2).reverse _ at hall
  rw [hlist] at hall
  generalize hchanges : state.changes = vs at hall
  obtain - | ⟨hfirst, - | ⟨hlast, - | -⟩⟩ := hall
  obtain ⟨ls, hlinks, rfl, -⟩ := hlast.links (by rw [htouched]; decide +kernel)
  refine ⟨j', m', _, _, hok, hchanges ▸ hoverall, hfirst.hash, hlast.hash,
    htouched ▸ hlast.filepaths, ?_⟩
  rw [hlinks, htouched]
  rfl

end Sample

end CodeAtlas
