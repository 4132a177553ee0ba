import CodeAtlas.Proofs.ClassScopes
import CodeAtlas.Proofs.Commits

/-!
# Paths in recorded commits

Whatever the settings are and however the reading ends, what it adds to the records comes from
commits (`History.Recorded`). The paths of a record are all parts of names of results, not always
whole ones (`Work.measure_history_occurs`). Its churn and its other figures are filed under these
paths and, if a file was removed, under no path at all (`Work.measure_history_keys`).
-/

namespace CodeAtlas

open Effect

namespace History

variable {permitted limit : Value} {names : List String} {lead : String} {scope : Scope}
  {c : Commit} {v : Value} {files looked : List ChangedFile}

/-! ### Where records come from -/

def permitsFile (permitted : Value) (f : ChangedFile) : Bool :=
  affirms (permitted.hasText (Path.extension f.name))

/-- A file is looked at if it is permitted and either removed or known. -/
def looksAt (permitted : Value) (names : List String) (lead : String) (f : ChangedFile) : Bool :=
  permitsFile permitted f && f.path.all (isKnown names lead)

def seen (permitted : Value) (names : List String) (lead : String) (c : Commit) :
    List ChangedFile :=
  (c.files.getD []).filter (looksAt permitted names lead)

/-- A value is what was recorded of a commit. One of the files that are looked at is still there. -/
structure Recorded (permitted : Value) (names : List String) (scope : Scope) (c : Commit)
    (v : Value) : Prop where
  change : ∃ date, v = change names scope c date (seen permitted names scope.lead c)
  churn : ∀ f ∈ seen permitted names scope.lead c, ∃ n, sum f.added f.deleted = .ok n
  touched : ∃ f ∈ seen permitted names scope.lead c, f.path.isSome

theorem of_counted (h : counted permitted names lead files = .ok looked) :
    looked = files.filter (looksAt permitted names lead) ∧
    ∀ f ∈ looked, ∃ n, sum f.added f.deleted = .ok n := by
  induction files generalizing looked with
  | nil =>
    obtain rfl := Except.ok.inj h
    simp
  | cons f files ih =>
    rw [counted, List.filterMapM_cons] at h
    obtain ⟨o, hone, h⟩ := except_bind_eq_ok.mp h
    obtain ⟨b, hpermits, hone⟩ := except_bind_eq_ok.mp hone
    rw [List.filter_cons, looksAt, permitsFile, hpermits]
    cases b with
    | false =>
      obtain rfl := Except.ok.inj hone
      exact ih h
    | true =>
      cases hknown : f.path.all (isKnown names lead) with
      | false =>
        simp only [hknown] at hone
        obtain rfl := Except.ok.inj hone
        exact ih h
      | true =>
        simp only [hknown] at hone
        obtain ⟨n, hsum, hone⟩ := except_bind_eq_ok.mp hone
        obtain rfl := Except.ok.inj hone
        obtain ⟨rest, hrest, h⟩ := except_bind_eq_ok.mp h
        obtain rfl := Except.ok.inj h
        obtain ⟨hfilter, hsums⟩ := ih hrest
        exact ⟨congrArg (f :: ·) hfilter, List.forall_mem_cons.mpr ⟨⟨n, hsum⟩, hsums⟩⟩

theorem Recorded.of_examine {done : Nat}
    (h : examine permitted names scope limit done c = .ok (some (some v))) :
    Recorded permitted names scope c v := by
  rw [examine] at h
  cases hdate : c.date with
  | none =>
    rw [hdate] at h
    cases h
  | some date =>
    rw [hdate] at h
    obtain ⟨enough, -, h⟩ := except_bind_eq_ok.mp h
    cases enough with
    | true => cases h
    | false =>
      obtain ⟨o, hrelevant, h⟩ := except_bind_eq_ok.mp h
      obtain rfl := Option.some.inj (Except.ok.inj h)
      rw [relevant?] at hrelevant
      cases hfiles : c.files with
      | none =>
        rw [hfiles] at hrelevant
        cases hrelevant
      | some files =>
        rw [hfiles] at hrelevant
        obtain ⟨looked, hcounted, hsome⟩ := except_bind_eq_ok.mp hrelevant
        obtain ⟨hlooked, hsums⟩ := of_counted hcounted
        have hseen : seen permitted names scope.lead c = looked := by
          rw [seen, hfiles, hlooked]; rfl
        have hsome := Except.ok.inj hsome
        split_ifs at hsome with htouched
        exact ⟨⟨date, by rw [hseen, Option.some.inj hsome]⟩, hseen ▸ hsums,
          hseen ▸ List.any_eq_true.mp htouched⟩

/-- Every record that is added comes from a commit of its own, in their order. -/
theorem exists_sublist_changes (permitted : Value) (names : List String) (scope : Scope)
    (limit : Value) (done : Nat) (commits : List Commit) : ∃ cs, cs.Sublist commits ∧
      List.Forall₂ (Recorded permitted names scope) cs
        (changes permitted names scope limit done commits).1 := by
  induction commits generalizing done with
  | nil => exact ⟨[], .slnil, .nil⟩
  | cons c commits ih =>
    rw [changes]
    split
    · exact ⟨[], List.nil_sublist _, .nil⟩
    · exact ⟨[], List.nil_sublist _, .nil⟩
    · obtain ⟨cs, hsub, hcs⟩ := ih done
      exact ⟨cs, hsub.cons c, hcs⟩
    · next v hv =>
      obtain ⟨cs, hsub, hcs⟩ := ih (done + 1)
      exact ⟨c :: cs, hsub.cons_cons c, .cons (.of_examine hv) hcs⟩

/-! ### Figures under paths -/

def pathKey (path : Option String) : Value := (path.map .text).getD .null

theorem beq_pathKey (p q : Option String) : (pathKey p == pathKey q) = decide (p = q) := by
  have hsame : ∀ a b : Value, (a == b) = a.same b := fun _ _ => rfl
  cases p with
  | none =>
    cases q <;> simp [pathKey, hsame, Value.same, Value.scalarEq, Value.numberEq, Value.asFloat?,
      Value.asInt?]
  | some p =>
    cases q with
    | none =>
      simp [pathKey, hsame, Value.same, Value.scalarEq, Value.numberEq, Value.asFloat?,
        Value.asInt?]
    | some q => simp [pathKey, Value.beq_text, beq_eq_decide]

def keyed (m : OrderedMap (Option String) Value) : List (Value × Value) :=
  m.entries.map fun e => (pathKey e.1, e.2)

theorem insertEntry_keyed (m : OrderedMap (Option String) Value) (p : Option String) (v : Value) :
    Value.insertEntry (pathKey p) v (keyed m) = keyed (m.insert p v) := by
  change Value.insertEntry _ _ (m.entries.map _) = (OrderedMap.put p v m.entries).map _
  induction m.entries with
  | nil => rfl
  | cons e es ih =>
    simp only [List.map_cons, Value.insertEntry, OrderedMap.put, beq_pathKey, ih, decide_eq_true_eq]
    split_ifs <;> rfl

theorem lookup_keyed (m : OrderedMap (Option String) Value) (p : Option String) :
    Value.lookup (pathKey p) (keyed m) = m.get? p := by
  change Value.lookup _ (m.entries.map _) = OrderedMap.lookup p m.entries
  induction m.entries with
  | nil => rfl
  | cons e es ih =>
    rw [Value.lookup] at ih
    simp only [List.map_cons, Value.lookup, List.find?_cons, beq_pathKey, OrderedMap.lookup]
    by_cases hp : e.1 = p
    · simp [hp]
    · simpa [hp] using ih

theorem byPath_eq (entry : ChangedFile → Option Value) (files : List ChangedFile) :
    byPath entry files =
      .map (keyed (.ofList (files.filterMap fun f => (entry f).map (f.path, ·)))) := by
  refine congrArg Value.map ?_
  rw [OrderedMap.ofList, show ([] : List (Value × Value)) = keyed .empty from rfl]
  -- The fold may start with any map.
  generalize (OrderedMap.empty : OrderedMap (Option String) Value) = m
  induction files generalizing m with
  | nil => rfl
  | cons f files ih =>
    rw [List.foldl_cons, List.filterMap_cons]
    cases entry f with
    | none => exact ih m
    | some v =>
      dsimp only [Option.map_some]
      rw [show pathValue f = pathKey f.path from rfl, insertEntry_keyed]
      exact ih _

theorem mem_keys_byPath {entry : ChangedFile → Option Value} {k : Value} :
    k ∈ (byPath entry files).entries.map Prod.fst ↔
    ∃ f ∈ files, (entry f).isSome ∧ pathValue f = k := by
  have hkeys : (byPath entry files).entries.map Prod.fst =
      (OrderedMap.ofList (files.filterMap fun f => (entry f).map (f.path, ·))).keys.map
        pathKey := by
    rw [byPath_eq, Value.entries, keyed, OrderedMap.keys, List.map_map, List.map_map]
    rfl
  rw [hkeys]
  simp only [List.mem_map, OrderedMap.keys_ofList, List.mem_eraseDups, List.mem_filterMap,
    Option.map_eq_some_iff, Option.isSome_iff_exists]
  constructor
  · rintro ⟨p, ⟨e, ⟨f, hf, v, hv, rfl⟩, rfl⟩, rfl⟩
    exact ⟨f, hf, ⟨v, hv⟩, rfl⟩
  · rintro ⟨f, hf, ⟨v, hv⟩, rfl⟩
    exact ⟨f.path, ⟨_, ⟨f, hf, v, hv, rfl⟩, rfl⟩, rfl⟩

theorem exists_last_byPath (figure : ChangedFile → Value) {p : Option String}
    (h : p ∈ files.map ChangedFile.path) :
    ∃ before f after, files = before ++ f :: after ∧ f.path = p ∧ (∀ g ∈ after, g.path ≠ p) ∧
      Value.lookup (pathKey p) (byPath (fun f => some (figure f)) files).entries =
        some (figure f) := by
  have hmap : (files.filterMap fun f => (some (figure f)).map (f.path, ·)) =
      files.map fun f => (f.path, figure f) :=
    congrFun List.filterMap_eq_map files
  rw [byPath_eq, Value.entries, lookup_keyed, hmap]
  obtain ⟨f₀, hf₀, rfl⟩ := List.mem_map.mp h
  obtain ⟨v, hv⟩ := Option.ne_none_iff_exists'.mp
    (OrderedMap.get?_ofList_ne_none (List.mem_map_of_mem (f := fun f => (f.path, figure f)) hf₀))
  obtain ⟨before, after, heq, hafter⟩ := OrderedMap.exists_of_get?_ofList hv
  obtain ⟨before', rest, rfl, -, hrest⟩ := List.map_eq_append_iff.mp heq
  obtain ⟨f, after', rfl, hf, rfl⟩ := List.map_eq_cons_iff.mp hrest
  obtain ⟨hpath, rfl⟩ := Prod.mk.inj hf
  refine ⟨before', f, after', rfl, hpath, fun g hg => hafter _ (List.mem_map_of_mem hg), hv⟩

/-- The parts of a record that are filed under paths, and what they say of a file. -/
def pathParts (c : Commit) : List (String × (ChangedFile → Option Value)) :=
  [("churn", fun f => some (churnOf f)),
    ("ws_complexity", fun f => (sourceOf f).map Whitespace.complexity),
    ("sloc", fun f => (sourceOf f).map fun _ => f.lines),
    ("files_author_map", fun f => (addressOf c).bind
      fun a => if f.path.isSome then some (.map [(.text a, churnOf f)]) else none)]

theorem field?_change (names : List String) (scope : Scope) (c : Commit) (date : DateTime)
    (files : List ChangedFile) :
    (change names scope c date files).field? "filepaths" =
      some (.ofStrings (files.filterMap ChangedFile.path)) ∧
    ∀ part ∈ pathParts c, (change names scope c date files).field? part.1 =
      some (byPath part.2 files) := by
  have hauthors : authors c files = byPath (fun f => (addressOf c).bind fun a =>
      if f.path.isSome then some (.map [(.text a, churnOf f)]) else none) files := by
    rw [authors]
    cases addressOf c with
    | none =>
      rw [byPath_eq]
      simp only [Option.bind_none, Option.map_none, List.filterMap_none]
      rfl
    | some a => rfl
  simp [pathParts, change, Value.field?, Value.lookup, Value.beq_text, hauthors]

/-- A value records a commit by the files that were looked at: figures stand under their paths, or
under none for a file that is removed. The churn of a path is the sum of what was added to its file
and deleted from it. -/
structure FilesUnder (c : Commit) (files : List ChangedFile) (v : Value) : Prop where
  filepaths : v.field? "filepaths" = some (.ofStrings (files.filterMap ChangedFile.path))
  keys : ∀ part ∈ pathParts c, ∃ es, v.field? part.1 = some (.map es) ∧
    ∀ k, k ∈ es.map Prod.fst ↔ ∃ f ∈ files, (part.2 f).isSome ∧ pathValue f = k
  churn : ∃ es, v.field? "churn" = some (.map es) ∧ ∀ p ∈ files.filterMap ChangedFile.path,
    ∃ before f after n,
    files = before ++ f :: after ∧ f.path = some p ∧ (∀ g ∈ after, g.path ≠ some p) ∧
      sum f.added f.deleted = .ok n ∧
      Value.lookup (.text p) es = some n

/-- The keys of a part of a record are all among its paths. -/
def KeysAmongPaths (v : Value) (part : String) : Prop :=
  ∃ es paths, v.field? part = some (.map es) ∧ v.field? "filepaths" = some (.ofStrings paths) ∧
    ∀ k ∈ es.map Prod.fst, ∃ p ∈ paths, k = .text p

theorem Recorded.filesUnder (h : Recorded permitted names scope c v) :
    FilesUnder c (seen permitted names scope.lead c) v := by
  obtain ⟨⟨date, rfl⟩, hchurn, -⟩ := h
  obtain ⟨hpaths, hparts⟩ := field?_change names scope c date (seen permitted names scope.lead c)
  refine ⟨hpaths, fun part hpart => ⟨_, hparts part hpart, fun k => mem_keys_byPath⟩, _,
    hparts _ (List.mem_cons_self ..), fun p hp => ?_⟩
  obtain ⟨f₀, hf₀, hpath⟩ := List.mem_filterMap.mp hp
  obtain ⟨before, f, after, heq, hf, hafter, hlookup⟩ :=
    exists_last_byPath churnOf (List.mem_map.mpr ⟨f₀, hf₀, hpath⟩)
  obtain ⟨n, hn⟩ := hchurn f (heq ▸ by simp)
  refine ⟨before, f, after, n, heq, hf, hafter, hn, hlookup.trans ?_⟩
  rw [churnOf, hn]
  rfl

theorem FilesUnder.keysAmongPaths_iff (h : FilesUnder c files v) :
    (∀ part ∈ pathParts c, KeysAmongPaths v part.1) ↔ ∀ f ∈ files, f.path.isSome := by
  constructor
  · intro hall f hf
    obtain ⟨es, paths, hes, -, hkeys⟩ := hall _ (List.mem_cons_self ..)
    obtain ⟨es', hes', hkeys'⟩ := h.keys _ (List.mem_cons_self ..)
    obtain rfl := Value.map.inj (Option.some.inj (hes.symm.trans hes'))
    obtain ⟨p, -, hp⟩ := hkeys _ ((hkeys' _).mpr ⟨f, hf, rfl, rfl⟩)
    cases hpath : f.path with
    | none => simp [pathValue, hpath] at hp
    | some p => rfl
  · intro hall part hpart
    obtain ⟨es, hes, hkeys⟩ := h.keys part hpart
    refine ⟨es, _, hes, h.filepaths, fun k hk => ?_⟩
    obtain ⟨f, hf, -, rfl⟩ := (hkeys k).mp hk
    obtain ⟨p, hp⟩ := Option.isSome_iff_exists.mp (hall f hf)
    exact ⟨p, List.mem_filterMap.mpr ⟨f, hf, hp⟩, by rw [pathValue, hp]; rfl⟩

/-! ### Paths in names -/

/-- A commit with a record: its paths are those of the permitted files that, once stripped, occur
anywhere in the name of a result, and there is one. -/
structure Touches (permitted : Value) (names : List String) (lead : String) (c : Commit)
    (v : Value) : Prop where
  filepaths : ∃ paths, v.field? "filepaths" = some (.ofStrings paths) ∧ paths ≠ [] ∧
    ∀ p, p ∈ paths ↔ (∃ f ∈ c.files.getD [], permitted.hasText (Path.extension f.name) = .ok true ∧
      f.path = some p) ∧
      ∃ before after, before ++ stripped lead p ++ after ∈ names

/-- Whether a path is a whole name, or what follows a slash in one. -/
def endsName (names : List String) (path : String) : Bool :=
  names.any fun name => name == path || Text.endsWith name ("/" ++ path)

theorem isKnown_iff {p : String} :
    isKnown names lead p = true ↔ ∃ before after, before ++ stripped lead p ++ after ∈ names := by
  rw [isKnown, List.any_eq_true]
  simp only [Text.contains, Chars.contains_iff_infix]
  constructor
  · rintro ⟨name, hname, before, after, heq⟩
    have hwhole : String.ofList before ++ stripped lead p ++ String.ofList after = name :=
      String.toList_injective (by simpa using heq)
    exact ⟨_, _, hwhole ▸ hname⟩
  · rintro ⟨before, after, hmem⟩
    exact ⟨_, hmem, before.toList, after.toList, by simp⟩

theorem Recorded.touches (h : Recorded permitted names scope c v) :
    Touches permitted names scope.lead c v := by
  obtain ⟨⟨date, rfl⟩, -, f, hf, hpath⟩ := h
  obtain ⟨p, hp⟩ := Option.isSome_iff_exists.mp hpath
  refine ⟨_, (field?_change ..).1, List.ne_nil_of_mem (List.mem_filterMap.mpr ⟨f, hf, hp⟩),
    fun p => ?_⟩
  have hpermits : ∀ f, permitsFile permitted f = true ↔
      permitted.hasText (Path.extension f.name) = .ok true := by
    intro f
    rw [permitsFile]
    cases permitted.hasText (Path.extension f.name) <;> simp [affirms]
  simp only [List.mem_filterMap, seen, List.mem_filter, looksAt, Bool.and_eq_true, hpermits,
    ← isKnown_iff]
  constructor
  · rintro ⟨f, ⟨hf, hpermits, hknown⟩, hp⟩
    rw [hp] at hknown
    exact ⟨⟨f, hf, hpermits, hp⟩, hknown⟩
  · rintro ⟨⟨f, hf, hpermits, hp⟩, hknown⟩
    exact ⟨f, ⟨hf, hpermits, by rwa [hp]⟩, hp⟩

end History

/-! ### The whole history -/

/-- What has been read is added to the records, also if the reading fails. -/
theorem HistoryState.exists_recorded (h : HistoryState) (settings : Settings) (names : List String)
    (commits : List Commit) :
    ∃ cs vs, (h.read settings names commits).1.changes.Perm (h.changes ++ vs) ∧
      cs.Sublist (History.considered h.excludeMerges commits) ∧
      List.Forall₂ (History.Recorded settings.filters.extensions names
        (h.read settings names commits).1.scope) cs vs := by
  rw [read]
  cases History.scope settings.source settings.history.directory h.scope with
  | error e => exact ⟨[], [], by simp, List.nil_sublist _, .nil⟩
  | ok scope =>
    obtain ⟨cs, hsub, hcs⟩ :=
      History.exists_sublist_changes settings.filters.extensions names scope h.limit 0
      (History.considered h.excludeMerges commits)
    dsimp only
    generalize History.changes settings.filters.extensions names scope h.limit 0
      (History.considered h.excludeMerges commits) = outcome at hcs ⊢
    obtain ⟨vs, _ | _⟩ := outcome
    · exact ⟨cs, vs, .rfl, hsub, hcs⟩
    · refine ⟨cs, vs, ?_⟩
      dsimp only
      split
      · exact ⟨List.reverse_perm _, hsub, hcs⟩
      · exact ⟨List.reverse_perm _, hsub, hcs⟩

namespace Work

open History

variable {ref : MetricRef} {m : Metric} {j : Job} {state : HistoryState} {rs : Results}

/-- However a calculation of the history ends, the metric has added records of some of the commits,
one of each, and `R` says how a commit and its record belong together. -/
def Adds (ref : MetricRef) (state : HistoryState) (rs : Results) (j : Job)
    (R : Scope → Commit → Value → Prop) : Prop :=
  ∃ m' state' cs vs, Registered ref m' (endState (measure ref rs) j) ∧ m'.gauge = .history state' ∧
    state' = (state.read j.analysis.settings rs.keys j.session.commits).1 ∧
      state'.changes.Perm (state.changes ++ vs) ∧
    cs.Sublist (considered state.excludeMerges j.session.commits) ∧
      List.Forall₂ (R state'.scope) cs vs

theorem Adds.imp {R R' : Scope → Commit → Value → Prop} (h : Adds ref state rs j R)
    (himp : ∀ scope c v, R scope c v → R' scope c v) : Adds ref state rs j R' := by
  obtain ⟨m', state', cs, vs, hm', hgauge, hread, hperm, hsub, hall⟩ := h
  exact ⟨m', state', cs, vs, hm', hgauge, hread, hperm, hsub,
    hall.imp fun c v => himp state'.scope c v⟩

theorem adds_recorded (hm : Registered ref m j) (hgauge : m.gauge = .history state) (rs : Results) :
    Adds ref state rs j (Recorded j.analysis.settings.filters.extensions rs.keys) := by
  obtain ⟨cs, vs, hrecorded⟩ := state.exists_recorded j.analysis.settings rs.keys j.session.commits
  generalize hread : state.read j.analysis.settings rs.keys j.session.commits = outcome at hrecorded
  obtain ⟨state', r⟩ := outcome
  let read : Metric := { m with gauge := .history state' }
  have hput : Registered ref read (j.put ref read j.analysis.rows) :=
    hm.put (show read.kind = m.kind by rw [Metric.kind, Metric.kind, hgauge]; rfl) j.analysis.rows
  have hmeasure : measure ref rs j =
      (lift r >>= fun _ => addOverall ref [("commit-metrics", .list state'.changes)])
        (j.put ref read j.analysis.rows) := by
    rw [measure, bind_of_ok (metricAt_of_metric? hm.metric), hgauge]
    change measureHistory ref state rs.keys j = _
    rw [measureHistory, bind_of_ok (show settings j = .ok j.analysis.settings j from rfl),
      bind_of_ok (show session j = .ok j.session j from rfl), hread]
    exact bind_of_ok (modifyMetric_of_metric? hm.metric)
  suffices hend : ∃ m', Registered ref m' (endState (measure ref rs) j) ∧
      m'.gauge = .history state' by
    obtain ⟨m', hm', hgauge'⟩ := hend
    exact ⟨m', state', cs, vs, hm', hgauge', by rw [hread], hrecorded⟩
  rw [endState, hmeasure]
  cases r with
  | error e => exact ⟨read, hput, rfl⟩
  | ok _ =>
    let filed : Metric :=
      { read with overall := read.overall.insertMany [("commit-metrics", .list state'.changes)] }
    refine ⟨filed, ?_, rfl⟩
    rw [bind_of_ok (show lift (.ok ()) _ = .ok () _ from rfl), addOverall,
      modifyMetric_of_metric? hput.metric]
    exact hput.put (show filed.kind = read.kind from rfl) _

/-- A record has figures under its paths, and also under no path just if a file was removed. -/
theorem measure_history_keys (j : Job) (ref : MetricRef) (m : Metric) (state : HistoryState)
    (rs : Results) (hm : Registered ref m j) (hgauge : m.gauge = .history state) :
    Adds ref state rs j fun scope c v => ∃ files,
      files = seen j.analysis.settings.filters.extensions rs.keys scope.lead c ∧
      FilesUnder c files v ∧ ((∀ part ∈ pathParts c, KeysAmongPaths v part.1) ↔
        ∀ f ∈ files, f.path.isSome) :=
  (adds_recorded hm hgauge rs).imp fun _ _ _ h =>
    ⟨_, rfl, h.filesUnder, h.filesUnder.keysAmongPaths_iff⟩

end Work

namespace Sample

open History

def historyRef : MetricRef := ⟨.files, MetricKind.history.name⟩

def jobWith (c : Commit) : Job := { historyJob with session := { session with commits := [c] } }

def readWith (c : Commit) : HistoryState :=
  ((HistoryState.fresh historySettings).read historySettings sources.keys [c]).1

theorem exists_record {c : Commit} {R : Scope → Commit → Value → Prop}
    (h : Work.Adds historyRef (.fresh historySettings) sources (jobWith c) R)
    (hone : (readWith c).changes.length = 1) :
    ∃ v, (readWith c).changes = [v] ∧ R (readWith c).scope c v := by
  obtain ⟨m', state', cs, vs, -, -, hread, hperm, hsub, hall⟩ := h
  obtain rfl : state' = readWith c := hread
  obtain ⟨v, hv⟩ := List.length_eq_one_iff.mp hone
  obtain rfl : [v] = vs := List.singleton_perm.mp (hv ▸ hperm)
  obtain ⟨c', rest, hR, -, rfl⟩ := List.forall₂_cons_right_iff.mp hall
  have hmem : c' ∈ [c] := List.mem_of_mem_filter (hsub.subset (List.mem_cons_self ..))
  exact ⟨v, hv, List.mem_singleton.mp hmem ▸ hR⟩

/-- The churn of a removed file stands under no path. -/
theorem measure_history_keys_removed :
    ∃ v es, (readWith bothChanged).changes = [v] ∧ v.field? "churn" = some (.map es) ∧
    .null ∈ es.map Prod.fst ∧ ¬ ∀ part ∈ pathParts bothChanged, KeysAmongPaths v part.1 := by
  obtain ⟨v, hv, files, rfl, hunder, hiff⟩ := exists_record
    (Work.measure_history_keys (jobWith bothChanged) historyRef _ _ sources ⟨rfl, rfl⟩ rfl)
    (by decide +kernel)
  obtain ⟨es, hes, hkeys⟩ := hunder.keys _ (List.mem_cons_self ..)
  have hremoved : changed "B.java" none ∈
      seen (.ofStrings [".java"]) sources.keys (readWith bothChanged).scope.lead bothChanged :=
    List.mem_filter.mpr ⟨by simp [bothChanged, committed], by decide +kernel⟩
  exact ⟨v, es, hv, hes, (hkeys _).mpr ⟨_, hremoved, rfl, rfl⟩,
    fun hall => nomatch hiff.mp hall _ hremoved⟩

end Sample

namespace Work

open History

/-- Every path of a record occurs, once stripped, in the name of a result. A commit none of whose
permitted files has such a path adds nothing. -/
theorem measure_history_occurs (j : Job) (ref : MetricRef) (m : Metric) (state : HistoryState)
    (rs : Results) (hm : Registered ref m j) (hgauge : m.gauge = .history state) :
    Adds ref state rs j fun scope =>
      Touches j.analysis.settings.filters.extensions rs.keys scope.lead :=
  (adds_recorded hm hgauge rs).imp fun _ _ _ => Recorded.touches

end Work

namespace Sample

open History

def elsewhere : Commit := committed "5" (some [changed "A.java" (some "p/A.java")])

/-- Its path is in the middle of the name `app/A.java`, so it is recorded. -/
theorem measure_history_occurs_elsewhere :
    ∃ v paths, (readWith elsewhere).changes = [v] ∧ v.field? "filepaths" = some (.ofStrings paths) ∧
    "p/A.java" ∈ paths ∧ endsName sources.keys
      (stripped (readWith elsewhere).scope.lead "p/A.java") = false := by
  obtain ⟨v, hv, paths, hpaths, hne, hmem⟩ := exists_record
    (Work.measure_history_occurs (jobWith elsewhere) historyRef _ _ sources ⟨rfl, rfl⟩ rfl)
      (by decide +kernel)
  obtain ⟨p, hp⟩ := List.exists_mem_of_ne_nil paths hne
  obtain ⟨⟨f, hf, -, hpath⟩, -⟩ := (hmem p).mp hp
  obtain rfl : f = changed "A.java" (some "p/A.java") := List.mem_singleton.mp hf
  exact ⟨v, paths, hv, hpaths, Option.some.inj hpath ▸ hp, by decide +kernel⟩

end Sample

end CodeAtlas
