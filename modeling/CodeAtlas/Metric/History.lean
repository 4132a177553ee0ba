import CodeAtlas.Metric.Whitespace
import CodeAtlas.Path
import CodeAtlas.Settings

/-!
# Changes in the history of commits

A commit counts if it changes a file of the analysis. Of each such commit the changed files are recorded, how many
lines changed in them and by whom, and which of them changed together.
-/

namespace CodeAtlas

structure ChangedFile where
  name : String
  /-- Where the file is after the commit; a removed file is nowhere. -/
  path : Option String
  added : Value
  deleted : Value
  source : Option String
  lines : Value
deriving Inhabited

structure Commit where
  hash : String
  date : Option DateTime
  author : Option String
  isMerge : Bool
  files : Option (List ChangedFile)
deriving Inhabited

namespace History

structure Scope where
  lead : String
  fullLead : String
deriving Repr, Inhabited

def stripped (lead path : String) : String :=
  String.ofList ((Text.replace path lead "").toList.dropWhile (· == '/'))

def isKnown (names : List String) (lead path : String) : Bool :=
  names.any fun name => Text.contains name (stripped lead path)

def pathValue (f : ChangedFile) : Value := (f.path.map Value.text).getD .null

def sum (a b : Value) : Except Fault Value :=
  match a, b with
  | .text s, .text t => .ok (.text (s ++ t))
  | .list xs, .list ys => .ok (.list (xs ++ ys))
  | a, b =>
    match a.asInt?, b.asInt?, a.toFloat?, b.toFloat? with
    | some m, some n, _, _ => .ok (.int (m + n))
    | _, _, some x, some y => .ok (.float (x + y))
    | _, _, _, _ => .error .wrongKind

def churnOf (f : ChangedFile) : Value := (sum f.added f.deleted).toOption.getD .null

/-- Files entries under the paths of files; a later entry for a path replaces an earlier one. -/
def byPath (entry : ChangedFile → Option Value) (files : List ChangedFile) : Value :=
  .map (files.foldl
    (fun acc f =>
      match entry f with
      | some v => Value.insertEntry (pathValue f) v acc
      | none => acc) [])

/-- The files of a commit that count: those with a permitted extension that are either removed or known. There has
to be a sum of the changed lines of each of them. -/
def counted (permitted : Value) (names : List String) (lead : String) (files : List ChangedFile) :
    Except Fault (List ChangedFile) :=
  files.filterMapM fun f => do
    if ← permitted.hasText (Path.extension f.name) then
      if f.path.all (isKnown names lead) then
        let _ ← sum f.added f.deleted
        return some f
      else return none
    else return none

def sourceOf (f : ChangedFile) : Option String :=
  match f.source with
  | some "" => none
  | other => other

def links (names : List String) (lead : String) : List String → List Value
  | [] => []
  | path :: rest =>
    let link (a b : String) : Option Value :=
      let source := stripped lead a
      let target := stripped lead b
      if isKnown names lead a && isKnown names lead b && source != "" && target != "" then
        some (.map [(.text "source", .text source), (.text "target", .text target),
          (.text "temporal", .bool true)])
      else none
    rest.filterMap (link path) ++ links names lead rest

def addressOf (c : Commit) : Option String :=
  match c.author with
  | some "" => none
  | other => other

def authors (c : Commit) (files : List ChangedFile) : Value :=
  match addressOf c with
  | none => .map []
  | some address =>
    byPath (fun f => if f.path.isSome then some (.map [(.text address, churnOf f)]) else none) files

def change (names : List String) (scope : Scope) (c : Commit) (date : DateTime) (files : List ChangedFile) : Value :=
  let paths := files.filterMap ChangedFile.path
  .map
    [(.text "hash", .text c.hash),
      (.text "date", .text date.dayFirst),
      (.text "exact_date", .text date.precise),
      (.text "files", .ofStrings ((files.filter fun f => f.path.isSome).map ChangedFile.name)),
      (.text "filepaths", .ofStrings paths),
      (.text "links", .list (links names scope.lead paths)),
      (.text "churn", byPath (fun f => some (churnOf f)) files),
      (.text "ws_complexity", byPath (fun f => (sourceOf f).map Whitespace.complexity) files),
      (.text "sloc", byPath (fun f => (sourceOf f).map fun _ => f.lines) files),
      (.text "author", .text (if files.isEmpty then "" else (addressOf c).getD "")),
      (.text "files_author_map", authors c files),
      (.text "file_result_prefix", .text scope.lead),
      (.text "file_result_prefix_full", .text scope.fullLead)]

def reached (n : Nat) (limit : Value) : Except Fault Bool :=
  match limit with
  | .bool b => .ok (decide ((if b then 1 else 0) ≤ n))
  | .int m => .ok (decide (m ≤ n))
  | .float x => .ok (decide (x ≤ Float.ofNat n))
  | _ => .error .wrongKind

/-- What is recorded of one commit, if it counts: it has to change a known file. -/
def relevant? (permitted : Value) (names : List String) (scope : Scope) (c : Commit) (date : DateTime) :
    Except Fault (Option Value) :=
  match c.files with
  | none => .ok none
  | some files => do
    let files ← counted permitted names scope.lead files
    return if files.any fun f => f.path.isSome then some (change names scope c date files) else none

def examine (permitted : Value) (names : List String) (scope : Scope) (limit : Value) (done : Nat) (c : Commit) :
    Except Fault (Option (Option Value)) :=
  match c.date with
  | none => .error .badValue
  | some date => do
    if ← reached done limit then return none
    return some (← relevant? permitted names scope c date)

def changes (permitted : Value) (names : List String) (scope : Scope) (limit : Value) :
    (done : Nat) → List Commit → List Value × Except Fault Unit
  | _, [] => ([], .ok ())
  | done, c :: rest =>
    match examine permitted names scope limit done c with
    | .error e => ([], .error e)
    | .ok none => ([], .ok ())
    | .ok (some none) => changes permitted names scope limit done rest
    | .ok (some (some v)) =>
      let (vs, r) := changes permitted names scope limit (done + 1) rest
      (v :: vs, r)

def considered (excludeMerges : Value) (commits : List Commit) : List Commit :=
  commits.filter fun c => !(excludeMerges.truthy && c.isMerge)

def scope (source directory : Value) (before : Scope) : Except Fault Scope :=
  if !source.truthy || !directory.truthy then .ok before
  else if source == directory then .ok ⟨"", ""⟩
  else
    match source, directory with
    | .text source, .text dir =>
      let full := Text.replace source (dir ++ "/") ""
      let lead := Path.parent full
      .ok ⟨if lead == "." then "" else lead, full⟩
    | .text _, _ => .error .wrongKind
    | _, _ => .error .noSuchPart

end History

structure HistoryState where
  limit : Value
  excludeMerges : Value
  scope : History.Scope := ⟨"", ""⟩
  dated : List (DateTime × String) := []
  latest : Option DateTime := none
  earliest : Option DateTime := none
  changes : List Value := []
deriving Inhabited

namespace HistoryState

/-- Dates and hashes of commits, up to one without a date: of all commits, unless the limit is zero. -/
def datesOf (limit : Value) : List Commit → List (DateTime × String) × Except Fault Unit
  | [] => ([], .ok ())
  | c :: rest =>
    match c.date, History.reached 0 limit with
    | none, _ => ([], .error .badValue)
    | _, .error e => ([], .error e)
    | _, .ok true => ([], .ok ())
    | some date, .ok false =>
      let (dates, r) := datesOf limit rest
      ((date, c.hash) :: dates, r)

def read (settings : Settings) (names : List String) (commits : List Commit) (h : HistoryState) :
    HistoryState × Except Fault Unit :=
  match History.scope settings.source settings.history.directory h.scope with
  | .error e => (h, .error e)
  | .ok scope =>
    let h := { h with scope := scope }
    let commits := History.considered h.excludeMerges commits
    match History.changes settings.filters.extensions names scope h.limit 0 commits with
    | (changes, .error e) => ({ h with changes := h.changes ++ changes }, .error e)
    | (changes, .ok ()) =>
      let (dates, r) := datesOf h.limit commits
      let dated := h.dated ++ dates
      let h := { h with changes := (h.changes ++ changes).reverse, dated := dated }
      match r with
      | .error e => (h, .error e)
      | .ok () =>
        ({ h with
          latest := dated.head?.map Prod.fst
          earliest := dated.getLast?.map Prod.fst }, .ok ())

end HistoryState

end CodeAtlas
