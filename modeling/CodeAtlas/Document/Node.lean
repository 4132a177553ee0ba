import CodeAtlas.Document.Token

/-!
# The tree of a document

Tokens are put together to a tree of texts, lists and maps. A part can be given a name, an anchor, and be named
again further down, where it then stands once more. It can even be named inside itself; the tree then goes on as if the
part were written out there once, and stops at the next such place.
-/

namespace CodeAtlas.Document

inductive Node where
  | scalar (tag : Option String) (plain : Bool) (text : String)
  | list (tag : Option String) (items : List Node)
  | map (tag : Option String) (entries : List (Node × Node))
  | within (name : String)
deriving Repr, Inhabited

def ownTags : String := "tag:yaml.org,2002:"

def tupleTag : String := ownTags ++ "python/tuple"

namespace Node

def empty : Node := .scalar none true ""

mutual

def fill (name : String) (part : Node) : Node → Node
  | .scalar tag plain text => .scalar tag plain text
  | .list tag items => .list tag (fillItems name part items)
  | .map tag entries => .map tag (fillEntries name part entries)
  | .within n => if n == name then part else .within n

def fillItems (name : String) (part : Node) : List Node → List Node
  | [] => []
  | n :: rest => fill name part n :: fillItems name part rest

def fillEntries (name : String) (part : Node) : List (Node × Node) → List (Node × Node)
  | [] => []
  | (k, v) :: rest => (fill name part k, fill name part v) :: fillEntries name part rest

end

mutual

/-- Whether a part of that name would have to be complete before this can be made. Only lists of fixed length need
their items at once. -/
def needs (name : String) : Node → Bool
  | .within n => n == name
  | .list tag items => tag == some tupleTag && needsAny name items
  | _ => false

def needsAny (name : String) : List Node → Bool
  | [] => false
  | n :: rest => needs name n || needsAny name rest

end

structure State where
  tokens : List Token
  broken : Option Reason := none
  anchors : List (String × Node) := []
  looped : List String := []
  handles : List (String × String) := [("!", "!"), ("!!", ownTags)]
  depth : Nat := 0

abbrev Read := StateT State (Except Reason)

def deepest : Nat := 488

def malformed {α : Type} : Read α := throw .malformed

def inside {α : Type} (read : Read α) : Read α := do
  if deepest ≤ (← get).depth then throw (.fault .tooDeep)
  modify fun s => { s with depth := s.depth + 1 }
  let a ← read
  modify fun s => { s with depth := s.depth - 1 }
  return a

def peek : Read (Option Token) := do
  let s ← get
  match s.tokens, s.broken with
  | t :: _, _ => return some t
  | [], none => return none
  | [], some r => throw r

def drop : Read Unit := modify fun s => { s with tokens := s.tokens.drop 1 }

def isNext (ts : List Token) : Read Bool := do return (← peek).any ts.contains

def expect (t : Token) : Read Unit := do
  if (← peek) == some t then drop else malformed

structure Marks where
  anchor : Option String := none
  tag : Option String := none

def fullTag (handle : Option String) (name : String) : Read String :=
  match handle with
  | none => pure name
  | some h => do
    match (← get).handles.lookup h with
    | some lead => return lead ++ name
    | none => malformed

def readMarks : (fuel : Nat) → Marks → Read Marks
  | 0, m => pure m
  | fuel + 1, m => do
    match ← peek, m.anchor, m.tag with
    | some (.anchor name), none, _ => do
      drop
      readMarks fuel { m with anchor := some name }
    | some (.tag handle name), _, none => do
      drop
      let tag ← fullTag handle name
      readMarks fuel { m with tag := some tag }
    | _, _, _ => return m

def keep (anchor : Option String) (n : Node) : Read Node :=
  match anchor with
  | none => pure n
  | some a => do
    modify fun s => { s with anchors := (a, n) :: s.anchors.filter (·.1 != a) }
    return n

def announce (anchor : Option String) : Read Unit :=
  match anchor with
  | none => pure ()
  | some a => do
    if ((← get).anchors.lookup a).isSome then malformed
    let _ ← keep anchor (.within a)

def partNamed (name : String) : Read Node := do
  match (← get).anchors.lookup name with
  | some (.within n) =>
    modify fun s => { s with looped := n :: s.looped }
    return .within n
  | some n => return n
  | none => malformed

/-- Ends a part whose name was announced. Where it was named inside itself, it is put in once. -/
def complete (anchor : Option String) (n : Node) : Read Node :=
  match anchor with
  | none => pure n
  | some a => do
    if !(← get).looped.contains a then keep anchor n
    else if n.needs a then malformed
    else keep anchor (n.fill a n)

def named (anchor : Option String) (read : Read Node) : Read Node := do
  announce anchor
  let n ← inside read
  complete anchor n

mutual

/-- A part. By indentation it may only be written if `block`, and if `flat` it may be a list whose items are not
indented. -/
def readNode (block flat : Bool) : (fuel : Nat) → Read Node
  | 0 => malformed
  | fuel + 1 => do
    match ← peek with
    | some (.alias a) => do
      drop
      partNamed a
    | _ => do
      let m ← readMarks 2 {}
      match ← peek with
      | some (.scalar text plain) => do
        drop
        announce m.anchor
        keep m.anchor (.scalar m.tag plain text)
      | some .flowList => do
        drop
        named m.anchor (.list m.tag <$> readFlowItems true fuel)
      | some .flowMap => do
        drop
        named m.anchor (.map m.tag <$> readFlowEntries true fuel)
      | some .blockList => do
        if !block then malformed
        drop
        named m.anchor (.list m.tag <$> readItems fuel)
      | some .blockMap => do
        if !block then malformed
        drop
        named m.anchor (.map m.tag <$> readEntries fuel)
      | next => do
        if flat && next == some .item then named m.anchor (.list m.tag <$> readFlatItems fuel)
        else if m.anchor.isSome || m.tag.isSome then
          announce m.anchor
          keep m.anchor (.scalar m.tag true "")
        else malformed

def readOptional (block flat : Bool) (stops : List Token) : (fuel : Nat) → Read Node
  | 0 => malformed
  | fuel + 1 => do
    if ← isNext stops then return empty else readNode block flat fuel

def readItems : (fuel : Nat) → Read (List Node)
  | 0 => malformed
  | fuel + 1 => do
    match ← peek with
    | some .item => do
      drop
      let n ← readOptional true false [.item, .blockEnd] fuel
      let rest ← readItems fuel
      return n :: rest
    | some .blockEnd => do
      drop
      return []
    | _ => malformed

def readFlatItems : (fuel : Nat) → Read (List Node)
  | 0 => malformed
  | fuel + 1 => do
    match ← peek with
    | some .item => do
      drop
      let n ← readOptional true false [.item, .key, .value, .blockEnd] fuel
      let rest ← readFlatItems fuel
      return n :: rest
    | _ => return []

def readEntries : (fuel : Nat) → Read (List (Node × Node))
  | 0 => malformed
  | fuel + 1 => do
    match ← peek with
    | some .key => do
      drop
      let k ← readOptional true true [.key, .value, .blockEnd] fuel
      let v ← readEntryValue fuel
      let rest ← readEntries fuel
      return (k, v) :: rest
    | some .blockEnd => do
      drop
      return []
    | _ => malformed

def readEntryValue : (fuel : Nat) → Read Node
  | 0 => malformed
  | fuel + 1 => do
    if ← isNext [.value] then
      drop
      readOptional true true [.key, .value, .blockEnd] fuel
    else return empty

def readFlowItems (first : Bool) : (fuel : Nat) → Read (List Node)
  | 0 => malformed
  | fuel + 1 => do
    if ← isNext [.flowListEnd] then
      drop
      return []
    if !first then expect .comma
    match ← peek with
    | some .key => do
      drop
      let entry ← inside do
        let k ← readOptional false false [.value, .comma, .flowListEnd] fuel
        let v ← readFlowValue .flowListEnd fuel
        return (k, v)
      let rest ← readFlowItems false fuel
      return .map none [entry] :: rest
    | some .flowListEnd => do
      drop
      return []
    | _ => do
      let n ← readNode false false fuel
      let rest ← readFlowItems false fuel
      return n :: rest

def readFlowEntries (first : Bool) : (fuel : Nat) → Read (List (Node × Node))
  | 0 => malformed
  | fuel + 1 => do
    if ← isNext [.flowMapEnd] then
      drop
      return []
    if !first then expect .comma
    match ← peek with
    | some .key => do
      drop
      let k ← readOptional false false [.value, .comma, .flowMapEnd] fuel
      let v ← readFlowValue .flowMapEnd fuel
      let rest ← readFlowEntries false fuel
      return (k, v) :: rest
    | some .flowMapEnd => do
      drop
      return []
    | _ => do
      let k ← readNode false false fuel
      let rest ← readFlowEntries false fuel
      return (k, empty) :: rest

def readFlowValue (stop : Token) : (fuel : Nat) → Read Node
  | 0 => malformed
  | fuel + 1 => do
    if ← isNext [.value] then
      drop
      readOptional false false [.comma, stop] fuel
    else return empty

end

/-- The directives in front of a document. The format's version is given once and starts with 1; a short form of tags
is given once. -/
def readDirectives : (fuel : Nat) → (versions : Nat) → (given : List String) → Read Unit
  | 0, _, _ => malformed
  | fuel + 1, versions, given => do
    match ← peek with
    | some (.version major) => do
      drop
      if versions != 0 || major != 1 then malformed
      readDirectives fuel 1 given
    | some (.tagHandle handle lead) => do
      drop
      if given.contains handle then malformed
      modify fun s => { s with handles := (handle, lead) :: s.handles }
      readDirectives fuel versions (handle :: given)
    | some .otherDirective => do
      drop
      readDirectives fuel versions given
    | _ => pure ()

def isDirective : Token → Bool
  | .version _ | .tagHandle _ _ | .otherDirective => true
  | _ => false

def readDocument (fuel : Nat) : Read (Option Node) := do
  match ← peek with
  | none => return none
  | some t => do
    let n ←
      if isDirective t || t == .documentStart then do
        readDirectives fuel 0 []
        expect .documentStart
        let next ← peek
        if next.all fun t => isDirective t || t == .documentStart || t == .documentEnd then pure empty
        else readNode true false fuel
      else readNode true false fuel
    modify fun s => { s with tokens := s.tokens.dropWhile (· == .documentEnd) }
    if (← peek).isSome then malformed
    return some n

/-- The tree of a document from its tokens, behind which it may be broken. Every token is read once and at most three
steps are nested for it. -/
def ofTokens (ts : List Token) (broken : Option Reason) : Except Reason (Option Node) :=
  ((readDocument (4 * ts.length + 4)).run { tokens := ts, broken := broken }).map Prod.fst

end Node

end CodeAtlas.Document
