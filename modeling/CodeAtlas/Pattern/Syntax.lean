import CodeAtlas.Decimal.Numeral
import CodeAtlas.Fault
import CodeAtlas.Pattern.Basic
import CodeAtlas.Text.CharName
import CodeAtlas.Text.Name

/-!
# The written form of patterns

`Node.parse` reads a regular expression and says why a malformed one is refused. A pattern is read sign by sign, where
a backslash and the character behind it are one sign.
-/

namespace CodeAtlas.Pattern

inductive Sign where
  | plain (c : Char)
  | escaped (c : Char)
  | dangling
deriving Repr, DecidableEq

def signs : List Char → List Sign
  | [] => []
  | ['\\'] => [.dangling]
  | '\\' :: c :: cs => .escaped c :: signs cs
  | c :: cs => .plain c :: signs cs

def Sign.text : Sign → List Char
  | .plain c => [c]
  | .escaped c => ['\\', c]
  | .dangling => ['\\']

structure Flags where
  ignoreCase : Bool := false
  multiline : Bool := false
  dotAll : Bool := false
  verbose : Bool := false
  ascii : Bool := false
  unicode : Bool := false
  template : Bool := false
deriving Repr, DecidableEq

structure Reader where
  rest : List Sign
  groups : Nat := 0
  names : List (List Char × Nat) := []
  closed : List (Nat × Width) := []
  groupsBefore : Option Nat := none
  asked : Nat := 0
  loose : Bool := false
  repeats : Bool := false
  depth : Nat := 0

abbrev Read := StateT Reader (Except Fault)

namespace Read

def fail {α : Type} : Read α := throw .badPattern

def peek? : Read (Option Sign) := do return (← get).rest.head?

def refuseDangling : Read Unit := do
  if (← peek?) == some .dangling then fail

def skip : Read Unit := do
  modify fun r => { r with rest := r.rest.drop 1 }
  refuseDangling

def next? : Read (Option Sign) := do
  let s ← peek?
  if s.isSome then skip
  return s

def isNext (c : Char) : Read Bool := do return (← peek?) == some (.plain c)

def accept (c : Char) : Read Bool := do
  if ← isNext c then
    skip
    return true
  else return false

def expect (c : Char) : Read Unit := do
  if !(← accept c) then fail

def takeWhile (p : Char → Bool) : (n : Nat) → Read (List Char)
  | 0 => pure []
  | n + 1 => do
    match ← peek? with
    | some (.plain c) =>
      if p c then
        skip
        return c :: (← takeWhile p n)
      else return []
    | _ => return []

def takeDigits : Read (List Char) := do takeWhile Text.asciiDigit (← get).rest.length

def upTo (stop : Char) : (fuel : Nat) → Read (List Char)
  | 0 => fail
  | fuel + 1 => do
    match ← next? with
    | none => fail
    | some s => if s == .plain stop then return [] else return s.text ++ (← upTo stop fuel)

def nameUpTo (stop : Char) : Read (List Char) := do
  let name ← upTo stop ((← get).rest.length + 1)
  if name.isEmpty then fail else return name

end Read

open Read

def isHexDigit (c : Char) : Bool :=
  Text.asciiDigit c || ('a' ≤ c && c ≤ 'f') || ('A' ≤ c && c ≤ 'F')

def isOctalDigit (c : Char) : Bool := '0' ≤ c && c ≤ '7'

def hexChar (n : Nat) : Read Char := do
  let ds ← takeWhile isHexDigit n
  let code := Decimal.numeral 16 ds
  if ds.length == n && code < 0x110000 then return Text.ofCode code else fail

def namedChar : Read Char := do
  expect '\x7b'
  match Text.charNamed? (← nameUpTo '\x7d') with
  | some c => return c
  | none => fail

def plainClass (f : Flags) (items : List ClassItem) : CharClass :=
  ⟨false, items, f.ignoreCase, f.ascii⟩

def literal (f : Flags) (c : Char) : Node := .set (plainClass f [.one c])

def namedClass? : Char → Option ClassItem
  | 'd' => some (.digit false)
  | 'D' => some (.digit true)
  | 's' => some (.blank false)
  | 'S' => some (.blank true)
  | 'w' => some (.word false)
  | 'W' => some (.word true)
  | _ => none

def controlChar? : Char → Option Char
  | 'a' => some '\x07'
  | 'f' => some '\x0c'
  | 'n' => some '\n'
  | 'r' => some '\r'
  | 't' => some '\t'
  | 'v' => some '\x0b'
  | _ => none

/-- The rest of an escape that stands for one character, after the backslash and `c`. -/
def escapedChar (c : Char) : Read Char :=
  match controlChar? c with
  | some d => pure d
  | none =>
    if c == 'x' then hexChar 2
    else if c == 'u' then hexChar 4
    else if c == 'U' then hexChar 8
    else if c == 'N' then namedChar
    else if Text.asciiAlnum c then fail
    else pure c

def octalChar (ds : List Char) : Read Char :=
  let n := Decimal.numeral 8 ds
  if n < 0o400 then pure (Char.ofNat n) else fail

def classEscape (c : Char) : Read ClassItem :=
  match namedClass? c with
  | some item => pure item
  | none => do
    if c == 'b' then return .one '\x08'
    else if isOctalDigit c then return .one (← octalChar (c :: (← takeWhile isOctalDigit 2)))
    else return .one (← escapedChar c)

/-- A group that is asked about inside of a look behind has to be closed in front of it. -/
def checkBehind (i : Nat) : Read Unit := do
  let r ← get
  match r.groupsBefore with
  | some n => if (r.closed.lookup i).isNone || n < i then fail
  | none => pure ()

def groupRef (f : Flags) (i : Nat) : Read Node := do
  if ((← get).closed.lookup i).isNone then fail
  checkBehind i
  return .backref i f.ignoreCase f.ascii

def digitEscape (f : Flags) (c : Char) : Read Node := do
  if c == '0' then return literal f (← octalChar (← takeWhile isOctalDigit 2))
  match ← takeWhile Text.asciiDigit 1 with
  | [d] =>
    if isOctalDigit c && isOctalDigit d then
      match ← takeWhile isOctalDigit 1 with
      | [e] => return literal f (← octalChar [c, d, e])
      | _ => groupRef f (Decimal.numeral 10 [c, d])
    else groupRef f (Decimal.numeral 10 [c, d])
  | _ => groupRef f (Decimal.digitOf c)

def escape (f : Flags) (c : Char) : Read Node := do
  match namedClass? c with
  | some item => return .set (plainClass f [item])
  | none =>
    if c == 'A' then return .place .textStart
    else if c == 'Z' then return .place .veryEnd
    else if c == 'b' then return .place (.wordEdge f.ascii)
    else if c == 'B' then return .place (.notWordEdge f.ascii)
    else if Text.asciiDigit c then digitEscape f c
    else return literal f (← escapedChar c)

def classItem : Sign → Read ClassItem
  | .plain c => pure (.one c)
  | .escaped c => classEscape c
  | .dangling => fail

/-- The members of a class up to its closing bracket. `first` is set while nothing has been read, where a
closing bracket stands for itself. -/
def classItems : (fuel : Nat) → (first : Bool) → Read (List ClassItem)
  | 0, _ => fail
  | fuel + 1, first => do
    match ← next? with
    | none => fail
    | some s =>
      if s == .plain ']' && !first then pure []
      else
        let low ← classItem s
        if ← accept '-' then
          match ← next? with
          | none => fail
          | some t =>
            if t == .plain ']' then return [low, .one '-']
            else
              match low, ← classItem t with
              | .one a, .one b =>
                if Text.code a ≤ Text.code b then return .range a b :: (← classItems fuel false) else fail
              | _, _ => fail
        else return low :: (← classItems fuel false)

def charClass (f : Flags) : Read Node := do
  let negated ← accept '^'
  let items ← classItems ((← get).rest.length + 1) true
  return .set { plainClass f items.eraseDups with negated := negated }

def longestRepeat : Nat := 4294967295

def bound? (ds : List Char) : Read (Option Nat) :=
  if ds.isEmpty then pure none
  else if Decimal.longestNumeral < ds.length then throw .badValue
  else
    let n := Decimal.numeral 10 ds
    if n < longestRepeat then pure (some n) else throw .tooLarge

/-- Bounds of a repetition, if one comes next; a brace that opens no bounds is left alone. -/
def bounds? : Read (Option (Nat × Option Nat)) := do
  if ← accept '*' then return some (0, none)
  else if ← accept '+' then return some (1, none)
  else if ← accept '?' then return some (0, some 1)
  else if ← isNext '\x7b' then
    let before ← get
    skip
    if ← isNext '\x7d' then
      set before
      return none
    let lo ← takeDigits
    let hi ← if ← accept ',' then takeDigits else pure lo
    if ← accept '\x7d' then
      let least := (← bound? lo).getD 0
      let most ← bound? hi
      if most.any (· < least) then fail
      return some (least, most)
    else
      set before
      return none
  else return none

def greedMark : Read Greed := do
  if ← accept '?' then return .lazy
  else if ← accept '+' then return .possessive
  else return .greedy

def skipLine : (fuel : Nat) → Read Unit
  | 0 => pure ()
  | fuel + 1 => do
    match ← next? with
    | none => pure ()
    | some s => if s == .plain '\n' then pure () else skipLine fuel

def atComment : Read Bool := do
  return (← get).rest.take 3 == [.plain '(', .plain '?', .plain '#']

/-- Skips comments in brackets and, where the verbose form allows them, blanks and line comments. -/
def skipSpace (f : Flags) : (fuel : Nat) → Read Unit
  | 0 => pure ()
  | fuel + 1 => do
    if ← atComment then
      skip
      skip
      skip
      let _ ← upTo ')' ((← get).rest.length + 1)
      skipSpace f fuel
    else if f.verbose then
      match ← peek? with
      | some (.plain c) =>
        if c == ' ' || (9 ≤ c.toNat && c.toNat ≤ 13) then
          skip
          skipSpace f fuel
        else if c == '#' then
          skip
          skipLine (← get).rest.length
          skipSpace f fuel
        else pure ()
      | _ => pure ()

def setFlag (f : Flags) (on : Bool) : Char → Option Flags
  | 'i' => some { f with ignoreCase := on }
  | 'm' => some { f with multiline := on }
  | 's' => some { f with dotAll := on }
  | 'x' => some { f with verbose := on }
  | 'a' => some { f with ascii := on }
  | 'u' => some { f with unicode := on }
  | 't' => some { f with template := on }
  | _ => none

def setFlags (f : Flags) (on : Bool) (letters : List Char) : Read Flags :=
  match letters.foldlM (fun g c => setFlag g on c) f with
  | some g => pure g
  | none => fail

def flagLetters : Read (List Char) := do
  let letters ← takeWhile Text.asciiLetter (← get).rest.length
  let _ ← setFlags {} true letters
  if letters.contains 'a' && letters.contains 'u' then fail
  return letters

def partFlags (f : Flags) : Read Flags := do
  let on ← flagLetters
  let off ← if ← accept '-' then
      let letters ← flagLetters
      if letters.isEmpty || letters.any fun c => c == 'a' || c == 'u' || on.contains c then fail
      pure letters
    else pure []
  if (on.isEmpty && off.isEmpty) || on.contains 't' || off.contains 't' then fail
  expect ':'
  let g ← setFlags (← setFlags f true on) false off
  return if on.contains 'u' then { g with ascii := false } else g

def openGroup (name : Option (List Char)) : Read Nat := do
  let r ← get
  let i := r.groups + 1
  match name with
  | some n =>
    if !Text.isName n || (r.names.lookup n).isSome then fail
    set { r with groups := i, names := (n, i) :: r.names }
  | none => set { r with groups := i }
  return i

def closeGroup (i : Nat) (body : Node) : Read Unit :=
  modify fun r => { r with closed := (i, body.width r.closed) :: r.closed }

def conditionGroup (name : List Char) : Read Nat := do
  let i ←
    if Text.isName name then
      match (← get).names.lookup name with
      | some i => pure i
      | none => fail
    else
      match Decimal.whole? 10 name with
      | some n =>
        if 0 < n && n < longestRepeat / 4 then
          modify fun r => { r with asked := max r.asked n.toNat }
          pure n.toNat
        else fail
      | none => fail
  checkBehind i
  return i

def lookBehind (negated : Bool) (body : Node) : Read Node := do
  let w := body.width (← get).closed
  if w.least != w.most || longestRepeat < w.least then modify fun r => { r with loose := true }
  return .behind negated w.least body

def repeatable : Node → Bool
  | .empty | .place _ => false
  | .rep _ _ _ _ => false
  | _ => true

/-- A node that stands for its group of items, which can be repeated even if it is empty. -/
def wrapped (n : Node) : Node :=
  if repeatable n then n else .seq .empty n

/-- Either of two nodes. Two classes without a negation are one class. -/
def either (a b : Node) : Node :=
  match a, b with
  | .set s, .set t =>
    if !s.negated && !t.negated && s.ignoreCase == t.ignoreCase && s.ascii == t.ascii then
      .set { s with items := (s.items ++ t.items).eraseDups }
    else .alt a b
  | _, _ => .alt a b

def deepestNesting : Nat := 490

mutual

def choice (f : Flags) : (fuel : Nat) → Read Node
  | 0 => fail
  | fuel + 1 => do
    let first ← items f fuel
    if ← accept '|' then return either first (← choice f fuel) else return first

def items (f : Flags) : (fuel : Nat) → Read Node
  | 0 => fail
  | fuel + 1 => do
    skipSpace f ((← get).rest.length + 1)
    match ← peek? with
    | none => return .empty
    | some (.plain '|') | some (.plain ')') => return .empty
    | some _ =>
      let one ← quantified f (← atom f fuel)
      let rest ← items f fuel
      match one, rest with
      | .empty, rest => return rest
      | one, .empty => return one
      | one, rest => return .seq one rest

def atom (f : Flags) : (fuel : Nat) → Read Node
  | 0 => fail
  | fuel + 1 => do
    if ← isNext '\x7b' then
      if (← bounds?).isSome then fail
      skip
      return literal f '\x7b'
    match ← next? with
    | none | some .dangling => fail
    | some (.escaped c) => escape f c
    | some (.plain c) =>
      if c == '[' then charClass f
      else if c == '.' then return .any f.dotAll
      else if c == '^' then return .place (if f.multiline then .lineStart else .textStart)
      else if c == '$' then return .place (if f.multiline then .lineEnd else .textEnd)
      else if c == '*' || c == '+' || c == '?' then fail
      else if c == '(' then
        modify fun r => { r with depth := r.depth + 1 }
        if deepestNesting < (← get).depth then throw .tooDeep
        let n ← group f fuel
        modify fun r => { r with depth := r.depth - 1 }
        return n
      else return literal f c

def bracketed (f : Flags) : (fuel : Nat) → Read Node
  | 0 => fail
  | fuel + 1 => do
    let body ← choice f fuel
    expect ')'
    return body

def keptGroup (f : Flags) (name : Option (List Char)) : (fuel : Nat) → Read Node
  | 0 => fail
  | fuel + 1 => do
    let i ← openGroup name
    let body ← bracketed f fuel
    closeGroup i body
    return .group i body

def behindGroup (f : Flags) (negated : Bool) : (fuel : Nat) → Read Node
  | 0 => fail
  | fuel + 1 => do
    let outer := (← get).groupsBefore
    if outer.isNone then modify fun r => { r with groupsBefore := some r.groups }
    let body ← choice f fuel
    modify fun r => { r with groupsBefore := outer }
    expect ')'
    lookBehind negated body

def group (f : Flags) : (fuel : Nat) → Read Node
  | 0 => fail
  | fuel + 1 => do
    if !(← accept '?') then keptGroup f none fuel
    else if ← accept ':' then return wrapped (← bracketed f fuel)
    else if ← accept '>' then return .atomic (← bracketed f fuel)
    else if ← accept '=' then return .ahead false (← bracketed f fuel)
    else if ← accept '!' then return .ahead true (← bracketed f fuel)
    else if ← accept '<' then
      if ← accept '=' then behindGroup f false fuel
      else
        expect '!'
        behindGroup f true fuel
    else if ← accept 'P' then
      if ← accept '<' then keptGroup f (some (← nameUpTo '>')) fuel
      else
        expect '='
        match (← get).names.lookup (← nameUpTo ')') with
        | some i => groupRef f i
        | none => fail
    else if ← accept '(' then
      let i ← conditionGroup (← nameUpTo ')')
      let yes ← items f fuel
      let no ← if ← accept '|' then items f fuel else pure .empty
      expect ')'
      return .cond i yes no
    else return wrapped (← bracketed (← partFlags f) fuel)

def quantified (f : Flags) (node : Node) : Read Node := do
  skipSpace f ((← get).rest.length + 1)
  match ← bounds? with
  | none => return node
  | some (least, most) =>
    if !repeatable node then fail
    modify fun r => { r with repeats := true }
    let greed ← greedMark
    skipSpace f ((← get).rest.length + 1)
    if (← bounds?).isSome then fail
    return .rep node least most greed

end

def leadingFlags (f : Flags) : (fuel : Nat) → Read Flags
  | 0 => pure f
  | fuel + 1 => do
    skipSpace f ((← get).rest.length + 1)
    match (← get).rest with
    | .plain '(' :: .plain '?' :: rest =>
      let letters := rest.takeWhile fun s => s.text.all Text.asciiLetter
      if !letters.isEmpty && (rest.drop letters.length).head? == some (.plain ')') then
        skip
        skip
        let letters ← flagLetters
        expect ')'
        leadingFlags (← setFlags f true letters) fuel
      else return f
    | _ => return f

/-- Reads a whole pattern. What can only be judged when all of it is known is judged last. -/
def readPattern : Read Node := do
  refuseDangling
  let n := (← get).rest.length
  let f ← leadingFlags {} (n + 1)
  let node ← choice f (4 * n + 8)
  if f.ascii && f.unicode then throw .badValue
  let r ← get
  if !r.rest.isEmpty || r.groups < r.asked || r.loose || (f.template && r.repeats) then fail
  return node

def Node.parse (s : String) : Except Fault Node :=
  (readPattern.run { rest := signs s.toList }).map Prod.fst

end CodeAtlas.Pattern
