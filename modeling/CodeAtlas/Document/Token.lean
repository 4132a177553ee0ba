import CodeAtlas.Document.Scalar

/-!
# Tokens of a document

A document is first cut into tokens. Lists and maps are written in brackets or by indentation; where indentation
is meant, tokens mark where such a list or map starts and ends.

A key is known as one only when the colon behind it is met. So each place where a key may start is kept in mind,
and the token that marks a key is put there later. A key stands on one line and is not longer than
`longestKey` characters.
-/

namespace CodeAtlas.Document

inductive Token where
  | documentStart
  | documentEnd
  | version (major : Nat)
  | tagHandle (handle lead : String)
  | otherDirective
  | blockList
  | blockMap
  | blockEnd
  | flowList
  | flowListEnd
  | flowMap
  | flowMapEnd
  | comma
  | item
  | key
  | value
  | alias (name : String)
  | anchor (name : String)
  | tag (handle : Option String) (name : String)
  | scalar (text : String) (plain : Bool)
deriving Repr, DecidableEq, Inhabited

structure PendingKey where
  place : Nat
  required : Bool
  index : Nat
  line : Nat
  column : Nat
deriving Repr, DecidableEq

def longestKey : Nat := 1024

structure Lexer where
  cursor : Cursor
  flow : Nat := 0
  indent : Int := -1
  outer : List Int := []
  keyAllowed : Bool := true
  /-- At most one place for each number of open brackets. -/
  pending : List (Nat × PendingKey) := []
  tokens : Array Token := #[]

namespace Lexer

def push (l : Lexer) (t : Token) : Lexer := { l with tokens := l.tokens.push t }

def putAt (l : Lexer) (n : Nat) (t : Token) : Lexer :=
  { l with tokens := ((l.tokens.toList.take n) ++ t :: l.tokens.toList.drop n).toArray }

def pushSign (l : Lexer) (t : Token) : Lexer := { l.push t with cursor := l.cursor.next }

/-- Moves over blanks, comments and line breaks to the next token. Outside of brackets a key may start on a new
line. -/
def toNextToken : (fuel : Nat) → Lexer → Lexer
  | 0, l => l
  | fuel + 1, l =>
    let c := l.cursor.skipComment
    match c.lineBreak? with
    | none => { l with cursor := c }
    | some (_, c) => toNextToken fuel { l with cursor := c, keyAllowed := l.keyAllowed || l.flow == 0 }

def isStale (l : Lexer) (k : PendingKey) : Bool :=
  k.line != l.cursor.line || decide (longestKey < l.cursor.index - k.index)

def dropStale? (l : Lexer) : Option Lexer :=
  if l.pending.any fun (_, k) => l.isStale k && k.required then none
  else some { l with pending := l.pending.filter fun (_, k) => !l.isStale k }

/-- The tokens that will not change. Where a key may start, nothing is certain. -/
def certain (l : Lexer) : List Token :=
  let places := (l.pending.filter fun (_, k) => !l.isStale k).map fun (_, k) => k.place
  l.tokens.toList.take (places.foldl min l.tokens.size)

def dropKey? (l : Lexer) : Option Lexer :=
  match l.pending.lookup l.flow with
  | some k =>
    if k.required then none else some { l with pending := l.pending.filter fun (n, _) => n != l.flow }
  | none => some l

def saveKey? (l : Lexer) : Option Lexer :=
  if !l.keyAllowed then some l
  else (l.dropKey?).map fun m =>
    let c := m.cursor
    let required := m.flow == 0 && m.indent == (c.column : Int)
    { m with pending := (m.flow, ⟨m.tokens.size, required, c.index, c.line, c.column⟩) :: m.pending }

def closeTo (column : Int) : List Int → Lexer → Lexer
  | [], l => l
  | previous :: outer, l =>
    if l.flow == 0 && decide (column < l.indent) then
      closeTo column outer { l.push .blockEnd with indent := previous, outer := outer }
    else l

def unwind (l : Lexer) (column : Int) : Lexer := closeTo column l.outer l

def deepen? (l : Lexer) (column : Nat) : Option Lexer :=
  if l.indent < (column : Int) then some { l with outer := l.indent :: l.outer, indent := column } else none

def deepen (l : Lexer) (t : Token) : Lexer :=
  match l.deepen? l.cursor.column with
  | some m => m.push t
  | none => l

def leaveAll? (l : Lexer) : Option Lexer :=
  ((l.unwind (-1)).dropKey?).map fun m => { m with keyAllowed := false }

def documentMark? (l : Lexer) (t : Token) : Option Lexer :=
  (l.leaveAll?).map fun m => { m.push t with cursor := m.cursor.skip 3 }

def isNameChar (c : Char) : Bool := c.isAlphanum || c == '-' || c == '_'

def name? (c : Cursor) : Option (String × Cursor) :=
  let name := c.rest.takeWhile isNameChar
  if name.isEmpty then none else some (String.ofList name, c.skip name.length)

def handle? (c : Cursor) : Option (String × Cursor) :=
  match c.rest with
  | '!' :: ' ' :: _ => some ("!", c.next)
  | '!' :: rest =>
    let name := rest.takeWhile isNameChar
    if (rest.drop name.length).head? == some '!' then
      some (String.ofList ('!' :: name ++ ['!']), c.skip (name.length + 2))
    else none
  | _ => none

def isTagChar (c : Char) : Bool := c.isAlphanum || "-;/?:@&=+$,_.!~*'()[]".toList.contains c

def escapedBytes? : (fuel : Nat) → Cursor → Option (List UInt8 × Cursor)
  | 0, c => some ([], c)
  | fuel + 1, c =>
    if c.peek != some '%' then some ([], c)
    else do
      let code ← code? 2 (c.rest.drop 1)
      let (bytes, c) ← escapedBytes? fuel (c.skip 3)
      return (code.toUInt8 :: bytes, c)

/-- The characters of a tag. A row of escapes stands for the characters whose bytes they are. -/
def tagChars? : (fuel : Nat) → Cursor → Option (List Char × Cursor)
  | 0, c => some ([], c)
  | fuel + 1, c =>
    match c.rest with
    | '%' :: _ => do
      let (bytes, c) ← escapedBytes? c.rest.length c
      let text ← String.fromUTF8? ⟨bytes.toArray⟩
      let (more, c) ← tagChars? fuel c
      return (text.toList ++ more, c)
    | ch :: _ =>
      if isTagChar ch then (tagChars? fuel c.next).map fun (more, c) => (ch :: more, c) else some ([], c)
    | [] => some ([], c)

def tagName? (c : Cursor) : Option (String × Cursor) :=
  match tagChars? (c.rest.length + 1) c with
  | some (ch :: name, c) => some (String.ofList (ch :: name), c)
  | _ => none

def number? (c : Cursor) : Option (Nat × Cursor) :=
  let digits := c.rest.takeWhile Char.isDigit
  if digits.isEmpty then none else some (Decimal.numeral 10 digits, c.skip digits.length)

def endsLineWord (c : Cursor) : Bool := c.peek.all fun ch => ch == ' ' || isBreak ch

def versionToken? (c : Cursor) : Option (Token × Cursor) := do
  let (major, c) ← number? (c.skipWhile (· == ' '))
  if c.peek == some '.' then
    let (_, c) ← number? c.next
    if endsLineWord c then return (.version major, c) else none
  else none

def handleToken? (c : Cursor) : Option (Token × Cursor) := do
  let (handle, c) ← handle? (c.skipWhile (· == ' '))
  if c.peek == some ' ' then
    let (lead, c) ← tagName? (c.skipWhile (· == ' '))
    if endsLineWord c then return (.tagHandle handle lead, c) else none
  else none

def directiveToken? (c : Cursor) : Option (Token × Cursor) :=
  match name? c.next with
  | none => none
  | some (name, c) =>
    if !endsLineWord c then none
    else
      let found :=
        if name == "YAML" then versionToken? c
        else if name == "TAG" then handleToken? c
        else some (.otherDirective, c.skipWhile fun ch => !isBreak ch)
      found.bind fun (t, c) => (c.finishLine?).map fun c => (t, c)

def anchorName? (c : Cursor) : Option (String × Cursor) := do
  let (name, c) ← name? c.next
  if endsWord c.peek || c.peek.any fun ch => "?:,]\x7d%@\x60".toList.contains ch then return (name, c) else none

def tagParts? (c : Cursor) : Option (Token × Cursor) :=
  let behind := (c.rest.drop 1).head?
  let word := (c.rest.drop 1).takeWhile fun ch => ch != ' ' && !isBreak ch
  if behind == some '<' then
    (tagName? (c.skip 2)).bind fun (name, c) =>
      if c.peek == some '>' then some (.tag none name, c.next) else none
  else if endsWord behind then some (.tag none "!", c.next)
  else if word.contains '!' then
    (handle? c).bind fun (handle, c) => (tagName? c).map fun (name, c) => (.tag (some handle) name, c)
  else (tagName? c.next).map fun (name, c) => (.tag (some "!") name, c)

def tagToken? (c : Cursor) : Option (Token × Cursor) :=
  (tagParts? c).filter fun (_, c) => endsLineWord c

def itemSign? (l : Lexer) : Option Lexer := do
  if l.flow == 0 && !l.keyAllowed then none
  let l := if l.flow == 0 then l.deepen .blockList else l
  let l ← { l with keyAllowed := true }.dropKey?
  return l.pushSign .item

def keySign? (l : Lexer) : Option Lexer := do
  if l.flow == 0 && !l.keyAllowed then none
  let l := if l.flow == 0 then l.deepen .blockMap else l
  let l ← { l with keyAllowed := l.flow == 0 }.dropKey?
  return l.pushSign .key

def valueSign? (l : Lexer) : Option Lexer :=
  match l.pending.lookup l.flow with
  | some k =>
    let l := { l with pending := l.pending.filter fun (n, _) => n != l.flow }
    let l := l.putAt k.place .key
    let l := if l.flow == 0 then
        match l.deepen? k.column with
        | some m => m.putAt k.place .blockMap
        | none => l
      else l
    some ({ l with keyAllowed := false }.pushSign .value)
  | none => do
    if l.flow == 0 && !l.keyAllowed then none
    let l := if l.flow == 0 then l.deepen .blockMap else l
    let l ← { l with keyAllowed := l.flow == 0 }.dropKey?
    return l.pushSign .value

def openSign? (l : Lexer) (t : Token) : Option Lexer :=
  (l.saveKey?).map fun m => { m.pushSign t with flow := m.flow + 1, keyAllowed := true }

def closeSign? (l : Lexer) (t : Token) : Option Lexer :=
  (l.dropKey?).map fun m => { m.pushSign t with flow := m.flow - 1, keyAllowed := false }

def keyToken (l : Lexer) (read : Cursor → Except Reason (Token × Cursor)) : Except Reason Lexer := do
  let l ← orMalformed l.saveKey?
  let (t, c) ← read l.cursor
  return { l.push t with cursor := c, keyAllowed := false }

def anchorToken (name : String → Token) (c : Cursor) : Except Reason (Token × Cursor) :=
  orMalformed ((anchorName? c).map fun (n, c) => (name n, c))

def quotedToken (quote : Char) (c : Cursor) : Except Reason (Token × Cursor) := do
  let (text, c) ← quotedText quote c
  return (.scalar text false, c)

def blockToken? (l : Lexer) (folded : Bool) : Option Lexer := do
  let l ← { l with keyAllowed := true }.dropKey?
  let (text, c) ← blockText? folded l.indent l.cursor
  return { l.push (.scalar text false) with cursor := c }

def plainToken? (l : Lexer) : Option Lexer := do
  let l ← l.saveKey?
  let (text, crossed, c) := plainText (decide (0 < l.flow)) (l.indent + 1) l.cursor
  return { l.push (.scalar text true) with cursor := c, keyAllowed := crossed }

def startsPlain (flow : Bool) (ch : Char) (behind : Option Char) : Bool :=
  !("-?:,[]\x7b\x7d#&*!|>'\"%@\x60".toList.contains ch || endsWord (some ch))
    || (!endsWord behind && (ch == '-' || (!flow && (ch == '?' || ch == ':'))))

def directive? (l : Lexer) : Option Lexer := do
  let l ← l.leaveAll?
  let (t, c) ← directiveToken? l.cursor
  return { l.push t with cursor := c }

def token (l : Lexer) (ch : Char) : Except Reason Lexer :=
  let c := l.cursor
  let behind := (c.rest.drop 1).head?
  let flow := decide (0 < l.flow)
  if ch == '%' && c.column == 0 then orMalformed l.directive?
  else if c.column == 0 && c.atMark '-' then orMalformed (l.documentMark? .documentStart)
  else if c.column == 0 && c.atMark '.' then orMalformed (l.documentMark? .documentEnd)
  else if ch == '[' then orMalformed (l.openSign? .flowList)
  else if ch == '\x7b' then orMalformed (l.openSign? .flowMap)
  else if ch == ']' then orMalformed (l.closeSign? .flowListEnd)
  else if ch == '\x7d' then orMalformed (l.closeSign? .flowMapEnd)
  else if ch == ',' then orMalformed ((dropKey? { l with keyAllowed := true }).map fun m => m.pushSign .comma)
  else if ch == '-' && endsWord behind then orMalformed l.itemSign?
  else if ch == '?' && (flow || endsWord behind) then orMalformed l.keySign?
  else if ch == ':' && (flow || endsWord behind) then orMalformed l.valueSign?
  else if ch == '*' then l.keyToken (anchorToken .alias)
  else if ch == '&' then l.keyToken (anchorToken .anchor)
  else if ch == '!' then l.keyToken fun c => orMalformed (tagToken? c)
  else if ch == '|' && !flow then orMalformed (l.blockToken? false)
  else if ch == '>' && !flow then orMalformed (l.blockToken? true)
  else if ch == '\x27' || ch == '"' then l.keyToken (quotedToken ch)
  else if startsPlain flow ch behind then orMalformed l.plainToken?
  else .error .malformed

/-- Reads the next token and says whether the document ends there, which closes what is open. -/
def next (l : Lexer) : Except Reason (Lexer × Bool) := do
  let l ← orMalformed (l.toNextToken (l.cursor.rest.length + 1)).dropStale?
  let l := l.unwind l.cursor.column
  match l.cursor.peek with
  | none => return (← orMalformed l.leaveAll?, true)
  | some ch => return (← l.token ch, false)

/-- Reads tokens up to the end of the document. If that fails, those that are certain are left. -/
def run : (fuel : Nat) → Lexer → List Token × Option Reason
  | 0, l => (l.certain, some .malformed)
  | fuel + 1, l =>
    match l.next with
    | .error r => (l.certain, some r)
    | .ok (m, true) => (m.tokens.toList, none)
    | .ok (m, false) => run fuel m

end Lexer

/-- The tokens of a text, and what keeps it from being a document from there on. Every token takes a character, so
there are not more tokens to read than characters. -/
def Token.ofText (text : String) : List Token × Option Reason :=
  let cs := text.toList
  if cs.all isAllowed then
    let cs := if cs.head? == some '\ufeff' then cs.drop 1 else cs
    Lexer.run (cs.length + 1) { cursor := { rest := cs } }
  else ([], some .malformed)

end CodeAtlas.Document
