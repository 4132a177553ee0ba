import CodeAtlas.Document.Cursor
import CodeAtlas.Document.Number
import CodeAtlas.Document.Reason

/-!
# Written forms of texts

A text in a document is written plainly, in quotes, or as a block of lines. Lines that follow each other are
joined by a space; each empty line between them stands for a line break.
-/

namespace CodeAtlas.Document

def joinLines (first : Char) (breaks : List Char) : List Char :=
  (if first != '\n' then [first] else if breaks.isEmpty then [' '] else []) ++ breaks

/-! ## Plain texts -/

def isFlowMark (c : Char) : Bool := c == ',' || c == '[' || c == ']' || c == '\x7b' || c == '\x7d'

def plainLength (flow : Bool) : List Char → Nat
  | [] => 0
  | c :: rest =>
    if endsWord (some c) || (c == ':' && (endsWord rest.head? || (flow && rest.head?.any isFlowMark)))
        || (flow && (isFlowMark c || c == '?')) then 0
    else 1 + plainLength flow rest

def emptyLines? : (fuel : Nat) → (breaks : List Char) → Cursor → Option (List Char) × Cursor
  | 0, _, c => (none, c)
  | fuel + 1, breaks, c =>
    if c.peek == some ' ' then emptyLines? fuel breaks c.next
    else match c.lineBreak? with
      | none => (some breaks, c)
      | some (b, c) => if c.atDocumentMark then (none, c) else emptyLines? fuel (breaks ++ [b]) c

/-- What stands between two words of a plain text, and whether they are on different lines. Nothing between them
means that the text ends. -/
def plainGap (c : Cursor) : List Char × Bool × Cursor :=
  let blanks := c.rest.takeWhile (· == ' ')
  let c := c.skip blanks.length
  match c.lineBreak? with
  | none => (blanks, false, c)
  | some (first, c) =>
    if c.atDocumentMark then ([], true, c)
    else match emptyLines? (c.rest.length + 1) [] c with
      | (none, c) => ([], true, c)
      | (some breaks, c) => (joinLines first breaks, true, c)

def plainWords (flow : Bool) (indent : Int) : (fuel : Nat) → (acc gap : List Char) → (crossed : Bool) → Cursor →
    List Char × Bool × Cursor
  | 0, acc, _, crossed, c => (acc, crossed, c)
  | fuel + 1, acc, gap, crossed, c =>
    let n := plainLength flow c.rest
    if c.peek == some '#' || n == 0 then (acc, crossed, c)
    else
      let acc := acc ++ gap ++ c.rest.take n
      let (gap, crossed, c) := plainGap (c.skip n)
      if gap.isEmpty || c.peek == some '#' || (!flow && decide ((c.column : Int) < indent)) then (acc, crossed, c)
      else plainWords flow indent fuel acc gap crossed c

def plainText (flow : Bool) (indent : Int) (c : Cursor) : String × Bool × Cursor :=
  let (text, crossed, c) := plainWords flow indent (c.rest.length + 1) [] [] false c
  (String.ofList text, crossed, c)

/-! ## Quoted texts -/

def escaped? : Char → Option Char
  | '0' => some '\x00'
  | 'a' => some '\x07'
  | 'b' => some '\x08'
  | 't' => some '\t'
  | '\t' => some '\t'
  | 'n' => some '\n'
  | 'v' => some '\x0b'
  | 'f' => some '\x0c'
  | 'r' => some '\r'
  | 'e' => some '\x1b'
  | ' ' => some ' '
  | '"' => some '"'
  | '\\' => some '\\'
  | '/' => some '/'
  | 'N' => some '\x85'
  | '_' => some '\xa0'
  | 'L' => some '\u2028'
  | 'P' => some '\u2029'
  | _ => none

def codeLength? : Char → Option Nat
  | 'x' => some 2
  | 'u' => some 4
  | 'U' => some 8
  | _ => none

def code? (n : Nat) (cs : List Char) : Option Nat :=
  let digits := cs.take n
  if digits.length == n && digits.all isHexDigit then some (Decimal.numeral 16 digits) else none

def largestCode : Nat := 0x10FFFF

/-- The largest number that is looked up as a code at all. -/
def largestNumber : Nat := 0x7FFFFFFF

def codedChar (n : Nat) (c : Cursor) : Except Reason (Char × Cursor) := do
  let code ← orMalformed (code? n c.rest)
  if largestNumber < code then throw (.fault .tooLarge)
  if largestCode < code then throw (.fault .badValue)
  return (Text.ofCode code, c.skip n)

/-- The breaks of the empty lines in a quoted text. A mark of the document's end may not stand there. -/
def quotedBreaks? : (fuel : Nat) → (breaks : List Char) → Cursor → Option (List Char × Cursor)
  | 0, _, _ => none
  | fuel + 1, breaks, c =>
    if c.atDocumentMark then none
    else
      let c := c.skipWhile fun ch => ch == ' ' || ch == '\t'
      match c.lineBreak? with
      | some (b, c) => quotedBreaks? fuel (breaks ++ [b]) c
      | none => some (breaks, c)

def quotedWord (double : Bool) : (fuel : Nat) → (acc : List Char) → Cursor → Except Reason (List Char × Cursor)
  | 0, _, _ => .error .malformed
  | fuel + 1, acc, c =>
    match c.rest with
    | [] => .ok (acc, c)
    | '\x27' :: rest =>
      if double then quotedWord double fuel (acc ++ ['\x27']) c.next
      else if rest.head? == some '\x27' then quotedWord double fuel (acc ++ ['\x27']) (c.skip 2)
      else .ok (acc, c)
    | '"' :: _ => if double then .ok (acc, c) else quotedWord double fuel (acc ++ ['"']) c.next
    | '\\' :: rest =>
      if !double then quotedWord double fuel (acc ++ ['\\']) c.next
      else
        let c := c.next
        match rest with
        | [] => .error .malformed
        | ch :: _ =>
          match escaped? ch, codeLength? ch with
          | some e, _ => quotedWord double fuel (acc ++ [e]) c.next
          | none, some n => do
            let (e, c) ← codedChar n c.next
            quotedWord double fuel (acc ++ [e]) c
          | none, none => do
            let (_, c) ← orMalformed c.lineBreak?
            let (breaks, c) ← orMalformed (quotedBreaks? (c.rest.length + 1) [] c)
            quotedWord double fuel (acc ++ breaks) c
    | ch :: _ =>
      if endsWord (some ch) then .ok (acc, c) else quotedWord double fuel (acc ++ [ch]) c.next

def quotedGap? (c : Cursor) : Option (List Char × Cursor) :=
  let blanks := c.rest.takeWhile fun ch => ch == ' ' || ch == '\t'
  let c := c.skip blanks.length
  if c.atEnd then none
  else match c.lineBreak? with
    | none => some (blanks, c)
    | some (first, c) =>
      (quotedBreaks? (c.rest.length + 1) [] c).map fun (breaks, c) => (joinLines first breaks, c)

def quotedParts (quote : Char) : (fuel : Nat) → (acc : List Char) → Cursor → Except Reason (List Char × Cursor)
  | 0, _, _ => .error .malformed
  | fuel + 1, acc, c => do
    let (acc, c) ← quotedWord (quote == '"') (c.rest.length + 1) acc c
    if c.peek == some quote then return (acc, c.next)
    let (gap, c) ← orMalformed (quotedGap? c)
    quotedParts quote fuel (acc ++ gap) c

def quotedText (quote : Char) (c : Cursor) : Except Reason (String × Cursor) := do
  let (text, c) ← quotedParts quote (c.rest.length + 1) [] c.next
  return (String.ofList text, c)

/-! ## Blocks of lines -/

inductive Ending where
  | one
  | none
  | all
deriving Repr, DecidableEq

def ending? : Option Char → Option Ending
  | some '+' => some .all
  | some '-' => some .none
  | _ => none

def givenIndent? (c : Cursor) : Option (Option Nat × Cursor) :=
  match c.peek with
  | some ch =>
    if ch == '0' then none
    else if ch.isDigit then some (some (Decimal.digitOf ch), c.next)
    else some (none, c)
  | none => some (none, c)

def blockHead? (c : Cursor) : Option (Ending × Option Nat × Cursor) := do
  let (ending, indent, c) ←
    match ending? c.peek with
    | some e => (givenIndent? c.next).map fun (n, c) => (e, n, c)
    | none => (givenIndent? c).map fun (n, c) =>
        match n, ending? c.peek with
        | some _, some e => (e, n, c.next)
        | _, _ => (.one, n, c)
  if c.peek.any fun ch => ch != ' ' && !isBreak ch then none
  let c ← c.finishLine?
  return (ending, indent, c)

def blockLead : (fuel : Nat) → (breaks : List Char) → (widest : Nat) → Cursor → List Char × Nat × Cursor
  | 0, breaks, widest, c => (breaks, widest, c)
  | fuel + 1, breaks, widest, c =>
    if c.peek == some ' ' then blockLead fuel breaks (max widest c.next.column) c.next
    else match c.lineBreak? with
      | some (b, c) => blockLead fuel (breaks ++ [b]) widest c
      | none => (breaks, widest, c)

def toColumn (indent : Nat) (c : Cursor) : Cursor :=
  c.skip (min (indent - c.column) (c.rest.takeWhile (· == ' ')).length)

def blockBreaks (indent : Nat) : (fuel : Nat) → (breaks : List Char) → Cursor → List Char × Cursor
  | 0, breaks, c => (breaks, c)
  | fuel + 1, breaks, c =>
    let c := toColumn indent c
    match c.lineBreak? with
    | some (b, c) => blockBreaks indent fuel (breaks ++ [b]) c
    | none => (breaks, c)

def startsWithBlank (c : Cursor) : Bool := c.peek.any fun ch => ch == ' ' || ch == '\t'

def blockLines (folded : Bool) (indent : Nat) : (fuel : Nat) → (acc breaks : List Char) → Cursor →
    List Char × List Char × List Char × Cursor
  | 0, acc, breaks, c => (acc, [], breaks, c)
  | fuel + 1, acc, breaks, c =>
    if c.column != indent || c.atEnd then (acc, [], breaks, c)
    else
      let indented := startsWithBlank c
      let line := c.rest.takeWhile fun ch => !isBreak ch
      let acc := acc ++ breaks ++ line
      let c := c.skip line.length
      let (last, c) := match c.lineBreak? with
        | some (b, c) => ([b], c)
        | none => ([], c)
      let (breaks, c) := blockBreaks indent (c.rest.length + 1) [] c
      if c.column != indent || c.atEnd then (acc, last, breaks, c)
      else if folded && last == ['\n'] && !indented && !startsWithBlank c then
        blockLines folded indent fuel (if breaks.isEmpty then acc ++ [' '] else acc) breaks c
      else blockLines folded indent fuel (acc ++ last) breaks c

def blockText? (folded : Bool) (outer : Int) (c : Cursor) : Option (String × Cursor) := do
  let (ending, given, c) ← blockHead? c.next
  let least := (max (outer + 1) 1).toNat
  let (indent, breaks, c) := match given with
    | none =>
      let (breaks, widest, c) := blockLead (c.rest.length + 1) [] 0 c
      (max least widest, breaks, c)
    | some n =>
      let indent := least + n - 1
      let (breaks, c) := blockBreaks indent (c.rest.length + 1) [] c
      (indent, breaks, c)
  let (text, last, breaks, c) := blockLines folded indent (c.rest.length + 1) [] breaks c
  let tail := match ending with
    | .none => []
    | .one => last
    | .all => last ++ breaks
  return (String.ofList (text ++ tail), c)

end CodeAtlas.Document
