import CodeAtlas.Text.Blank
import CodeAtlas.Text.Folding
import CodeAtlas.Text.Half
import CodeAtlas.Text.Letter

/-!
# Search patterns

The tree of a regular expression: characters and classes, sequence, choice, repetition, groups,
references to groups, conditions on the position and on what surrounds it.
-/

namespace CodeAtlas.Pattern

inductive ClassItem where
  | one (c : Char)
  | range (first last : Char)
  | digit (negated : Bool)
  | blank (negated : Bool)
  | word (negated : Bool)
deriving Repr, DecidableEq

/-- A set of characters. With `ascii`, the named classes hold ASCII characters only, and only the case of ASCII letters
can be ignored. -/
structure CharClass where
  negated : Bool
  items : List ClassItem
  ignoreCase : Bool
  ascii : Bool
deriving Repr, DecidableEq

/-- How eagerly a repetition takes further rounds. A possessive one keeps the first way in which a round matches, and
gives no round back. -/
inductive Greed where
  | greedy
  | lazy
  | possessive
deriving Repr, DecidableEq

inductive Place where
  | textStart
  | lineStart
  | textEnd
  | lineEnd
  | veryEnd
  | wordEdge (ascii : Bool)
  | notWordEdge (ascii : Bool)
deriving Repr, DecidableEq

inductive Node where
  | empty
  | set (s : CharClass)
  | any (newline : Bool)
  | place (p : Place)
  | seq (first rest : Node)
  | alt (first other : Node)
  | rep (body : Node) (least : Nat) (most : Option Nat) (greed : Greed)
  | group (index : Nat) (body : Node)
  | atomic (body : Node)
  | backref (index : Nat) (ignoreCase ascii : Bool)
  | ahead (negated : Bool) (body : Node)
  | behind (negated : Bool) (width : Nat) (body : Node)
  | cond (index : Nat) (yes no : Node)
deriving Repr, DecidableEq, Inhabited

def isFar (c : Char) : Bool := 0x10000 ≤ Text.code c

def between (first last c : Char) : Bool := Text.code first ≤ Text.code c && Text.code c ≤ Text.code last

def CharClass.fold (s : CharClass) (c : Char) : Char :=
  if !s.ignoreCase then c else if s.ascii then Text.asciiFold c else Text.fold c

def CharClass.forms (s : CharClass) (c : Char) : List Char :=
  if !s.ignoreCase then [c] else if s.ascii then Text.asciiCaseForms c else Text.caseForms c

/-- Whether an item of a class holds a character. A far character is only taken for itself if other items stand
beside it, and a range that reaches that far ignores the case of all scripts. -/
def CharClass.itemHolds (s : CharClass) (item : ClassItem) (c : Char) : Bool :=
  match item with
  | .one d => if isFar d && s.items.length != 1 then s.fold c == d else (s.forms c).contains d
  | .range a b => (if s.ignoreCase && isFar b then Text.caseForms c else s.forms c).any (between a b)
  | .digit neg => (if s.ascii then Text.asciiDigit c else Text.isDigit c) != neg
  | .blank neg => (if s.ascii then (9 ≤ c.toNat && c.toNat ≤ 13) || c == ' ' else Text.isBlank c) != neg
  | .word neg => (if s.ascii then Text.asciiAlnum c || c == '_' else Text.isWord c) != neg

def CharClass.contains (s : CharClass) (c : Char) : Bool :=
  (s.items.any fun item => s.itemHolds item c) != s.negated

structure Width where
  least : Nat
  most : Nat
deriving Repr, DecidableEq, Inhabited

def endless : Nat := 18446744073709551616

namespace Width

def capped (w : Width) : Width := ⟨min w.least endless, min w.most endless⟩

def plus (v w : Width) : Width := capped ⟨v.least + w.least, v.most + w.most⟩

def either (v w : Width) : Width := ⟨min v.least w.least, max v.most w.most⟩

def times (w : Width) (least : Nat) (most : Option Nat) : Width :=
  capped ⟨w.least * least, match most with
    | some n => w.most * n
    | none => if w.most == 0 then 0 else endless⟩

end Width

def Node.width (known : List (Nat × Width)) : Node → Width
  | .empty | .place _ | .ahead _ _ | .behind _ _ _ => ⟨0, 0⟩
  | .set _ | .any _ => ⟨1, 1⟩
  | .seq a b => (a.width known).plus (b.width known)
  | .alt a b => (a.width known).either (b.width known)
  | .rep body least most _ => (body.width known).times least most
  | .group _ body | .atomic body => body.width known
  | .backref i _ _ => (known.lookup i).getD ⟨0, 0⟩
  | .cond _ yes no => (yes.width known).either (no.width known)

end CodeAtlas.Pattern
