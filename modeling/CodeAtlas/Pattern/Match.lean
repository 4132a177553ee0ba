import CodeAtlas.Pattern.Basic

/-!
# Matching

A match is searched by backtracking: `Node.run` tries the ways to match in order of preference and
hands each to a continuation, until one succeeds. A repetition ends because every further round has
to move on.
-/

namespace CodeAtlas.Pattern

structure Cursor where
  before : List Char
  rest : List Char
  left : Nat
  groups : List (Nat × List Char)

def Cursor.start (cs : List Char) : Cursor := ⟨[], cs, cs.length, []⟩

def Cursor.next? (c : Cursor) : Option (Char × Cursor) :=
  match c.rest with
  | [] => none
  | x :: xs => some (x, { c with before := x :: c.before, rest := xs, left := c.left - 1 })

def Cursor.back? : Nat → Cursor → Option Cursor
  | 0, c => some c
  | n + 1, c =>
    match c.before with
    | [] => none
    | x :: xs => Cursor.back? n { c with before := xs, rest := x :: c.rest, left := c.left + 1 }

def Cursor.textTo (a b : Cursor) : List Char := a.rest.take (a.left - b.left)

def Cursor.expect? (eq : Char → Char → Bool) : List Char → Cursor → Option Cursor
  | [], c => some c
  | x :: xs, c =>
    match c.next? with
    | some (y, d) => if eq x y then Cursor.expect? eq xs d else none
    | none => none

def Place.holds (p : Place) (c : Cursor) : Bool :=
  let wordAt (ascii : Bool) : Option Char → Bool
    | some x => if ascii then Text.asciiAlnum x || x == '_' else Text.isWord x
    | none => false
  let edge (ascii : Bool) : Bool := wordAt ascii c.before.head? != wordAt ascii c.rest.head?
  match p with
  | .textStart => c.before.isEmpty
  | .lineStart => c.before.isEmpty || c.before.head? == some '\n'
  | .textEnd => c.rest.isEmpty || c.rest == ['\n']
  | .lineEnd => c.rest.isEmpty || c.rest.head? == some '\n'
  | .veryEnd => c.rest.isEmpty
  | .wordEdge ascii => edge ascii
  | .notWordEdge ascii => !edge ascii && !(c.before.isEmpty && c.rest.isEmpty)

abbrev Next := Cursor → Option Cursor

def rounds (step : Cursor → Next → Option Cursor) : Nat → Cursor → Next → Option Cursor
  | 0, c, k => k c
  | n + 1, c, k => step c fun d => rounds step n d k

def mayRepeat : Option Nat → Bool
  | none => true
  | some n => 0 < n

def greedyRounds (step : Cursor → Next → Option Cursor) :
    (fuel : Nat) → (most : Option Nat) → Cursor → Next → Option Cursor
  | 0, _, c, k => k c
  | fuel + 1, most, c, k =>
    if mayRepeat most then
      match step c fun d =>
        if d.left < c.left then greedyRounds step fuel (most.map (· - 1)) d k else k d with
      | some r => some r
      | none => k c
    else k c

def lazyRounds (step : Cursor → Next → Option Cursor) :
    (fuel : Nat) → (most : Option Nat) → Cursor → Next → Option Cursor
  | 0, _, c, k => k c
  | fuel + 1, most, c, k =>
    match k c with
    | some r => some r
    | none =>
      if mayRepeat most then
        step c fun d =>
          if d.left < c.left then lazyRounds step fuel (most.map (· - 1)) d k else k d
      else none

/-- A number of rounds, of which each keeps its first way to match. -/
def firstRounds? (step : Cursor → Next → Option Cursor) : Nat → Cursor → Option Cursor
  | 0, c => some c
  | n + 1, c =>
    match step c some with
    | some d => firstRounds? step n d
    | none => none

/-- As many further rounds as possible, of which each keeps its first way to match. -/
def allRounds (step : Cursor → Next → Option Cursor) : (fuel : Nat) → (most : Option Nat) → Cursor → Cursor
  | 0, _, c => c
  | fuel + 1, most, c =>
    if mayRepeat most then
      match step c some with
      | some d => if d.left < c.left then allRounds step fuel (most.map (· - 1)) d else d
      | none => c
    else c

def sameChar (ignoreCase ascii : Bool) (a b : Char) : Bool :=
  if !ignoreCase then a == b
  else if ascii then Text.asciiFold a == Text.asciiFold b
  else Text.fold a == Text.fold b

def Node.run : Node → Cursor → Next → Option Cursor
  | .empty, c, k => k c
  | .set s, c, k =>
    match c.next? with
    | some (x, d) => if s.contains x then k d else none
    | none => none
  | .any newline, c, k =>
    match c.next? with
    | some (x, d) => if newline || x != '\n' then k d else none
    | none => none
  | .place p, c, k => if p.holds c then k c else none
  | .seq a b, c, k => a.run c fun d => b.run d k
  | .alt a b, c, k =>
    match a.run c k with
    | some r => some r
    | none => b.run c k
  | .rep body least most greed, c, k =>
    let more := most.map (· - least)
    match greed with
    | .greedy => rounds body.run least c fun d => greedyRounds body.run (d.left + 1) more d k
    | .lazy => rounds body.run least c fun d => lazyRounds body.run (d.left + 1) more d k
    | .possessive =>
      match firstRounds? body.run least c with
      | some d => k (allRounds body.run (d.left + 1) more d)
      | none => none
  | .group i body, c, k =>
    body.run c fun d => k { d with groups := (i, c.textTo d) :: d.groups }
  | .atomic body, c, k =>
    match body.run c some with
    | some d => k d
    | none => none
  | .backref i ignoreCase ascii, c, k =>
    match c.groups.lookup i with
    | some text =>
      match c.expect? (sameChar ignoreCase ascii) text with
      | some d => k d
      | none => none
    | none => none
  | .ahead negated body, c, k =>
    match body.run c some with
    | some d => if negated then none else k { c with groups := d.groups }
    | none => if negated then k c else none
  | .behind negated width body, c, k =>
    let found := match c.back? width with
      | some b => body.run b fun d => if d.left == c.left then some d else none
      | none => none
    match found with
    | some d => if negated then none else k { c with groups := d.groups }
    | none => if negated then k c else none
  | .cond i yes no, c, k =>
    if (c.groups.lookup i).isSome then yes.run c k else no.run c k

def Node.matchHere? (n : Node) (c : Cursor) : Option Cursor := n.run c some

def Node.matchesStart (n : Node) (cs : List Char) : Bool :=
  (n.matchHere? (Cursor.start cs)).isSome

def Node.searchFrom (n : Node) : (fuel : Nat) → Cursor → Option (Cursor × Cursor)
  | 0, c => (n.matchHere? c).map (c, ·)
  | fuel + 1, c =>
    match n.matchHere? c with
    | some d => some (c, d)
    | none =>
      match c.next? with
      | some (_, d) => n.searchFrom fuel d
      | none => none

def Node.search? (n : Node) (cs : List Char) : Option (Cursor × Cursor) :=
  n.searchFrom cs.length (Cursor.start cs)

def Node.advanceHere? (n : Node) (c : Cursor) : Option Cursor :=
  n.run c fun d => if d.left < c.left then some d else none

/-- Counts matches that do not overlap, from left to right. Right after an empty match, another empty
one does not count. -/
def Node.countFrom (n : Node) : (fuel : Nat) → (afterEmpty : Bool) → Cursor → Nat
  | 0, _, _ => 0
  | fuel + 1, afterEmpty, c =>
    let c := { c with groups := [] }
    let found :=
      if afterEmpty then
        match n.advanceHere? c with
        | some d => some (c, d)
        | none => match c.next? with
          | some (_, e) => n.searchFrom e.left e
          | none => none
      else n.searchFrom c.left c
    match found with
    | none => 0
    | some (s, d) => 1 + n.countFrom fuel (d.left == s.left) d

def Node.count (n : Node) (cs : List Char) : Nat :=
  n.countFrom (2 * cs.length + 2) false (Cursor.start cs)

end CodeAtlas.Pattern
