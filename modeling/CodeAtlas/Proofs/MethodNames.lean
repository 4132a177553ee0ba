import CodeAtlas.Analysis.Measure
import CodeAtlas.Proofs.Phrases
import Mathlib.Data.List.DropRight

/-!
# Names of methods

The pattern of a method looks for a name that no control word starts, from the edge of a word on
(`Methods.matchHere?_eq`). So among methods without parameters not only those that are called like a
control word are not counted, but also those whose names go on after one (`Work.countEach_headers`).
A dollar sign is no part of a name for the pattern: what is behind the last one counts.
-/

namespace CodeAtlas

namespace Pattern

variable {b r w : List Char} {ws : List (List Char)} {x : Char} {s : CharClass} {k : Next}
  {n : Node}

/-- A place in a text, where no group has matched yet. -/
def Cursor.spot (before rest : List Char) : Cursor := ⟨before, rest, rest.length, []⟩

open Cursor (spot)

/-! ### Nodes at a place -/

/-- Characters of a class, as few as possible. -/
def few (s : CharClass) : Node := .rep (.set s) 0 none .lazy

theorem run_few : (few s).run (spot b (x :: r)) k =
    (k (spot b (x :: r))).or (if s.contains x then (few s).run (spot (x :: b) r) k else none) := by
  have hrun : ∀ c, (few s).run c k = lazyRounds (Node.set s).run (c.left + 1) none c k :=
    fun _ => rfl
  have hset : ∀ k, (Node.set s).run (spot b (x :: r)) k =
      if s.contains x then k (spot (x :: b) r) else none := fun _ => rfl
  rw [hrun, hrun, lazyRounds]
  cases k (spot b (x :: r)) with
  | some d => rfl
  | none =>
    have hlt : (spot (x :: b) r).left < (spot b (x :: r)).left := Nat.lt_succ_self _
    simp only [hset, mayRepeat, if_pos hlt, ↓reduceIte]
    rfl

theorem run_literal (c : Char) :
    (literal {} c).run (spot b (x :: r)) k = if x = c then k (spot (x :: b) r) else none := by
  have hholds : (plainClass {} [.one c]).contains x = decide (x = c) := by
    simp [CharClass.contains, CharClass.itemHolds, plainClass, CharClass.forms, eq_comm]
  change (if (plainClass {} [.one c]).contains x = true then k (spot (x :: b) r) else none) = _
  simp only [hholds, decide_eq_true_eq]

/-- A word, letter by letter. -/
def spelling : List Char → Node
  | [] => .empty
  | [c] => literal {} c
  | c :: cs => .seq (literal {} c) (spelling cs)

/-- One of some words. -/
def oneOf : List (List Char) → Node
  | [] => .empty
  | [w] => spelling w
  | w :: ws => .alt (spelling w) (oneOf ws)

theorem isSome_spelling (hw : w ≠ []) :
    ((spelling w).run (spot b r) some).isSome = w.isPrefixOf r := by
  induction w generalizing b r with
  | nil => contradiction
  | cons c w ih =>
    cases r with
    | nil => cases w <;> rfl
    | cons x r =>
      rw [List.isPrefixOf, BEq.comm]
      cases w with
      | nil => by_cases h : x = c <;> simp [spelling, run_literal, h]
      | cons d w => by_cases h : x = c <;> simp [spelling, Node.run, run_literal, h, ih]

theorem isSome_oneOf (hws : ws ≠ []) (hne : ∀ w ∈ ws, w ≠ []) :
    ((oneOf ws).run (spot b r) some).isSome = ws.any fun w => w.isPrefixOf r := by
  induction ws with
  | nil => contradiction
  | cons w ws ih =>
    obtain ⟨hw, hne⟩ := List.forall_mem_cons.mp hne
    cases ws with
    | nil => simp [oneOf, isSome_spelling hw]
    | cons v ws =>
      rw [List.any_cons, ← ih (by simp) hne, ← isSome_spelling hw, oneOf, Node.run]
      · cases (spelling w).run (spot b r) some <;> rfl
      · simp

theorem holds_wordEdge : (Place.wordEdge false).holds (spot b r) =
    (b.head?.any Text.isWord != r.head?.any Text.isWord) := by
  cases b <;> cases r <;> rfl

/-! ### Searching -/

/-- The first match at or after a place. -/
def Node.findAt (n : Node) (b r : List Char) : Option (Cursor × Cursor) :=
  n.searchFrom r.length (spot b r)

theorem findAt_of_some {d : Cursor} (h : n.matchHere? (spot b r) = some d) :
    n.findAt b r = some (spot b r, d) := by
  cases r <;> simp [Node.findAt, Node.searchFrom, h]

theorem findAt_of_none (h : n.matchHere? (spot b (x :: r)) = none) :
    n.findAt b (x :: r) = n.findAt (x :: b) r := by
  rw [Node.findAt, List.length_cons, Node.searchFrom, h]
  rfl

theorem countFrom_succ (fuel : Nat) : n.countFrom (fuel + 1) false (spot b r) =
    (n.findAt b r).elim 0 fun e => 1 + n.countFrom fuel (e.2.left == e.1.left) e.2 := by
  simp only [Node.countFrom, Node.findAt, spot, Bool.false_eq_true, ↓reduceIte]
  cases n.searchFrom r.length ⟨b, r, r.length, []⟩ <;> rfl

end Pattern

namespace Methods

open Pattern Pattern.Cursor

variable {b r t u : List Char} {x : Char} {names : List String} {name : String}

def controlWords : List (List Char) := ["if", "for", "while", "switch", "catch"].map String.toList

/-- Whether the part of a name behind its last dollar sign is there and no control word starts
it. -/
def isCounted (name : String) : Bool :=
  let part := name.toList.rtakeWhile (· != '$')
  !part.isEmpty && !controlWords.any fun w => w.isPrefixOf part

/-- The words of methods without parameters and without code. -/
def headers (names : List String) : List String :=
  names.flatMap fun name => [name, "(", ")", "\x7b", "\x7d"]

/-! ### The pattern of a method -/

def nameClass : CharClass := plainClass {} [.range 'a' 'z', .range 'A' 'Z', .digit false, .one '_']

def blankClass : CharClass := plainClass {} [.blank false]

def parameterClass : CharClass :=
  plainClass {} ([.range 'a' 'z', .range 'A' 'Z', .digit false, .blank false] ++
    ['_', ',', '>', '<', '?', '*', '.', '[', ']'].map .one)

def signature : Node :=
  .seq (few blankClass) (.seq (literal {} '(') (.seq (few parameterClass)
    (.seq (literal {} ')') (.seq (few blankClass) (literal {} '\x7b')))))

def named : Node := .seq (.rep (.set nameClass) 1 none .lazy) signature

def method : Node :=
  .seq (.place (.wordEdge false))
    (.seq (.ahead true (oneOf controlWords)) (.seq (.place (.wordEdge false)) named))

theorem pattern_java : pattern .java = method := by decide +kernel

def isNameChar (c : Char) : Bool := Text.asciiAlnum c || c == '_' || c == '$'

/-- The characters between a name and the code. -/
def bracket : List Char := spreadWords ["(", ")", "\x7b"]

theorem of_isNameChar (h : isNameChar x = true) : x ≠ '(' ∧ blankClass.contains x = false ∧
    nameClass.contains x = (x != '$') ∧ Text.isWord x = (x != '$') := by
  have hall : ∀ n < 128, isNameChar (Char.ofNat n) = true → Char.ofNat n ≠ '(' ∧
      blankClass.contains (Char.ofNat n) = false ∧
      nameClass.contains (Char.ofNat n) = (Char.ofNat n != '$') ∧
        Text.isWord (Char.ofNat n) = (Char.ofNat n != '$') := by
    decide +kernel
  have hlt : x.toNat < 128 := by
    have hle : ∀ a b : Char, a ≤ b ↔ a.toNat ≤ b.toNat := fun _ _ => Iff.rfl
    simp only [isNameChar, Text.asciiAlnum, Text.asciiLetter, Text.asciiDigit, Bool.or_eq_true,
      Bool.and_eq_true, decide_eq_true_eq, hle, beq_iff_eq, Char.reduceToNat] at h
    rcases h with (h | rfl) | rfl
    · omega
    · decide
    · decide
  have hx := hall x.toNat hlt
  rw [Char.ofNat_toNat] at hx
  exact hx h

theorem run_signature : signature.run (spot b (bracket ++ t)) some =
    some (spot (bracket.reverse ++ b) t) := by
  have h : blankClass.contains ' ' = true ∧ parameterClass.contains ' ' = true := by decide
  simp [signature, bracket, spreadWords, Chars.spread, Node.run, run_few, run_literal, h]

theorem run_signature_eq_none (hx : isNameChar x = true) :
    signature.run (spot b (x :: r)) some = none := by
  obtain ⟨hne, hblank, -⟩ := of_isNameChar hx
  simp [signature, Node.run, run_few, run_literal, hne, hblank]

/-- What a match consists of behind the conditions at its start. -/
theorem matchHere?_eq : method.matchHere? (spot b r) =
    if (b.head?.any Text.isWord != r.head?.any Text.isWord) && !controlWords.any (fun w =>
      w.isPrefixOf r) then
      named.run (spot b r) some
    else none := by
  have hahead := isSome_oneOf (b := b) (r := r) (show controlWords ≠ [] by decide) (by decide)
  rw [← hahead, ← holds_wordEdge, Node.matchHere?, method, Node.run, Node.run]
  cases hedge : (Place.wordEdge false).holds (spot b r) with
  | false => rfl
  | true => cases hword : (oneOf controlWords).run (spot b r) some <;> simp [Node.run, hedge, hword]

theorem run_named : named.run (spot b (x :: r)) some =
    if nameClass.contains x then (few nameClass).run (spot (x :: b) r) (signature.run · some)
      else none := rfl

theorem run_few_name (hu : ∀ c ∈ u, isNameChar c = true ∧ c ≠ '$') :
    (few nameClass).run (spot b (u ++ (bracket ++ t))) (signature.run · some) =
      some (spot (bracket.reverse ++ (u.reverse ++ b)) t) := by
  induction u generalizing b with
  | nil =>
    have hbracket : bracket ++ t = ' ' :: (bracket.tail ++ t) := rfl
    rw [List.nil_append, hbracket, run_few, ← hbracket, run_signature]
    rfl
  | cons c u ih =>
    obtain ⟨⟨hc, hne⟩, hu⟩ := List.forall_mem_cons.mp hu
    rw [List.cons_append, run_few, run_signature_eq_none hc, (of_isNameChar hc).2.2.1,
      if_pos (by simpa using hne), ih hu]
    simp

theorem run_few_eq_none (hu : ∀ c ∈ u, isNameChar c = true) :
    (few nameClass).run (spot b (u ++ '$' :: r)) (signature.run · some) = none := by
  induction u generalizing b with
  | nil => rw [List.nil_append, run_few, run_signature_eq_none rfl]; rfl
  | cons c u ih =>
    obtain ⟨hc, hu⟩ := List.forall_mem_cons.mp hu
    rw [List.cons_append, run_few, run_signature_eq_none hc, ih hu]
    simp

/-! ### Where methods are found -/

/-- No name starts where there is no edge of a word. -/
theorem findAt_alike {e : Bool} (hu : ∀ c ∈ u, Text.isWord c = e)
    (hb : b.head?.any Text.isWord = e) :
    method.findAt b (u ++ r) = method.findAt (u.reverse ++ b) r := by
  induction u generalizing b with
  | nil => rfl
  | cons c u ih =>
    obtain ⟨hc, hu⟩ := List.forall_mem_cons.mp hu
    have hstart : method.matchHere? (spot b (c :: (u ++ r))) = none := by
      rw [matchHere?_eq]
      simp [hb, hc]
    rw [List.cons_append, findAt_of_none hstart, ih hu (by simpa using hc)]
    simp

theorem findAt_dollar (hu : ∀ c ∈ u, isNameChar c = true) :
    method.findAt b (u ++ '$' :: r) = method.findAt ('$' :: (u.reverse ++ b)) r := by
  have hstart : ∀ {x u b}, isNameChar x = true → (∀ c ∈ u, isNameChar c = true) →
      method.matchHere? (spot b (x :: (u ++ '$' :: r))) = none := by
    intro x u b hx hu
    rw [matchHere?_eq, run_named, run_few_eq_none hu, ite_self, ite_self]
  induction u generalizing b with
  | nil => exact findAt_of_none (by rw [matchHere?_eq, run_named]; exact ite_self _)
  | cons c u ih =>
    obtain ⟨hc, hu⟩ := List.forall_mem_cons.mp hu
    rw [List.cons_append, findAt_of_none (hstart hc hu), ih hu]
    simp

theorem findAt_bracket : method.findAt b (bracket ++ t) =
    method.findAt (bracket.reverse ++ b) t := by
  have hstart : method.matchHere? (spot b (' ' :: (bracket.tail ++ t))) = none := by
    rw [matchHere?_eq, run_named]
    exact ite_self _
  exact (findAt_of_none hstart).trans ((findAt_alike (e := false) (by decide) rfl).trans rfl)

theorem any_isPrefixOf_bracket (u : List Char) :
    (controlWords.any fun w => w.isPrefixOf (u ++ (bracket ++ t))) =
      controlWords.any fun w => w.isPrefixOf u := by
  have hblank : ∀ w ∈ controlWords, ' ' ∉ w := by decide
  rw [Bool.eq_iff_iff]
  simp only [List.any_eq_true, List.isPrefixOf_iff_prefix]
  refine exists_congr fun w => and_congr_right
    fun hw => ⟨?_, fun h => h.trans (List.prefix_append ..)⟩
  exact Chars.prefix_of_prefix_append fun d hd => Option.some.inj hd ▸ hblank w hw

theorem findAt_part {part : List Char} (hpart : ∀ c ∈ part, isNameChar c = true ∧ c ≠ '$')
    (hb : b.head?.any Text.isWord = false) : method.findAt b (part ++ (bracket ++ t)) =
      if !part.isEmpty && !controlWords.any (fun w => w.isPrefixOf part) then
        some (spot b (part ++ (bracket ++ t)), spot (bracket.reverse ++ (part.reverse ++ b)) t)
      else method.findAt (bracket.reverse ++ (part.reverse ++ b)) t := by
  cases part with
  | nil => exact findAt_bracket
  | cons c part =>
    have hword : ∀ d ∈ c :: part, Text.isWord d = true ∧ nameClass.contains d = true := by
      intro d hd
      obtain ⟨hd, hne⟩ := hpart d hd
      rw [(of_isNameChar hd).2.2.1, (of_isNameChar hd).2.2.2]
      simpa using hne
    obtain ⟨⟨hc, hclass⟩, hword⟩ := List.forall_mem_cons.mp hword
    cases hany : controlWords.any fun w => w.isPrefixOf (c :: part) with
    | true =>
      -- behind the first character there is no edge of a word up to the end of the name
      have hstart : method.matchHere? (spot b (c :: (part ++ (bracket ++ t)))) = none := by
        rw [matchHere?_eq, ← List.cons_append, any_isPrefixOf_bracket, hany]
        simp
      rw [List.cons_append, findAt_of_none hstart,
        findAt_alike (fun d hd => (hword d hd).1) (by simpa using hc), findAt_bracket]
      simp
    | false =>
      have hstart : method.matchHere? (spot b (c :: part ++ (bracket ++ t))) =
          some (spot (bracket.reverse ++ ((c :: part).reverse ++ b)) t) := by
        rw [matchHere?_eq, any_isPrefixOf_bracket, hany, List.cons_append, run_named, if_pos hclass,
          run_few_name (List.forall_mem_cons.mp hpart).2]
        simp [hb, hc]
      rw [findAt_of_some hstart]
      rfl

/-- The search goes from in front of a name to in front of its code, where it has found a method or
has not. -/
theorem findAt_name (hname : ∀ c ∈ name.toList, isNameChar c = true)
    (hb : b.head?.any Text.isWord = false) :
    ∃ s b', t.length < s.left ∧ b'.head?.any Text.isWord = false ∧
      method.findAt b (name.toList ++ (bracket ++ t)) =
      if isCounted name then some (s, spot b' t) else method.findAt b' t := by
  have hparts : name.toList.rdropWhile (· != '$') ++ name.toList.rtakeWhile (· != '$') =
      name.toList :=
    List.rdropWhile_append_rtakeWhile
  rw [isCounted]
  have hpart : ∀ c ∈ name.toList.rtakeWhile (· != '$'), isNameChar c = true ∧ c ≠ '$' := fun c hc =>
    ⟨hname c (hparts ▸ List.mem_append_right _ hc), by simpa using List.mem_rtakeWhile_imp hc⟩
  have hlast : ∀ hne : name.toList.rdropWhile (· != '$') ≠ [],
      (name.toList.rdropWhile (· != '$')).getLast hne = '$' :=
    fun hne => by simpa using List.rdropWhile_last_not (· != '$') _ hne
  generalize name.toList.rdropWhile (· != '$') = front,
    name.toList.rtakeWhile (· != '$') = part at hparts hpart hlast ⊢
  -- All that comes up to the last dollar sign is passed over.
  have hfront : (front.reverse ++ b).head?.any Text.isWord = false ∧
      ∀ r, method.findAt b (front ++ r) = method.findAt (front.reverse ++ b) r := by
    rcases List.eq_nil_or_concat front with rfl | ⟨u, c, rfl⟩
    · exact ⟨hb, fun _ => rfl⟩
    · obtain rfl : c = '$' := by simpa using hlast (by simp)
      refine ⟨by simp; decide, fun r => ?_⟩
      rw [List.concat_eq_append, List.append_assoc]
      refine (findAt_dollar fun c hc => hname c ?_).trans (by simp)
      rw [← hparts]
      simp [hc]
  refine ⟨spot (front.reverse ++ b) (part ++ (bracket ++ t)),
    bracket.reverse ++ (part.reverse ++ (front.reverse ++ b)), ?_, rfl, ?_⟩
  · simp [spot, bracket, spreadWords, Chars.spread]
    omega
  · rw [← hparts, List.append_assoc, hfront.2, findAt_part hpart hfront.1]

theorem countFrom_name (hname : ∀ c ∈ name.toList, isNameChar c = true)
    (hb : b.head?.any Text.isWord = false) (fuel : Nat) :
    ∃ b' : List Char, b'.head?.any Text.isWord = false ∧
      method.countFrom (fuel + 1) false (spot b (name.toList ++ (bracket ++ t))) =
        if isCounted name then 1 + method.countFrom fuel false (spot b' t) else method.countFrom
          (fuel + 1) false (spot b' t) := by
  obtain ⟨s, b', hlt, hb', hfind⟩ := findAt_name (t := t) hname hb
  refine ⟨b', hb', ?_⟩
  rw [countFrom_succ, countFrom_succ, hfind]
  split
  · have hleft : (t.length == s.left) = false := by simpa using hlt.ne
    simp only [Option.elim_some]
    rw [show (spot b' t).left = t.length from rfl, hleft]
  · rfl

theorem countFrom_headers (hnames : ∀ name ∈ names, ∀ c ∈ name.toList, isNameChar c = true)
    (hb : b.head?.any Text.isWord = false) {fuel : Nat}
    (hfuel : (spreadWords ("\x7d" :: headers names)).length ≤ fuel) :
    method.countFrom fuel false (spot b (spreadWords ("\x7d" :: headers names))) =
      names.countP isCounted := by
  induction names generalizing b fuel with
  | nil =>
    obtain ⟨fuel, rfl⟩ := Nat.exists_eq_add_one.mpr (Nat.lt_of_lt_of_le (by decide : 0 < _) hfuel)
    have hfind : method.findAt b (spreadWords ["\x7d"]) = none :=
      (findAt_alike (r := []) (by decide) hb).trans rfl
    exact (countFrom_succ fuel).trans (by rw [headers, List.flatMap_nil, hfind]; rfl)
  | cons name names ih =>
    obtain ⟨hname, hnames⟩ := List.forall_mem_cons.mp hnames
    have htext : spreadWords ("\x7d" :: headers (name :: names)) =
        [' ', '\x7d', ' '] ++ (name.toList ++
          (bracket ++ spreadWords ("\x7d" :: headers names))) := by
      simp [headers, spreadWords, Chars.spread, bracket]
    rw [htext, List.length_append, List.length_append, List.length_append,
      show [' ', '\x7d', ' '].length = 3 from rfl] at hfuel
    obtain ⟨fuel, rfl⟩ := Nat.exists_eq_add_one.mpr (show 0 < fuel by omega)
    have hskip := findAt_alike (u := [' ', '\x7d', ' '])
      (r := name.toList ++ (bracket ++ spreadWords ("\x7d" :: headers names))) (by decide) hb
    obtain ⟨b', hb', hcount⟩ := countFrom_name (t := spreadWords ("\x7d" :: headers names)) hname
      (b := [' ', '\x7d', ' '].reverse ++ b) rfl fuel
    rw [htext, countFrom_succ, hskip, ← countFrom_succ, hcount, List.countP_cons]
    split
    · rw [ih hnames hb' (by omega), Nat.add_comm]
    · rw [ih hnames hb' (by omega), Nat.add_zero]

theorem count_headers (hnames : ∀ name ∈ names, ∀ c ∈ name.toList, isNameChar c = true) :
    count .java (headers names) = names.countP isCounted := by
  rw [count, countIn, pattern_java, Node.count]
  cases names with
  | nil => rfl
  | cons name names =>
    obtain ⟨hname, hnames⟩ := List.forall_mem_cons.mp hnames
    have htext : (joinWords (headers (name :: names))).toList =
        name.toList ++ (bracket ++ spreadWords ("\x7d" :: headers names)) :=
      toList_joinWords_cons ..
    rw [htext]
    obtain ⟨b', hb', hcount⟩ :=
      countFrom_name (b := []) (t := spreadWords ("\x7d" :: headers names)) hname rfl
      (2 * (name.toList ++ (bracket ++ spreadWords ("\x7d" :: headers names))).length + 1)
    refine hcount.trans ?_
    rw [List.countP_cons, List.length_append, List.length_append]
    split
    · rw [countFrom_headers hnames hb' (by omega), Nat.add_comm]
    · rw [countFrom_headers hnames hb' (by omega), Nat.add_zero]

end Methods

namespace Work

/-- Of methods without parameters those are counted whose names no control word starts. -/
theorem countEach_headers (names : List String)
    (hnames : ∀ name ∈ names, ∀ c ∈ name.toList, Methods.isNameChar c = true) (r : ScanResult)
    (hfile : r.isFile = true) (hlanguage : r.language = some .java)
    (hwords : r.words = Methods.headers names) :
    methodsOf r = .ok (names.countP Methods.isCounted) ∧
      ∀ ref rest, countEach ref "number-of-methods" methodsOf (r :: rest) = (do
        fileFigure ref r "number-of-methods-in-file" (.int (names.countP Methods.isCounted))
        return (r, names.countP Methods.isCounted) ::
          (← countEach ref "number-of-methods" methodsOf rest)) := by
  have hmethods : methodsOf r = .ok (names.countP Methods.isCounted) := by
    rw [methodsOf, hlanguage, hwords]
    exact congrArg Except.ok (Methods.count_headers hnames)
  refine ⟨hmethods, fun ref rest => ?_⟩
  rw [countEach, hmethods, subjectOf, if_pos hfile]
  rfl

end Work

namespace Sample

def methodsFile (names : List String) : ScanResult :=
  { (default : ScanResult) with
    language := some .java
    words := Methods.headers names
    details := .file (.ofNames "" "" "" "") }

/-- Neither the control word is counted nor the name that goes on after one. -/
theorem countEach_headers_format :
    Work.methodsOf (methodsFile ["run", "if", "format", "for$each"]) = .ok 2 :=
  (Work.countEach_headers _ (by decide) _ rfl rfl rfl).1.trans
    (congrArg Except.ok (by decide +kernel))

end Sample

end CodeAtlas
