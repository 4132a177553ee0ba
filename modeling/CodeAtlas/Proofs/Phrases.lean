import CodeAtlas.Phrase
import CodeAtlas.Proofs.Words

/-!
# Phrases in a list of words

A phrase is matched on the characters of words that are put together. If the words are pieces, each
element of a phrase takes a word or the start of one, and newlines between words do not count. So
what comes after a keyword is told by words: `Phrase.headerIn?` for the header of a class
(`Phrase.classHeader?_joinWords`), and `Phrase.terminatedIn?` for a name before a semicolon
(`Phrase.terminated?_joinWords`).
-/

namespace CodeAtlas

open Chars Spacing
open Text (isBlank)

variable {marks : List Char} {c : Char} {w : String} {ws after : List String}

/-! ### Words and newlines -/

/-- Words of a text in which marks stand alone. -/
def Pieces (marks : List Char) (ws : List String) : Prop := ∀ w ∈ ws, Piece marks w.toList

theorem pieces_cut (marks cs : List Char) : Pieces marks ((cut marks cs).map String.ofList) :=
  List.forall_mem_map.mpr fun w hw => by
    rw [String.toList_ofList]
    exact piece_of_mem_cut hw

/-- The words from the first one that is no newline. -/
def pastNewlines (ws : List String) : List String := ws.dropWhile (· == "\n")

def leading (p : Char → Bool) (w : String) : String := String.ofList (w.toList.takeWhile p)

def spreadWords (ws : List String) : List Char := spread (ws.map String.toList)

@[simp] theorem pastNewlines_newline (ws : List String) :
    pastNewlines ("\n" :: ws) = pastNewlines ws := rfl

theorem pastNewlines_cons (h : w ≠ "\n") (ws : List String) : pastNewlines (w :: ws) = w :: ws := by
  simp [pastNewlines, h]

theorem mem_pastNewlines (h : w ≠ "\n") : w ∈ pastNewlines ws ↔ w ∈ ws := by
  induction ws with
  | nil => rfl
  | cons v ws ih =>
    by_cases hv : v = "\n"
    · rw [hv, pastNewlines_newline, ih]
      simp [h]
    · rw [pastNewlines_cons hv]

theorem Pieces.of_pastNewlines (h : Pieces marks ws) (heq : pastNewlines ws = w :: after) :
    Piece marks w.toList ∧ w ≠ "\n" ∧ Pieces marks after := by
  have hsub : ∀ v ∈ w :: after, Piece marks v.toList := fun v hv =>
    h v ((List.dropWhile_sublist _).subset (heq ▸ hv : v ∈ pastNewlines ws))
  obtain ⟨hw, hafter⟩ := List.forall_mem_cons.mp hsub
  refine ⟨hw, fun hnewline => ?_, hafter⟩
  have hhead := List.head?_dropWhile_not (· == "\n") ws
  rw [show ws.dropWhile (· == "\n") = w :: after from heq] at hhead
  simp [hnewline] at hhead

variable {p : Char → Bool}

theorem leading_eq_empty : leading p w = "" ↔ w.toList.takeWhile p = [] := by
  rw [leading, ← String.toList_eq_nil_iff, String.toList_ofList]

theorem leading_eq_self : leading p w = w ↔ ∀ c ∈ w.toList, p c = true := by
  rw [← List.takeWhile_eq_self_iff, leading, ← String.toList_inj, String.toList_ofList]

/-- A name that is a whole word is followed by words, any other by the rest of its word. -/
theorem leading_eq_self_or (w : String) : leading p w = w ∧ w.toList.dropWhile p = [] ∨
    leading p w ≠ w ∧ ∃ c cs, w.toList.dropWhile p = c :: cs ∧ c ∈ w.toList ∧ p c = false := by
  cases hdrop : w.toList.dropWhile p with
  | nil =>
    have hall := List.dropWhile_eq_nil_iff.mp hdrop
    exact .inl ⟨by rw [leading, List.takeWhile_eq_self_iff.mpr hall, String.ofList_toList], rfl⟩
  | cons c cs =>
    have hc : c ∈ w.toList := (List.dropWhile_sublist _).subset (hdrop ▸ List.mem_cons_self)
    have hhead := List.head?_dropWhile_not p w.toList
    rw [hdrop] at hhead
    refine .inr ⟨fun heq => ?_, c, cs, rfl, hc, by simpa using hhead⟩
    have hchars := congrArg String.toList heq
    rw [leading, String.toList_ofList, List.takeWhile_eq_self_iff] at hchars
    simp [hchars c hc] at hhead

theorem isBlank_of_mem (hw : Piece marks w.toList) (hne : w ≠ "\n") (hc : c ∈ w.toList) :
    isBlank c = false :=
  hw.ink.resolve_left (fun heq => hne (String.toList_inj.mp (heq.trans rfl))) c hc

theorem isBreak_of_asciiAlnum (h : Text.asciiAlnum c = true) : isBreak quoteMarks c = false := by
  have hmark : c ∉ quoteMarks := fun hmem => by
    have hodd : ∀ m ∈ quoteMarks, Text.asciiAlnum m = false := by decide
    rw [hodd c hmem] at h
    cases h
  have hblank : isBlank c = false := by
    have hle : ∀ a b : Char, a ≤ b ↔ a.toNat ≤ b.toNat := fun _ _ => Iff.rfl
    simp only [Text.asciiAlnum, Text.asciiLetter, Text.asciiDigit, Bool.or_eq_true,
      Bool.and_eq_true, decide_eq_true_eq, hle, Char.reduceToNat] at h
    simp only [isBlank, Bool.or_eq_false_iff, Bool.and_eq_false_iff, decide_eq_false_iff_not,
      beq_eq_false_iff_ne]
    omega
  simp [isBreak, hblank, hmark]

theorem spreadWords_cons (w : String) (ws : List String) :
    spreadWords (w :: ws) = ' ' :: w.toList ++ spreadWords ws := rfl

theorem toList_joinWords_cons (w : String) (ws : List String) :
    (joinWords (w :: ws)).toList = w.toList ++ spreadWords ws := by
  rw [toList_joinWords, List.map_cons, join_eq_spread]
  rfl

theorem head?_spreadWords (ws : List String) : ∀ c ∈ (spreadWords ws).head?, c = ' ' := by
  cases ws with
  | nil => simp [spreadWords, spread]
  | cons w ws => simp [spreadWords_cons]

theorem mem_spreadWords (h : Pieces marks ws) (hc : c ∈ marks) (hspace : c ≠ ' ') :
    c ∈ spreadWords ws ↔ String.ofList [c] ∈ ws := by
  constructor
  · intro hmem
    obtain ⟨cs, hcs, hmem⟩ := List.mem_flatMap.mp hmem
    obtain ⟨w, hw, rfl⟩ := List.mem_map.mp hcs
    have hcw : c ∈ w.toList := by simpa [hspace] using hmem
    rwa [← (h w hw).alone c hcw hc, String.ofList_toList]
  · intro hmem
    exact List.mem_flatMap.mpr ⟨[c], List.mem_map.mpr ⟨_, hmem, String.toList_ofList⟩, by simp⟩

/-! ### Places between words -/

namespace Spot

variable {s : Spot} {p : Char → Bool}

theorem rest_advance (s : Spot) (n : Nat) : (s.advance n).rest = s.rest.drop n := by
  induction n generalizing s with
  | zero => rfl
  | succ n ih =>
    rw [advance]
    cases hrest : s.rest with
    | nil => simp [hrest]
    | cons c cs => simp [ih]

theorem last_advance (s : Spot) (n : Nat) :
    (s.advance n).last = (s.rest.take n).getLast?.or s.last := by
  induction n generalizing s with
  | zero => simp [advance]
  | succ n ih =>
    rw [advance]
    cases hrest : s.rest with
    | nil => simp
    | cons c cs =>
      dsimp only
      rw [ih, List.take_succ_cons, List.getLast?_cons]
      cases (cs.take n).getLast? <;> rfl

theorem isBlank_of_isGap (h : isGap c = true) : isBlank c = true := by
  simp only [isGap, Bool.or_eq_true, beq_iff_eq] at h
  rcases h with ((rfl | rfl) | rfl) | rfl <;> decide

theorem drop_length_takeWhile (p : Char → Bool) (cs : List Char) :
    cs.drop (cs.takeWhile p).length = cs.dropWhile p := by
  induction cs with
  | nil => rfl
  | cons c cs ih => by_cases hc : p c = true <;> simp [hc, ih]

theorem rest_skipGaps (s : Spot) : s.skipGaps.rest = s.rest.dropWhile isGap := by
  rw [skipGaps, rest_advance, drop_length_takeWhile]

theorem dropWhile_isGap_append (h : Piece marks w.toList) (hne : w ≠ "\n") (cs : List Char) :
    (w.toList ++ cs).dropWhile isGap = w.toList ++ cs := by
  obtain ⟨c, rest, hw⟩ := List.exists_cons_of_ne_nil h.ne_nil
  have hink : ∀ c ∈ w.toList, isBlank c = false :=
    h.ink.resolve_left fun heq => hne (String.toList_inj.mp (heq.trans rfl))
  have hgap : ¬ isGap c = true := fun hgap => by
    have hblank := isBlank_of_isGap hgap
    rw [hink c (hw ▸ List.mem_cons_self)] at hblank
    cases hblank
  rw [hw, List.cons_append, List.dropWhile_cons_of_neg hgap]

theorem dropWhile_isGap_spreadWords (h : Pieces marks ws) :
    (spreadWords ws).dropWhile isGap = (joinWords (pastNewlines ws)).toList := by
  induction ws with
  | nil => rfl
  | cons w ws ih =>
    obtain ⟨hw, hws⟩ := List.forall_mem_cons.mp h
    rw [spreadWords_cons, List.cons_append, List.dropWhile_cons_of_pos (by decide)]
    by_cases hne : w = "\n"
    · rw [hne, pastNewlines_newline, ← ih hws]
      rfl
    · rw [pastNewlines_cons hne, dropWhile_isGap_append hw hne, toList_joinWords_cons]

theorem skipGaps_of_not_gap (h : s.rest.dropWhile isGap = s.rest) : s.skipGaps = s := by
  have hnil : s.rest.takeWhile isGap = [] := by
    have hsplit := List.takeWhile_append_dropWhile (p := isGap) (l := s.rest)
    rw [h] at hsplit
    exact List.append_left_eq_self.mp hsplit
  rw [skipGaps, hnil]
  rfl

theorem last_skipGaps (hs : s.rest = spreadWords (w :: ws)) :
    s.skipGaps.last.any isIdentifier = false := by
  rw [skipGaps, last_advance, ← List.prefix_iff_eq_take.mp (List.takeWhile_prefix isGap), hs,
    spreadWords_cons, List.cons_append, List.takeWhile_cons_of_pos (by decide), List.getLast?_cons,
    Option.some_or, Option.any_some]
  have hgap : isGap ((((w.toList ++ spreadWords ws).takeWhile isGap).getLast?).getD ' ') =
      true := by
    cases hlast : ((w.toList ++ spreadWords ws).takeWhile isGap).getLast? with
    | none => rfl
    | some c => exact List.mem_takeWhile_imp (List.mem_of_getLast? hlast)
  simp only [isGap, Bool.or_eq_true, beq_iff_eq] at hgap
  rcases hgap with ((hgap | hgap) | hgap) | hgap <;> rw [hgap] <;> decide

/-! ### Elements of a phrase -/

theorem takeWhile_append_spreadWords (hspace : p ' ' = false) (cs : List Char) (ws : List String) :
    (cs ++ spreadWords ws).takeWhile p = cs.takeWhile p := by
  have hnil : (spreadWords ws).takeWhile p = [] := by
    cases ws with
    | nil => rfl
    | cons w ws =>
      rw [spreadWords_cons, List.cons_append, List.takeWhile_cons_of_neg (by simp [hspace])]
  rw [List.takeWhile_append, hnil, List.append_nil]
  split
  · next hlen => exact ((List.takeWhile_prefix p).eq_of_length hlen).symm
  · rfl

theorem rest_skipGaps_of_code (hws : Pieces marks ws) (hs : s.rest = spreadWords ws)
    (hcode : pastNewlines ws = w :: after) : s.skipGaps.rest = w.toList ++ spreadWords after := by
  rw [rest_skipGaps, hs, dropWhile_isGap_spreadWords hws, hcode, toList_joinWords_cons]

theorem word?_of_code (hspace : p ' ' = false) (hws : Pieces marks ws)
    (hs : s.rest = spreadWords ws) (hcode : pastNewlines ws = w :: after)
    (hname : w.toList.takeWhile p ≠ []) :
    ∃ t, s.word? p = some (w.toList.takeWhile p, t) ∧
      t.rest = w.toList.dropWhile p ++ spreadWords after := by
  have hrest := rest_skipGaps_of_code hws hs hcode
  refine ⟨s.skipGaps.advance (w.toList.takeWhile p).length, ?_, ?_⟩
  · rw [word?, hrest, takeWhile_append_spreadWords hspace]
    cases htake : w.toList.takeWhile p with
    | nil => contradiction
    | cons c cs => rfl
  · rw [rest_advance, hrest, List.drop_append_of_le_length (List.takeWhile_prefix p).length_le,
      drop_length_takeWhile]

theorem word?_eq_none (hspace : p ' ' = false) (hws : Pieces marks ws)
    (hs : s.rest = spreadWords ws) (h : ∀ w after, pastNewlines ws = w :: after →
      w.toList.takeWhile p = []) : s.word? p = none := by
  have hrest : s.skipGaps.rest = (joinWords (pastNewlines ws)).toList := by
    rw [rest_skipGaps, hs, dropWhile_isGap_spreadWords hws]
  have hnil : s.skipGaps.rest.takeWhile p = [] := by
    rw [hrest]
    cases hcode : pastNewlines ws with
    | nil => rfl
    | cons w after =>
      rw [toList_joinWords_cons, takeWhile_append_spreadWords hspace, h w after hcode]
  rw [word?, hnil]

theorem exists_keyword? (hlast : s.skipGaps.last.any isIdentifier = false)
    (hrest : s.skipGaps.rest = w.toList ++ spreadWords ws) :
    ∃ t, s.keyword? w = some t ∧ t.rest = spreadWords ws := by
  have hnext : (spreadWords ws).head?.any isIdentifier = false := by
    cases hhead : (spreadWords ws).head? with
    | none => rfl
    | some c =>
      rw [head?_spreadWords ws c hhead]
      decide
  have hprefix : w.toList.isPrefixOf (w.toList ++ spreadWords ws) = true := by simp
  refine ⟨s.skipGaps.advance w.toList.length, ?_, ?_⟩
  · rw [keyword?, hrest, List.drop_left, hprefix, hlast, hnext]
    rfl
  · rw [rest_advance, hrest, List.drop_left]

theorem exists_keyword?_start (h : Piece marks w.toList) (hne : w ≠ "\n") (ws : List String) :
    ∃ s, (Spot.start (joinWords (w :: ws))).keyword? w = some s ∧ s.rest = spreadWords ws := by
  have hrest : (Spot.start (joinWords (w :: ws))).rest = w.toList ++ spreadWords ws :=
    toList_joinWords_cons w ws
  have hskip : (Spot.start (joinWords (w :: ws))).skipGaps = Spot.start (joinWords (w :: ws)) := by
    refine skipGaps_of_not_gap ?_
    rw [hrest, dropWhile_isGap_append h hne]
  exact exists_keyword? (by rw [hskip]; rfl) (by rw [hskip, hrest])

theorem last_skipGaps_of_code (hs : s.rest = spreadWords ws)
    (hcode : pastNewlines ws = w :: after) : s.skipGaps.last.any isIdentifier = false := by
  cases ws with
  | nil => cases hcode
  | cons v ws => exact last_skipGaps hs

theorem exists_keyword?_of_code (hws : Pieces marks ws) (hs : s.rest = spreadWords ws)
    (hcode : pastNewlines ws = w :: after) :
    ∃ t, s.keyword? w = some t ∧ t.rest = spreadWords after :=
  exists_keyword? (last_skipGaps_of_code hs hcode) (rest_skipGaps_of_code hws hs hcode)

/-- A text without blanks comes next exactly if it starts the next word. -/
theorem prefix_append_spreadWords {part : List Char} (hpart : ' ' ∉ part) (cs : List Char)
    (ws : List String) : part <+: cs ++ spreadWords ws ↔ part <+: cs := by
  refine ⟨fun h => ?_, fun h => h.trans (List.prefix_append cs _)⟩
  exact prefix_of_prefix_append (fun c hc => head?_spreadWords ws c hc ▸ hpart) h

variable {cs : List Char}

theorem skipGaps_of_cons (hs : s.rest = c :: cs) (hblank : isBlank c = false) : s.skipGaps = s := by
  refine skipGaps_of_not_gap ?_
  rw [hs, List.dropWhile_cons_of_neg]
  intro hgap
  rw [isBlank_of_isGap hgap] at hblank
  cases hblank

theorem word?_eq_none_of_cons (hs : s.rest = c :: cs) (hblank : isBlank c = false)
    (hc : p c = false) : s.word? p = none := by
  rw [word?, skipGaps_of_cons hs hblank, hs, List.takeWhile_cons_of_neg (by simp [hc])]

theorem literal?_eq_none_of_cons (text : String) (hs : s.rest = c :: cs)
    (hblank : isBlank c = false) (htext : ∀ d ∈ text.toList.head?, d ≠ c) (hne : text ≠ "") :
    s.literal? text = none := by
  obtain ⟨d, ds, hd⟩ :=
    List.exists_cons_of_ne_nil fun hnil => hne (String.toList_eq_nil_iff.mp hnil)
  have hdc : d ≠ c := htext d (by rw [hd]; rfl)
  rw [literal?, skipGaps_of_cons hs hblank, hs, hd]
  simp [hdc]

/-- A keyword may come next within a word only if the word goes on with a character that is part of
no identifier. -/
theorem of_keyword? {k : String} {t : Spot} (hk : ' ' ∉ k.toList) (hws : Pieces marks ws)
    (hs : s.rest = spreadWords ws) (hcode : pastNewlines ws = w :: after) (hne : w ≠ k)
    (h : s.keyword? k = some t) :
    ∃ c cs, t.rest = c :: cs ∧ c ∈ w.toList ∧ isIdentifier c = false := by
  rw [keyword?, rest_skipGaps_of_code hws hs hcode] at h
  split_ifs at h with hcond
  obtain rfl := Option.some.inj h
  rw [Bool.and_eq_true, Bool.and_eq_true, List.isPrefixOf_iff_prefix,
    prefix_append_spreadWords hk] at hcond
  obtain ⟨⟨⟨more, hmore⟩, -⟩, hnext⟩ := hcond
  cases more with
  | nil => exact absurd (String.toList_inj.mp (by simpa using hmore.symm)) hne
  | cons c more =>
    rw [← hmore, List.append_assoc, List.drop_left] at hnext
    refine ⟨c, more ++ spreadWords after, ?_, ?_, by simpa using hnext⟩
    · rw [rest_advance, rest_skipGaps_of_code hws hs hcode, ← hmore, List.append_assoc,
        List.drop_left]
      rfl
    · simp [← hmore]

end Spot

namespace Phrase

open Spot

variable {s : Spot} {extra : List Char} {name : String}

/-! ### A name before a semicolon -/

/-- The name among the words that follow a keyword, if a semicolon comes after it. -/
def terminatedIn? (extra : List Char) (ws : List String) : Option String :=
  match ws.filter (· != "\n") with
  | name :: mark :: _ => if mark == ";" && name.toList.all (nameChar extra) then some name else none
  | _ => none

theorem filter_newline (ws : List String) :
    ws.filter (· != "\n") = (pastNewlines ws).filter (· != "\n") := by
  induction ws with
  | nil => rfl
  | cons w ws ih =>
    by_cases hw : w = "\n"
    · rw [hw, pastNewlines_newline, ← ih]
      rfl
    · rw [pastNewlines_cons hw]

theorem isSome_literal? (hws : Pieces plainMarks ws) (hs : s.rest = spreadWords ws) :
    (s.literal? ";").isSome = true ↔ (ws.filter (· != "\n")).head? = some ";" := by
  have hrest : s.skipGaps.rest = (joinWords (pastNewlines ws)).toList := by
    rw [rest_skipGaps, hs, dropWhile_isGap_spreadWords hws]
  rw [literal?, hrest, Option.isSome_ite, List.isPrefixOf_iff_prefix, filter_newline]
  cases hcode : pastNewlines ws with
  | nil => decide
  | cons w after =>
    obtain ⟨hw, hne, -⟩ := hws.of_pastNewlines hcode
    have hfirst : ((w :: after).filter (· != "\n")).head? = some w := by simp [hne]
    rw [hfirst, Option.some_inj, toList_joinWords_cons, prefix_append_spreadWords (by decide)]
    constructor
    · rintro ⟨more, hmore⟩
      have halone :=
        hw.alone ';' (by rw [← hmore]; exact List.mem_append_left _ (by decide)) (by decide)
      exact String.toList_inj.mp (halone.trans rfl)
    · rintro rfl
      exact List.prefix_rfl

theorem terminatedIn?_of_code (hcode : pastNewlines ws = name :: after) (hne : name ≠ "\n") :
    terminatedIn? extra ws =
      if leading (nameChar extra) name = name ∧ (after.filter (· != "\n")).head? = some ";"
        then some name else none := by
  rw [terminatedIn?, filter_newline, hcode, List.filter_cons_of_pos (by simpa using hne)]
  cases after.filter (· != "\n") with
  | nil => simp
  | cons mark more => simp [leading_eq_self, and_comm]

theorem terminated?_joinWords (hw : Piece plainMarks w.toList) (hne : w ≠ "\n")
    (hextra : ∀ c ∈ extra, isBlank c = false) (hmark : ';' ∉ extra) (hws : Pieces plainMarks ws) :
    terminated? w extra (joinWords (w :: ws)) = terminatedIn? extra ws := by
  have hspace : nameChar extra ' ' = false := by
    have hextra' : ' ' ∉ extra := fun h => by cases hextra ' ' h
    simp [nameChar, hextra', show Text.asciiAlnum ' ' = false by decide]
  have hsemicolon : nameChar extra ';' = false := by
    simp [nameChar, hmark, show Text.asciiAlnum ';' = false by decide]
  obtain ⟨s, hkeyword, hs⟩ := exists_keyword?_start hw hne ws
  rw [terminated?, hkeyword, Option.bind_eq_bind, Option.bind_some]
  cases hcode : pastNewlines ws with
  | nil =>
    rw [word?_eq_none hspace hws hs (by simp [hcode]), terminatedIn?, filter_newline, hcode]
    rfl
  | cons name after =>
    obtain ⟨hname, hne', hafter⟩ := hws.of_pastNewlines hcode
    rw [terminatedIn?_of_code hcode hne']
    by_cases htake : name.toList.takeWhile (nameChar extra) = []
    · have hnot : leading (nameChar extra) name ≠ name := fun heq =>
        hname.ne_nil (by rw [← heq, leading, String.toList_ofList, htake])
      rw [word?_eq_none hspace hws hs, if_neg fun h => hnot h.1]
      · rfl
      · intro w' after' heq
        rw [← (List.cons.inj (hcode.symm.trans heq)).1, htake]
    obtain ⟨t, hword, ht⟩ := word?_of_code hspace hws hs hcode htake
    rw [hword]
    dsimp only [Option.bind_eq_bind, Option.bind_some]
    rcases leading_eq_self_or (p := nameChar extra) name with
      ⟨hall, hdrop⟩ | ⟨hall, c, cs, hdrop, hc, -⟩
    · -- the name is the whole word, and the semicolon has to be the next one
      rw [hdrop, List.nil_append] at ht
      have hliteral := isSome_literal? hafter ht
      by_cases hnext : (after.filter (· != "\n")).head? = some ";"
      · obtain ⟨u, hu⟩ := Option.isSome_iff_exists.mp (hliteral.mpr hnext)
        rw [hu, if_pos ⟨hall, hnext⟩]
        exact congrArg some hall
      · have hnone : t.literal? ";" = none :=
          Option.not_isSome_iff_eq_none.mp fun h => hnext (hliteral.mp h)
        rw [hnone, if_neg fun h => hnext h.2]
        rfl
    · -- what is left of the word stands before the semicolon
      have hne : ';' ≠ c := by
        rintro rfl
        rw [hname.alone ';' hc (by decide),
          List.takeWhile_cons_of_neg (by simp [hsemicolon])] at htake
        exact htake rfl
      rw [hdrop] at ht
      rw [literal?_eq_none_of_cons ";" ht (isBlank_of_mem hname hne' hc) (by simpa using hne)
        (by decide),
        if_neg fun h => hall h.1]
      rfl

/-! ### The header of a class -/

/-- The name with which the next word starts. -/
def nameIn? (ws : List String) : Option String :=
  match pastNewlines ws with
  | [] => none
  | w :: _ => if leading Text.asciiAlnum w == "" then none else some (leading Text.asciiAlnum w)

/-- The name after `extends`, if that is the next word. -/
def parentIn? (ws : List String) : Option String :=
  match pastNewlines ws with
  | [] => none
  | w :: after => if w == "extends" then nameIn? after else none

/-- The parent named after the word `w`, which has to be a name as a whole. -/
def parentAfter? (w : String) (ws : List String) : Option String :=
  if leading Text.asciiAlnum w == w then parentIn? ws else none

/-- The class and its parent among the words that follow a keyword, if a brace opens after the
name. -/
def headerIn? (ws : List String) : Option ClassHeader :=
  match pastNewlines ws with
  | [] => none
  | w :: after =>
    if leading Text.asciiAlnum w == "" || !after.contains "\x7b" then none
    else some ⟨leading Text.asciiAlnum w, parentAfter? w after⟩

theorem nameChar_nil : nameChar [] = Text.asciiAlnum := by
  funext c
  simp [nameChar]

theorem not_asciiAlnum_of_not_isIdentifier (h : isIdentifier c = false) :
    Text.asciiAlnum c = false := by
  simp only [isIdentifier, Bool.or_eq_false_iff] at h
  exact h.1.1

theorem asciiAlnum_space : Text.asciiAlnum ' ' = false := by decide

theorem brace_not_mem (hw : Piece plainMarks w.toList)
    (hname : w.toList.takeWhile Text.asciiAlnum ≠ []) : '\x7b' ∉ w.toList := by
  intro hmem
  rw [hw.alone '\x7b' hmem (by decide)] at hname
  exact hname (by decide)

section
variable (hws : Pieces plainMarks ws)
include hws

theorem brace_mem_iff (hcode : pastNewlines ws = w :: after) (hw : w ≠ "\x7b") :
    '\x7b' ∈ spreadWords after ↔ "\x7b" ∈ ws := by
  obtain ⟨-, -, hafter⟩ := hws.of_pastNewlines hcode
  have hmem : "\x7b" ∈ pastNewlines ws ↔ "\x7b" ∈ ws := mem_pastNewlines (by decide)
  rw [mem_spreadWords hafter (by decide) (by decide), ← hmem, hcode, List.mem_cons]
  exact (or_iff_right hw.symm).symm

theorem exists_word?_of_code (hs : s.rest = spreadWords ws)
    (hcode : pastNewlines ws = w :: after) (hname : leading Text.asciiAlnum w ≠ "") :
    ∃ t, s.word? (nameChar []) = some ((leading Text.asciiAlnum w).toList, t) ∧
      t.rest = w.toList.dropWhile Text.asciiAlnum ++ spreadWords after := by
  rw [nameChar_nil, leading, String.toList_ofList]
  exact word?_of_code asciiAlnum_space hws hs hcode fun hnil => hname (leading_eq_empty.mpr hnil)

theorem exists_word?_of_nameIn? (hs : s.rest = spreadWords ws)
    (h : nameIn? ws = some name) :
    ∃ t, s.word? (nameChar []) = some (name.toList, t) ∧ ('\x7b' ∈ t.rest ↔ "\x7b" ∈ ws) := by
  rw [nameIn?] at h
  cases hcode : pastNewlines ws with
  | nil => simp [hcode] at h
  | cons w after =>
    rw [hcode] at h
    obtain ⟨hw, -, -⟩ := hws.of_pastNewlines hcode
    by_cases hname : leading Text.asciiAlnum w = ""
    · simp [hname] at h
    obtain rfl : leading Text.asciiAlnum w = name := by simpa [hname] using h
    obtain ⟨t, hword, ht⟩ := exists_word?_of_code hws hs hcode hname
    have hbrace := brace_not_mem hw fun hnil => hname (leading_eq_empty.mpr hnil)
    refine ⟨t, hword, ?_⟩
    rw [ht, List.mem_append, brace_mem_iff hws hcode (by rintro rfl; exact hbrace (by decide))]
    exact or_iff_right fun hmem => hbrace ((List.dropWhile_sublist _).subset hmem)

theorem word?_eq_none_of_nameIn? (hs : s.rest = spreadWords ws) (h : nameIn? ws = none) :
    s.word? (nameChar []) = none := by
  rw [nameChar_nil]
  refine word?_eq_none asciiAlnum_space hws hs fun w after hcode => leading_eq_empty.mp ?_
  by_contra hname
  simp [nameIn?, hcode, hname] at h

theorem extends?_eq_none (hs : s.rest = spreadWords ws) (h : parentIn? ws = none) :
    extends? s = none := by
  rw [parentIn?] at h
  rw [extends?, Option.bind_eq_bind, Option.bind_eq_none_iff]
  intro t ht
  cases hcode : pastNewlines ws with
  | nil =>
    have hrest : s.skipGaps.rest = [] := by
      rw [rest_skipGaps, hs, dropWhile_isGap_spreadWords hws, hcode]
      rfl
    rw [keyword?, hrest] at ht
    cases ht
  | cons w after =>
    rw [hcode] at h
    obtain ⟨hw, hne, hafter⟩ := hws.of_pastNewlines hcode
    by_cases hextends : w = "extends"
    · subst hextends
      obtain ⟨t', ht', hrest⟩ := exists_keyword?_of_code hws hs hcode
      obtain rfl := Option.some.inj (ht'.symm.trans ht)
      exact word?_eq_none_of_nameIn? hafter hrest (by simpa using h)
    · obtain ⟨c, cs, hrest, hc, hident⟩ := of_keyword? (by decide) hws hs hcode hextends ht
      exact word?_eq_none_of_cons hrest (isBlank_of_mem hw hne hc)
        (by rw [nameChar_nil]; exact not_asciiAlnum_of_not_isIdentifier hident)

theorem exists_extends? {parent : String} (hs : s.rest = spreadWords ws)
    (h : parentIn? ws = some parent) :
    ∃ t, extends? s = some (parent.toList, t) ∧ ('\x7b' ∈ t.rest ↔ "\x7b" ∈ ws) := by
  rw [parentIn?] at h
  cases hcode : pastNewlines ws with
  | nil => simp [hcode] at h
  | cons w after =>
    obtain ⟨-, -, hafter⟩ := hws.of_pastNewlines hcode
    obtain ⟨rfl, hname⟩ : w = "extends" ∧ nameIn? after = some parent := by simpa [hcode] using h
    obtain ⟨t, hkeyword, ht⟩ := exists_keyword?_of_code hws hs hcode
    obtain ⟨u, hword, hu⟩ := exists_word?_of_nameIn? hafter ht hname
    refine ⟨u, ?_, ?_⟩
    · rw [extends?, hkeyword]
      exact hword
    · rw [hu, ← brace_mem_iff hws hcode (by decide), mem_spreadWords hafter (by decide) (by decide)]

end

theorem extends?_eq_none_of_cons {cs : List Char} (hs : s.rest = c :: cs)
    (hblank : isBlank c = false) (hc : Text.asciiAlnum c = false) : extends? s = none := by
  have hne : 'e' ≠ c := by
    rintro rfl
    revert hc
    decide
  rw [extends?, keyword?, skipGaps_of_cons hs hblank, hs]
  simp [hne]

theorem classHeader?_of_word? {text name : String} {t : Spot}
    (hkeyword : (Spot.start text).keyword? "class" = some s)
    (hword : s.word? (nameChar []) = some (name.toList, t)) : classHeader? text =
      match extends? t with
      | some (parent, u) =>
        if u.rest.contains '\x7b' then some ⟨name, some (String.ofList parent)⟩ else none
      | none => if t.rest.contains '\x7b' then some ⟨name, none⟩ else none := by
  simp only [classHeader?, hkeyword, hword, Option.bind_eq_bind, Option.bind_some,
    String.ofList_toList]
  cases extends? t <;> rfl

theorem extends?_after (hw : Piece plainMarks w.toList) (hne : w ≠ "\n")
    (hname : leading Text.asciiAlnum w ≠ "") (hws : Pieces plainMarks ws)
    (hs : s.rest = w.toList.dropWhile Text.asciiAlnum ++ spreadWords ws) :
    ('\x7b' ∈ s.rest ↔ "\x7b" ∈ ws) ∧ (parentAfter? w ws = none → extends? s = none) ∧
    ∀ parent, parentAfter? w ws = some parent → ∃ t, extends? s = some (parent.toList, t) ∧
      ('\x7b' ∈ t.rest ↔ "\x7b" ∈ ws) := by
  have hbrace : '\x7b' ∈ s.rest ↔ "\x7b" ∈ ws := by
    rw [hs, List.mem_append, mem_spreadWords hws (by decide) (by decide)]
    have hnobrace := brace_not_mem hw fun hnil => hname (leading_eq_empty.mpr hnil)
    exact or_iff_right fun hmem => hnobrace ((List.dropWhile_sublist _).subset hmem)
  refine ⟨hbrace, ?_⟩
  rw [parentAfter?]
  rcases leading_eq_self_or (p := Text.asciiAlnum) w with
    ⟨hall, hdrop⟩ | ⟨hall, c, cs, hdrop, hc, hplain⟩
  · rw [hdrop, List.nil_append] at hs
    rw [if_pos (by simpa using hall)]
    exact ⟨extends?_eq_none hws hs, fun parent => exists_extends? hws hs⟩
  · rw [hdrop] at hs
    rw [if_neg (by simpa using hall)]
    exact ⟨fun _ => extends?_eq_none_of_cons hs (isBlank_of_mem hw hne hc) hplain,
      fun parent h => nomatch h⟩

theorem classHeader?_joinWords (hws : Pieces plainMarks ws) :
    classHeader? (joinWords ("class" :: ws)) = headerIn? ws := by
  have hclass : Piece plainMarks "class".toList := .of_run (by decide) (by decide)
  obtain ⟨s, hkeyword, hs⟩ := exists_keyword?_start hclass (by decide) ws
  rw [headerIn?]
  cases hcode : pastNewlines ws with
  | nil =>
    have hnone : s.word? (nameChar []) = none :=
      word?_eq_none_of_nameIn? hws hs (by simp [nameIn?, hcode])
    simp [classHeader?, hkeyword, hnone]
  | cons w after =>
    obtain ⟨hw, hne, hafter⟩ := hws.of_pastNewlines hcode
    by_cases hname : leading Text.asciiAlnum w = ""
    · have hnone : s.word? (nameChar []) = none :=
        word?_eq_none_of_nameIn? hws hs (by simp [nameIn?, hcode, hname])
      simp [classHeader?, hkeyword, hnone, hname]
    obtain ⟨t, hword, ht⟩ := exists_word?_of_code hws hs hcode hname
    obtain ⟨hbrace, hnone, hsome⟩ := extends?_after hw hne hname hafter ht
    rw [classHeader?_of_word? hkeyword hword]
    cases hparent : parentAfter? w after with
    | none =>
      rw [hnone hparent]
      by_cases hmem : "\x7b" ∈ after <;> simp [hbrace, hmem, hname, hparent]
    | some parent =>
      obtain ⟨u, hextends, hu⟩ := hsome parent hparent
      rw [hextends]
      by_cases hmem : "\x7b" ∈ after <;> simp [hu, hmem, hname, hparent]

end Phrase

end CodeAtlas
