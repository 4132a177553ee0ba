import CodeAtlas.Metric.SourceLines
import CodeAtlas.Proofs.Texts
import Mathlib.Data.List.Flatten
import Mathlib.Data.List.TakeWhile

/-!
# Lines that are not blank

`Chars.filled` counts the lines of a text that are not blank, in one pass over its characters. It
does not grow when characters are taken away (`Chars.filled_sublist`), and blanks within a line do
not matter to it (`Chars.filled_eq_of_filter`): so neither removing a part of a text nor cutting it
into words adds a line.

Both readers of comments go through the same lines. The one that removes comments takes a line that
opens and closes a block for the start of a block, the one that counts does not; so whatever the
first keeps the second counts (`SourceLines.countP_codeLinesFrom_le`).
-/

namespace CodeAtlas.Chars

open Text (isBlank isLineBreak isBlank_of_isLineBreak)

variable {c : Char} {cs ds line old new : List Char} {ls : List (List Char)} {b : Bool}

/-! ### Counting in one pass -/

/-- The number of lines that are not blank, where `counted` says whether the line that goes on has
been counted. -/
def filledFrom : (counted : Bool) → List Char → Nat
  | _, [] => 0
  | counted, c :: cs =>
    if isLineBreak c then filledFrom false cs
    else if isBlank c then filledFrom counted cs
    else if counted then filledFrom true cs
    else 1 + filledFrom true cs

def filled (cs : List Char) : Nat := filledFrom false cs

/-- A character that is no gap between words: it ends a line or is not blank. -/
def isInk (c : Char) : Bool := isLineBreak c || !isBlank c

theorem filledFrom_true_le (cs : List Char) :
    filledFrom true cs ≤ filledFrom false cs ∧ filledFrom false cs ≤ 1 + filledFrom true cs := by
  induction cs with
  | nil => simp [filledFrom]
  | cons c cs ih =>
    simp only [filledFrom]
    split_ifs <;> omega

theorem filledFrom_le_cons (b : Bool) (c : Char) (cs : List Char) :
    filledFrom b cs ≤ filledFrom b (c :: cs) := by
  obtain ⟨hle, hge⟩ := filledFrom_true_le cs
  rw [filledFrom]
  cases b <;> split_ifs <;> first | omega | contradiction

theorem filledFrom_sublist (h : cs.Sublist ds) (b : Bool) : filledFrom b cs ≤ filledFrom b ds := by
  induction h generalizing b with
  | slnil => exact le_rfl
  | cons c _ ih => exact (ih b).trans (filledFrom_le_cons b c _)
  | cons_cons c _ ih =>
    simp only [filledFrom]
    split_ifs
    · exact ih false
    · exact ih b
    · exact ih true
    · exact Nat.add_le_add_left (ih true) 1

theorem filled_sublist (h : cs.Sublist ds) : filled cs ≤ filled ds := filledFrom_sublist h false

theorem filledFrom_filter_isInk (b : Bool) (cs : List Char) :
    filledFrom b (cs.filter isInk) = filledFrom b cs := by
  induction cs generalizing b with
  | nil => rfl
  | cons c cs ih =>
    cases hink : isInk c with
    | true =>
      rw [List.filter_cons_of_pos hink]
      simp only [filledFrom, ih]
    | false =>
      obtain ⟨hbreak, hblank⟩ : isLineBreak c = false ∧ isBlank c = true := by
        simpa [isInk] using hink
      rw [List.filter_cons_of_neg (by simp [hink]), ih, filledFrom, hbreak, hblank]
      rfl

/-- Texts that differ in gaps between words only have the same lines. -/
theorem filled_eq_of_filter (h : cs.filter isInk = ds.filter isInk) : filled cs = filled ds := by
  rw [filled, filled, ← filledFrom_filter_isInk, h, filledFrom_filter_isInk]

/-! ### Lines one by one -/

def isFilled (line : List Char) : Bool := trim line != []

theorem isFilled_iff : isFilled line = true ↔ ∃ c ∈ line, isBlank c = false := by
  have hnil : trim line = [] ↔ ∀ c ∈ line, isBlank c = true := by
    rw [trim, trimBy, dropTrailing, List.reverse_eq_nil_iff, List.dropWhile_eq_nil_iff]
    constructor
    · intro h c hc
      rw [← List.takeWhile_append_dropWhile (p := isBlank) (l := line), List.mem_append] at hc
      rcases hc with hc | hc
      · exact List.mem_takeWhile_imp hc
      · exact h c (List.mem_reverse.mpr hc)
    · intro h c hc
      exact h c ((List.dropWhile_sublist _).subset (List.mem_reverse.mp hc))
  rw [isFilled, bne_iff_ne, ne_eq, hnil]
  simp

@[simp] theorem isFilled_nil : isFilled [] = false := rfl

@[simp] theorem isFilled_cons (c : Char) (line : List Char) :
    isFilled (c :: line) = (!isBlank c || isFilled line) := by
  rw [Bool.eq_iff_iff, Bool.or_eq_true, isFilled_iff, isFilled_iff]
  simp

/-- The lines that are not blank are those that the pass counts, and the first one if it has been
counted before. -/
theorem filledFrom_add_eq (b : Bool) (cs : List Char) :
    filledFrom b cs + (b && (lines cs).head?.any isFilled).toNat = (lines cs).countP isFilled := by
  fun_induction lines cs generalizing b with
  | case1 => simp [filledFrom]
  | case2 cs ih =>
    have hbreaks : filledFrom b ('\r' :: '\n' :: cs) = filledFrom false cs := by
      simp [filledFrom, show isLineBreak '\r' =
        true by decide, show isLineBreak '\n' = true by decide]
    simpa [hbreaks] using ih false
  | case3 c cs _ hbreak ih =>
    rw [filledFrom, if_pos hbreak]
    simpa using ih false
  | case4 c cs _ hbreak hlines ih =>
    have hzero : ∀ b, filledFrom b cs = 0 := fun b => by simpa [hlines] using ih b
    cases b <;> cases hblank : isBlank c <;> simp [filledFrom, hbreak, hblank, hzero]
  | case5 c cs _ hbreak line rest hlines ih =>
    have htrue := ih true
    have hb := ih b
    rw [hlines, List.countP_cons] at htrue hb
    rw [filledFrom, if_neg hbreak, List.countP_cons]
    cases hblank : isBlank c with
    | true => simpa [hblank] using hb
    | false => cases b <;> cases hline : isFilled line <;> simp_all <;> omega

theorem filled_eq_countP_lines (cs : List Char) : filled cs = (lines cs).countP isFilled := by
  simpa [filled] using filledFrom_add_eq false cs

theorem not_isLineBreak_of_mem_lines (hline : line ∈ lines cs) (hc : c ∈ line) :
    isLineBreak c = false := by
  fun_induction lines cs generalizing line with
  | case1 => simp at hline
  | case2 cs ih =>
    rcases List.mem_cons.mp hline with rfl | hline
    · simp at hc
    · exact ih hline hc
  | case3 d cs _ hbreak ih =>
    rcases List.mem_cons.mp hline with rfl | hline
    · simp at hc
    · exact ih hline hc
  | case4 d cs _ hbreak hlines ih =>
    obtain rfl := List.mem_singleton.mp hline
    obtain rfl := List.mem_singleton.mp hc
    simpa using hbreak
  | case5 d cs _ hbreak first rest hlines ih =>
    rw [hlines] at ih
    rcases List.mem_cons.mp hline with rfl | hline
    · rcases List.mem_cons.mp hc with rfl | hc
      · simpa using hbreak
      · exact ih (List.mem_cons_self ..) hc
    · exact ih (List.mem_cons_of_mem _ hline) hc

/-! ### Lines put together -/

theorem filledFrom_append (h : ∀ c ∈ line, isLineBreak c = false) (b : Bool) (rest : List Char) :
    filledFrom b (line ++ rest) = (!b && isFilled line).toNat + filledFrom
      (b || isFilled line) rest := by
  induction line generalizing b with
  | nil => simp
  | cons c line ih =>
    obtain ⟨hbreak, hline⟩ := List.forall_mem_cons.mp h
    have hb := ih hline b
    have htrue : filledFrom true (line ++ rest) = filledFrom true rest := by
      simpa using ih hline true
    rw [List.cons_append, filledFrom, hbreak, isFilled_cons]
    cases b <;> cases isBlank c <;> simp [hb, htrue]

theorem filledFrom_newline (b : Bool) (rest : List Char) :
    filledFrom b ('\n' :: rest) = filled rest := rfl

theorem filled_join_newline (h : ∀ line ∈ ls, ∀ c ∈ line, isLineBreak c = false) :
    filled (join ['\n'] ls) = ls.countP isFilled := by
  induction ls with
  | nil => rfl
  | cons line rest ih =>
    obtain ⟨hline, hrest⟩ := List.forall_mem_cons.mp h
    rw [List.countP_cons]
    by_cases hne : rest = []
    · subst hne
      have hlast := filledFrom_append hline false []
      rw [List.append_nil] at hlast
      rw [join, filled, hlast]
      cases isFilled line <;> rfl
    · rw [join_cons _ _ hne, List.append_assoc, List.singleton_append, filled,
        filledFrom_append hline, filledFrom_newline, ih hrest, Nat.add_comm]
      cases isFilled line <;> rfl

/-! ### Replacing and cutting into words -/

theorem replace_cons_of_not_start (hne : old ≠ []) (h : ¬ old <+: c :: cs) :
    replace old new (c :: cs) = c :: replace old new cs := by
  rw [replace, replace, List.isEmpty_eq_false_iff.mpr hne]
  simp only [Bool.false_eq_true, ↓reduceIte]
  rw [replaceFrom, if_neg (by simpa using h)]

theorem filter_replace {p : Char → Bool} (hne : old ≠ []) (h : old.filter p = new.filter p)
    (cs : List Char) : (replace old new cs).filter p = cs.filter p := by
  induction hn : cs.length using Nat.strong_induction_on generalizing cs with
  | _ n ih =>
    by_cases hprefix : old <+: cs
    · obtain ⟨rest, rfl⟩ := hprefix
      have hlen : rest.length < n := by
        have := List.length_pos_of_ne_nil hne
        rw [List.length_append] at hn
        omega
      rw [replace_append hne, List.filter_append, List.filter_append, h, ih _ hlen rest rfl]
    · cases cs with
      | nil =>
        rw [ replace_of_not_infix fun hi => hprefix (List.eq_nil_of_infix_nil hi ▸ List.nil_prefix)]
      | cons c cs =>
        rw [replace_cons_of_not_start hne hprefix, List.filter_cons, List.filter_cons,
          ih _ (by simp [← hn]) cs rfl]

theorem replaceFrom_nil_sublist (old : List Char) (k : Nat) (cs : List Char) :
    (replaceFrom old [] k cs).Sublist cs := by
  induction cs generalizing k with
  | nil => cases k <;> exact List.Sublist.refl _
  | cons c cs ih =>
    cases k with
    | succ k => exact (ih k).cons c
    | zero =>
      rw [replaceFrom]
      split_ifs
      · exact (ih _).cons c
      · exact (ih 0).cons_cons c

theorem replace_nil_sublist (hne : old ≠ []) (cs : List Char) : (replace old [] cs).Sublist cs := by
  rw [replace, List.isEmpty_eq_false_iff.mpr hne]
  exact replaceFrom_nil_sublist old 0 cs

theorem flatten_growFirst (c : Char) (ws : List (List Char)) :
    (growFirst c ws).flatten = c :: ws.flatten := by
  cases ws <;> rfl

theorem flatten_runs_sublist (cs : List Char) : (runs cs).flatten.Sublist cs := by
  fun_induction runs cs with
  | case1 => exact List.Sublist.refl _
  | case2 c cs hnewline ih =>
    obtain rfl : c = '\n' := by simpa using hnewline
    exact ih.cons_cons _
  | case3 c cs _ _ ih => exact ih.cons c
  | case4 c => exact List.Sublist.refl _
  | case5 c _ _ d cs _ ih => exact ih.cons_cons c
  | case6 c _ _ d cs _ ih =>
    rw [flatten_growFirst]
    exact ih.cons_cons c

theorem filter_isInk_join_space (ws : List (List Char)) :
    (join [' '] ws).filter isInk = ws.flatten.filter isInk := by
  induction ws with
  | nil => rfl
  | cons w ws ih =>
    by_cases hne : ws = []
    · subst hne
      simp [join]
    · rw [join_cons _ _ hne, List.filter_append, List.filter_append, ih, List.flatten_cons,
        List.filter_append]
      simp [show isInk ' ' = false by decide]

end CodeAtlas.Chars

namespace CodeAtlas

open Chars

variable {marks : List Char} {words words' : List String}

theorem Spacing.filter_isInk_apply (marks cs : List Char) :
    ((Spacing.ofMarks marks).apply cs).filter isInk = cs.filter isInk := by
  rw [Spacing.apply, Spacing.ofMarks]
  induction marks generalizing cs with
  | nil => rfl
  | cons c marks ih =>
    rw [List.map_cons, List.foldl_cons, ih]
    refine filter_replace (by simp) ?_ cs
    simp [List.filter_cons, show isInk ' ' = false by decide]

theorem toList_joinWords (words : List String) :
    (joinWords words).toList = Chars.join [' '] (words.map String.toList) := by
  rw [joinWords, Text.join, String.toList_ofList]
  rfl

theorem filled_joinWords (words : List String) :
    filled (joinWords words).toList = filled (words.map String.toList).flatten := by
  rw [toList_joinWords]
  exact filled_eq_of_filter (filter_isInk_join_space _)

theorem filled_joinWords_sublist (h : words.Sublist words') :
    filled (joinWords words).toList ≤ filled (joinWords words').toList := by
  rw [filled_joinWords, filled_joinWords]
  exact filled_sublist ((h.map String.toList).flatten)

theorem filled_joinWords_words (marks : List Char) (text : String) :
    filled (joinWords ((Spacing.ofMarks marks).words text)).toList ≤ filled text.toList := by
  rw [filled_joinWords, Spacing.words, List.map_map]
  have hlists : String.toList ∘ String.ofList = id := by
    funext cs
    exact String.toList_ofList
  rw [hlists, List.map_id]
  calc filled (runs ((Spacing.ofMarks marks).apply text.toList)).flatten
      ≤ filled ((Spacing.ofMarks marks).apply text.toList) :=
    filled_sublist (flatten_runs_sublist _)
    _ = filled text.toList := filled_eq_of_filter (Spacing.filter_isInk_apply marks _)

/-! ### Comments -/

namespace SourceLines

theorem countFrom_le_countP (m : CommentMarks) (inBlock : Bool) (ls : List (List Char)) :
    countFrom m inBlock ls ≤ ls.countP isFilled := by
  fun_induction countFrom m inBlock ls with
  | case1 => simp
  | case6 inBlock line rest _ _ _ hfilled ih =>
    have hline : isFilled line = true := (Bool.and_eq_true_iff.mp hfilled).2
    rw [List.countP_cons_of_pos hline, Nat.add_comm]
    exact Nat.add_le_add_right ih 1
  | _ => exact le_trans ‹_› (List.sublist_cons_self ..).countP_le

/-- The lines that are left when comments are removed are counted, unless they are blank: a block
that is open for the counting reader is open for the removing one. -/
theorem countP_codeLinesFrom_le (m : CommentMarks) {inBlock inBlock' : Bool}
    (h : inBlock = true → inBlock' = true) (ls : List (List Char)) :
    (m.codeLinesFrom inBlock' ls).countP isFilled ≤ countFrom m inBlock ls := by
  induction ls generalizing inBlock inBlock' with
  | nil => simp [CommentMarks.codeLinesFrom, countFrom]
  | cons line rest ih =>
    rw [CommentMarks.codeLinesFrom, countFrom, CommentMarks.role]
    cases hstart : Chars.contains m.blockStart.toList line <;>
      cases hstop : Chars.contains m.blockStop.toList line
    · by_cases hcomment : m.line.toList.isPrefixOf (Chars.trim line) = true
      · simpa [hcomment] using ih h
      · cases inBlock' with
        | true =>
          have hrest : (m.codeLinesFrom true rest).countP isFilled ≤ countFrom m inBlock rest :=
            ih fun _ => rfl
          simp only [hcomment, Bool.false_eq_true, ↓reduceIte]
          split_ifs <;> omega
        | false =>
          obtain rfl : inBlock = false := by simpa using h
          have hrest : (m.codeLinesFrom false rest).countP isFilled ≤
              countFrom m false rest := ih id
          rw [show (Chars.trim line != []) = isFilled line from rfl]
          simp only [hcomment, Bool.false_eq_true, ↓reduceIte, List.countP_cons, Bool.not_false,
            Bool.true_and]
          split_ifs <;> omega
    · exact ih (by simp)
    · exact ih (by simp)
    · exact ih (by simp)

end SourceLines

end CodeAtlas
