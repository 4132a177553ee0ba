import CodeAtlas.Proofs.IncludeLines
import Mathlib.Data.List.Forall2

/-!
# Lines of code

Imports that are written one to a line are looked for in the lines of a file that are no comments.
The words of a file fall into lines (`wordLines`), and put together again they are the lines of a
text (`forall₂_isLine_lines`). Quotes are words of their own, so no block is ever opened, and a line
is a comment exactly if its first word starts with `#` (`CommentMarks.role_scriptStyle`). A line is
told by the newline after it, and there is none after the last: so all lines of code but the last
one are looked at (`Imports.endedLines_codeWords`).
-/

namespace CodeAtlas

open Chars CommentMarks
open Text (isBlank isLineBreak)

variable {marks part cs line : List Char} {w : String} {l ws us vs : List String}
  {ls : List (List String)}

/-! ### Lines of words -/

/-- The words of each line. After the last newline there is a line only if a word is there. -/
def wordLines : List String → List (List String)
  | [] => []
  | w :: ws =>
    if w = "\n" then [] :: wordLines ws
    else
      match wordLines ws with
      | [] => [[w]]
      | line :: lines => (w :: line) :: lines

theorem wordLines_newline (ws : List String) : wordLines ("\n" :: ws) = [] :: wordLines ws := by
  simp [wordLines]

theorem wordLines_cons (h : w ≠ "\n") (ws : List String) :
    wordLines (w :: ws) = (w :: (wordLines ws).head?.getD []) :: (wordLines ws).tail := by
  rw [wordLines, if_neg h]
  cases wordLines ws <;> rfl

theorem of_mem_wordLines (hl : l ∈ wordLines ws) (hw : w ∈ l) : w ∈ ws ∧ w ≠ "\n" := by
  induction ws generalizing l with
  | nil => cases hl
  | cons v ws ih =>
    by_cases hv : v = "\n"
    · rw [hv, wordLines_newline] at hl
      rcases List.mem_cons.mp hl with rfl | hl
      · cases hw
      · exact (ih hl hw).imp_left (List.mem_cons_of_mem v)
    · rw [wordLines, if_neg hv] at hl
      cases hrest : wordLines ws with
      | nil =>
        rw [hrest] at hl
        obtain rfl := List.mem_singleton.mp hl
        obtain rfl := List.mem_singleton.mp hw
        exact ⟨List.mem_cons_self, hv⟩
      | cons first rest =>
        rw [hrest] at hl ih
        rcases List.mem_cons.mp hl with rfl | hl
        · rcases List.mem_cons.mp hw with rfl | hw
          · exact ⟨List.mem_cons_self, hv⟩
          · exact (ih List.mem_cons_self hw).imp_left (List.mem_cons_of_mem v)
        · exact (ih (List.mem_cons_of_mem first hl) hw).imp_left (List.mem_cons_of_mem v)

theorem exists_wordLines_append_newline (ws : List String) :
    ∃ gap, (gap = [] ∨ gap = [[]]) ∧
      ∀ vs, wordLines (ws ++ "\n" :: vs) = wordLines ws ++ (gap ++ wordLines vs) := by
  induction ws with
  | nil => exact ⟨[[]], .inr rfl, fun vs => wordLines_newline vs⟩
  | cons w ws ih =>
    obtain ⟨gap, hgap, heq⟩ := ih
    by_cases hw : w = "\n"
    · refine ⟨gap, hgap, fun vs => ?_⟩
      rw [hw, List.cons_append, wordLines_newline, wordLines_newline, heq, List.cons_append]
    · cases ws with
      | nil =>
        refine ⟨[], .inl rfl, fun vs => ?_⟩
        rw [List.cons_append, wordLines_cons hw, List.nil_append, wordLines_newline,
          wordLines_cons hw]
        rfl
      | cons v ws =>
        refine ⟨gap, hgap, fun vs => ?_⟩
        have hne : wordLines (v :: ws) ≠ [] := by
          by_cases hv : v = "\n"
          · simp [hv, wordLines_newline]
          · simp [wordLines_cons hv]
        obtain ⟨first, rest, hlines⟩ := List.exists_cons_of_ne_nil hne
        rw [List.cons_append, wordLines_cons hw, wordLines_cons hw, heq, hlines]
        rfl

theorem wordLines_append (hus : us = [] ∨ us.getLast? = some "\n") (vs : List String) :
    wordLines (us ++ vs) = wordLines us ++ wordLines vs := by
  rcases hus with rfl | hlast
  · rfl
  · obtain ⟨ws, rfl⟩ := List.getLast?_eq_some_iff.mp hlast
    obtain ⟨gap, -, heq⟩ := exists_wordLines_append_newline ws
    have hws : wordLines (ws ++ ["\n"]) = wordLines ws ++ gap := by
      rw [heq []]
      simp [wordLines]
    rw [hws, List.append_assoc, List.singleton_append, heq vs, List.append_assoc]

theorem wordLines_line (hl : "\n" ∉ l) (vs : List String) :
    wordLines (l ++ "\n" :: vs) = l :: wordLines vs := by
  induction l with
  | nil => exact wordLines_newline vs
  | cons w l ih =>
    obtain ⟨hw, hl⟩ := not_or.mp (mt List.mem_cons.mpr hl)
    rw [List.cons_append, wordLines_cons (Ne.symm hw), ih hl]
    rfl

/-- The lines of words with a blank before each. Before a newline there is a blank too, which ends
its line. -/
theorem forall₂_lines_spreadWords (hws : Pieces marks ws) :
    List.Forall₂ (fun l line => ∃ after, (after = [] ∨ after = [' ']) ∧
      line = spreadWords l ++ after) (wordLines ws)
      (Chars.lines (spreadWords ws)) := by
  induction ws with
  | nil => exact .nil
  | cons w ws ih =>
    obtain ⟨hw, hws⟩ := List.forall_mem_cons.mp hws
    by_cases hne : w = "\n"
    · have hlines : Chars.lines (spreadWords (w :: ws)) =
          [' '] :: Chars.lines (spreadWords ws) := by
        rw [hne, spreadWords_cons, List.cons_append, lines_cons (by decide)]
        exact congrArg (growFirst ' ') (lines_newline _)
      rw [hlines, hne, wordLines_newline]
      exact .cons ⟨[' '], .inr rfl, rfl⟩ (ih hws)
    · have hbreak : ∀ c ∈ ' ' :: w.toList, isLineBreak c = false :=
        List.forall_mem_cons.mpr ⟨by decide, not_isLineBreak_of_mem hw hne⟩
      rw [wordLines_cons hne, spreadWords_cons, lines_append hbreak (by simp)]
      have hrest := ih hws
      cases hlines : wordLines ws with
      | nil =>
        rw [hlines, List.forall₂_nil_left_iff] at hrest
        rw [hrest]
        exact .cons ⟨[], .inl rfl, by simp [spreadWords, spread]⟩ .nil
      | cons l ls =>
        rw [hlines] at hrest
        obtain ⟨line, rest, ⟨after, hafter, rfl⟩, hls, hcons⟩ := List.forall₂_cons_left_iff.mp hrest
        rw [hcons]
        exact .cons ⟨after, hafter, by simp [spreadWords_cons]⟩ hls

theorem forall₂_isLine_lines (hws : Pieces marks ws) :
    List.Forall₂ IsLine (wordLines ws) (Chars.lines (joinWords ws).toList) := by
  cases ws with
  | nil => exact .nil
  | cons w ws =>
    have hspread := forall₂_lines_spreadWords hws
    have htext : spreadWords (w :: ws) = ' ' :: (joinWords (w :: ws)).toList := by
      rw [toList_joinWords_cons, spreadWords_cons, List.cons_append]
    have hne : Chars.lines (joinWords (w :: ws)).toList ≠ [] := by
      have hw := (hws w List.mem_cons_self).ne_nil
      rw [Ne, lines_eq_nil, toList_joinWords_cons]
      simp [hw]
    obtain ⟨first, rest, hlines⟩ := List.exists_cons_of_ne_nil hne
    rw [htext, lines_cons (by decide), hlines] at hspread
    obtain ⟨l, ls, ⟨after, hafter, hfirst⟩, hrest, hcons⟩ := List.forall₂_cons_right_iff.mp hspread
    rw [hlines, hcons]
    refine .cons ?_ (hrest.imp fun l line hline => ?_)
    · -- the first line has no blank before it
      cases l with
      | nil =>
        rcases hafter with rfl | rfl
        · cases hfirst
        · exact ⟨[], [], .inl rfl, .inl rfl, (List.cons.inj hfirst).2⟩
      | cons v l =>
        rw [spreadWords_cons] at hfirst
        refine ⟨[], after, .inl rfl, hafter, ?_⟩
        rw [toList_joinWords_cons]
        exact (List.cons.inj hfirst).2
    · obtain ⟨after, hafter, rfl⟩ := hline
      cases l with
      | nil => exact ⟨[], after, .inl rfl, hafter, rfl⟩
      | cons v l =>
        exact ⟨[' '], after, .inr rfl, hafter, by rw [spreadWords_cons, toList_joinWords_cons]; rfl⟩

theorem cut_isLine (hl : Pieces marks l) (h : IsLine l line) :
    cut marks line = l.map String.toList := by
  cases l with
  | nil =>
    obtain ⟨before, after, hbefore, hafter, rfl⟩ := h
    rcases hbefore with rfl | rfl
    · exact cut_blanks hafter
    · exact (cut_blank marks (by decide) (by decide) _).trans (cut_blanks hafter)
  | cons k l => exact cut_of_isLine hl h

theorem newline_not_mem_isLine (hl : Pieces marks l) (hnewline : "\n" ∉ l) (h : IsLine l line) :
    '\n' ∉ line := by
  obtain ⟨before, after, hbefore, hafter, rfl⟩ := h
  intro hmem
  have htext : '\n' ∈ (joinWords l).toList := by
    rcases hbefore with rfl | rfl <;> rcases hafter with rfl | rfl <;> simpa using hmem
  exact absurd (not_isLineBreak_joinWords hl hnewline '\n' htext) (by decide)

/-! ### Comments -/

def isRemark (l : List String) : Bool := l.head?.any fun w => w.toList.head? == some '#'

namespace Chars

/-- A part without breaks at the start of a text is the start of its first word. -/
theorem exists_head_cut_of_prefix (hne : part ≠ []) (hpart : ∀ c ∈ part, isBreak marks c = false)
    (h : part <+: cs) : ∃ w ∈ (cut marks cs).head?, part <+: w := by
  induction part generalizing cs with
  | nil => contradiction
  | cons c part ih =>
    obtain ⟨rest, rfl⟩ := h
    obtain ⟨hc, hpart⟩ := List.forall_mem_cons.mp hpart
    cases part with
    | nil =>
      obtain ⟨w, ws, hcut, -⟩ := exists_cut_cons marks (Bool.or_eq_false_iff.mp hc).1 rest
      exact ⟨c :: w, by simp [hcut], by simp⟩
    | cons d part =>
      obtain ⟨w, hw, hprefix⟩ := ih (by simp) hpart (List.prefix_append _ rest)
      refine ⟨c :: w, ?_, (List.prefix_cons_inj c).mpr hprefix⟩
      rw [List.cons_append, List.cons_append, cut_run hc (hpart d List.mem_cons_self)]
      cases hcut : cut marks (d :: (part ++ rest)) with
      | nil => simp [hcut] at hw
      | cons v ws => simp_all [growFirst]

theorem cut_dropWhile (hline : '\n' ∉ line) :
    cut marks (line.dropWhile isBlank) = cut marks line := by
  have hblank : ∀ c ∈ line.takeWhile isBlank, isBlank c = true :=
    fun c hc => List.mem_takeWhile_imp hc
  have hnone : (line.takeWhile isBlank).count '\n' = 0 :=
    List.count_eq_zero.mpr fun hmem => hline ((List.takeWhile_prefix _).subset hmem)
  conv => rhs; rw [← List.takeWhile_append_dropWhile (p := isBlank) (l := line),
    cut_blank_append hblank, hnone]
  rfl

theorem isPrefixOf_trim (hne : part ≠ []) (hpart : ∀ c ∈ part, isBreak marks c = false)
    (hline : '\n' ∉ line) :
    part.isPrefixOf (trim line) = (cut marks line).head?.any part.isPrefixOf := by
  have hblank : ∀ c ∈ part, isBlank c = false :=
    fun c hc => (Bool.or_eq_false_iff.mp (hpart c hc)).1
  have htrim : part <+: trim line ↔ part <+: line.dropWhile isBlank :=
    ⟨fun hp => hp.trans (dropTrailing_isPrefix isBlank _), prefix_dropTrailing hblank⟩
  rw [Bool.eq_iff_iff, List.isPrefixOf_iff_prefix, htrim, Option.any_eq_true]
  constructor
  · intro h
    obtain ⟨w, hw, hprefix⟩ := exists_head_cut_of_prefix hne hpart h
    exact ⟨w, by rwa [← cut_dropWhile hline], List.isPrefixOf_iff_prefix.mpr hprefix⟩
  · rintro ⟨w, hw, hprefix⟩
    exact (List.isPrefixOf_iff_prefix.mp hprefix).trans (prefix_of_head_cut hline hw)

end Chars

namespace CommentMarks

theorem not_infix_quotes (hl : Pieces Spacing.quoteMarks l) (h : IsLine l line) :
    ¬ ['"', '"', '"'] <:+: line := by
  intro hi
  cases l with
  | nil =>
    obtain ⟨before, after, hbefore, hafter, rfl⟩ := h
    have hmem := hi.subset List.mem_cons_self
    rcases hbefore with rfl | rfl <;> rcases hafter with rfl | rfl <;>
      simp [joinWords, Text.join, join] at hmem
  | cons k l =>
    obtain ⟨w, hw, hi⟩ := exists_of_infix_isLine (by simp) (by decide) h hi
    have halone := (hl w hw).alone '"' (hi.subset List.mem_cons_self) (by decide)
    have hlength := hi.length_le
    rw [halone] at hlength
    exact absurd hlength (by decide)

theorem isPrefixOf_trim_eq_isRemark (hl : Pieces Spacing.quoteMarks l) (hnewline : "\n" ∉ l)
    (h : IsLine l line) : ['#'].isPrefixOf (Chars.trim line) = isRemark l := by
  have hbreak : ∀ c ∈ ['#'], isBreak Spacing.quoteMarks c = false := by decide
  have hhead : ∀ cs : List Char, ['#'].isPrefixOf cs = (cs.head? == some '#') := fun cs => by
    rw [Bool.eq_iff_iff, List.isPrefixOf_iff_prefix, beq_iff_eq]
    cases cs <;> simp [eq_comm]
  rw [isPrefixOf_trim (by simp) hbreak (newline_not_mem_isLine hl hnewline h), cut_isLine hl h,
    isRemark]
  cases l <;> simp [hhead]

theorem role_scriptStyle (hl : Pieces Spacing.quoteMarks l) (hnewline : "\n" ∉ l)
    (h : IsLine l line) : scriptStyle.role line = if isRemark l then .comment else .plain := by
  have hquotes : Chars.contains ['"', '"', '"'] line = false :=
    contains_eq_false_iff.mpr (not_infix_quotes hl h)
  rw [role, show scriptStyle.blockStart.toList = ['"', '"', '"'] from rfl,
    show scriptStyle.blockStop.toList = ['"', '"', '"'] from rfl, hquotes,
    show scriptStyle.line.toList = ['#'] from rfl,
    isPrefixOf_trim_eq_isRemark hl hnewline h]
  rfl

theorem forall₂_codeLinesFrom {lines : List (List Char)}
    (hls : ∀ l ∈ ls, Pieces Spacing.quoteMarks l ∧ "\n" ∉ l) (h : List.Forall₂ IsLine ls lines) :
    List.Forall₂ IsLine (ls.filter fun l => !isRemark l)
      (scriptStyle.codeLinesFrom false lines) := by
  induction h with
  | nil => exact .nil
  | @cons l line ls lines hline _ ih =>
    obtain ⟨⟨hl, hnewline⟩, hls⟩ := List.forall_mem_cons.mp hls
    rw [codeLinesFrom, role_scriptStyle hl hnewline hline]
    cases hremark : isRemark l with
    | true =>
      rw [List.filter_cons_of_neg (by simp [hremark])]
      exact ih hls
    | false =>
      rw [List.filter_cons_of_pos (by simp [hremark])]
      exact .cons hline (ih hls)

end CommentMarks

/-! ### Lines that are looked at -/

namespace Imports

theorem endedLines_line (hl : "\n" ∉ l) (ws : List String) :
    endedLines (l ++ "\n" :: ws) = l :: endedLines ws := by
  induction l with
  | nil => rfl
  | cons w l ih =>
    obtain ⟨hw, hl⟩ := not_or.mp (mt List.mem_cons.mpr hl)
    rw [List.cons_append, endedLines, if_neg (by simpa using Ne.symm hw), ih hl]

theorem endedLines_eq_nil (hl : "\n" ∉ l) : endedLines l = [] := by
  induction l with
  | nil => rfl
  | cons w l ih =>
    obtain ⟨hw, hl⟩ := not_or.mp (mt List.mem_cons.mpr hl)
    rw [endedLines, if_neg (by simpa using Ne.symm hw), ih hl]

theorem endedLines_join {lines : List (List Char)} (hls : ∀ l ∈ ls, Pieces marks l ∧ "\n" ∉ l)
    (h : List.Forall₂ IsLine ls lines) :
    endedLines ((cut marks (join ['\n'] lines)).map String.ofList) = ls.dropLast := by
  induction h with
  | nil => rfl
  | @cons l line ls lines hline hlines ih =>
    obtain ⟨⟨hl, hnewline⟩, hls⟩ := List.forall_mem_cons.mp hls
    have hwords : (cut marks line).map String.ofList = l := by
      rw [cut_isLine hl hline]
      simp
    cases hlines with
    | nil => rw [join, hwords, endedLines_eq_nil hnewline, List.dropLast_singleton]
    | cons hnext hmore =>
      rw [join_cons _ _ (by simp), List.append_assoc, List.singleton_append,
        cut_append line (isBreak_newline _), cut_newline, List.map_append, List.map_cons, hwords,
        List.dropLast_cons_of_ne_nil (by simp), ← ih hls]
      exact endedLines_line hnewline _

/-- The lines of a file that are no comments, each with one blank between its words. -/
def codeTexts (words : List String) : List String :=
  ((wordLines words).filter fun l => !isRemark l).map joinWords

theorem endedLines_codeWords (hws : Pieces Spacing.quoteMarks ws) :
    (endedLines (codeWords .python ws)).map joinWords = (codeTexts ws).dropLast := by
  have hls : ∀ l ∈ wordLines ws, Pieces Spacing.quoteMarks l ∧ "\n" ∉ l := fun l hl =>
    ⟨fun w hw => hws w (of_mem_wordLines hl hw).1, fun hmem => (of_mem_wordLines hl hmem).2 rfl⟩
  have hcode := CommentMarks.forall₂_codeLinesFrom hls (forall₂_isLine_lines hws)
  have hended := endedLines_join (fun l hl => hls l (List.mem_filter.mp hl).1) hcode
  have hwords : codeWords .python ws = (cut Spacing.quoteMarks (join ['\n']
      (CommentMarks.scriptStyle.codeLinesFrom false (Chars.lines (joinWords ws).toList)))).map
        String.ofList := by
    rw [codeWords]
    refine (Spacing.words_withQuotes _).trans ?_
    rw [CommentMarks.strip, String.toList_ofList]
    rfl
  rw [hwords, hended, codeTexts, List.map_dropLast]

theorem codeTexts_append (hus : us = [] ∨ us.getLast? = some "\n") (vs : List String) :
    codeTexts (us ++ vs) = codeTexts us ++ codeTexts vs := by
  rw [codeTexts, wordLines_append hus, List.filter_append, List.map_append]
  rfl

theorem codeTexts_line (hl : "\n" ∉ l) (hcode : isRemark l = false) (vs : List String) :
    codeTexts (l ++ "\n" :: vs) = joinWords l :: codeTexts vs := by
  rw [codeTexts, wordLines_line hl, List.filter_cons_of_pos (by simp [hcode])]
  rfl

theorem exists_codeTexts_append_newline (ws : List String) :
    ∃ gap, (gap = [] ∨ gap = [""]) ∧
      ∀ vs, codeTexts (ws ++ "\n" :: vs) = codeTexts ws ++ (gap ++ codeTexts vs) := by
  obtain ⟨gap, hgap, heq⟩ := exists_wordLines_append_newline ws
  refine ⟨gap.map joinWords, ?_, fun vs => ?_⟩
  · rcases hgap with rfl | rfl
    · exact .inl rfl
    · exact .inr rfl
  · have hkept : gap.filter (fun l => !isRemark l) = gap := by
      rcases hgap with rfl | rfl <;> rfl
    rw [codeTexts, heq, List.filter_append, List.filter_append, hkept, List.map_append,
      List.map_append]
    rfl

end Imports

end CodeAtlas
