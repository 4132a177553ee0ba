import CodeAtlas.Proofs.ClassScopes

/-!
# Code without comments

Words have no part in a comment if none of them holds the mark of a block and none at the start of a
line starts with the mark of a line comment (`Quiet`). Then all lines are code, and the words that
are looked at again are the same, up to a newline at the end (`CommentMarks.words_strip`). Where
classes are looked for, pairs of braces with nothing between them are missing too
(`Entities.scopeWords_cons`).
-/

namespace CodeAtlas

open Chars Spacing
open Text (isBlank isLineBreak)

/-- A list without its last element, if that is `a`. -/
def chop {α : Type} [DecidableEq α] (a : α) (xs : List α) : List α :=
  if xs.getLast? = some a then xs.dropLast else xs

section Chop

variable {α : Type} [DecidableEq α] {a x : α} {xs : List α}

theorem chop_concat (a : α) (xs : List α) : chop a (xs ++ [a]) = xs := by simp [chop]

theorem chop_of_ne (h : xs.getLast? ≠ some a) : chop a xs = xs := if_neg h

theorem chop_cons (h : xs ≠ [] ∨ x ≠ a) : chop a (x :: xs) = x :: chop a xs := by
  cases xs with
  | nil => simp [chop, h.resolve_left fun h => h rfl]
  | cons y ys =>
    rw [chop, chop, List.getLast?_cons_cons, List.dropLast_cons_of_ne_nil (by simp)]
    split_ifs <;> rfl

end Chop

namespace Chars

variable {c : Char} {cs as bs part line : List Char}

/-! ### Parts of a text -/

theorem dropTrailing_isPrefix (p : Char → Bool) (cs : List Char) : dropTrailing p cs <+: cs := by
  have h := List.reverse_prefix.mpr (List.dropWhile_suffix p (l := cs.reverse))
  rwa [List.reverse_reverse] at h

theorem prefix_dropTrailing {p : Char → Bool} (hpart : ∀ c ∈ part, p c = false) (h : part <+: cs) :
    part <+: dropTrailing p cs := by
  obtain ⟨rest, rfl⟩ := h
  have hkeep : part.reverse.dropWhile p = part.reverse := by
    cases hrev : part.reverse with
    | nil => rfl
    | cons c more =>
      have hc : c ∈ part := List.mem_reverse.mp (hrev ▸ List.mem_cons_self)
      rw [List.dropWhile_cons_of_neg (by simp [hpart c hc])]
  rw [dropTrailing, List.reverse_append, List.dropWhile_append, hkeep]
  split
  · rw [List.reverse_reverse]
  · rw [List.reverse_append, List.reverse_reverse]
    exact List.prefix_append _ _

/-- What holds of a line, and of a line and more lines if it holds of those, holds of all texts. -/
theorem line_induction {motive : List Char → Prop} (last : ∀ line, '\n' ∉ line → motive line)
    (step : ∀ line rest, '\n' ∉ line → motive rest → motive (line ++ '\n' :: rest))
    (cs : List Char) : motive cs := by
  -- a line may be long, so the induction is on the length
  induction hn : cs.length using Nat.strong_induction_on generalizing cs with
  | _ n ih =>
    by_cases hmem : '\n' ∈ cs
    · obtain ⟨line, rest, rfl, hline⟩ := List.eq_append_cons_of_mem hmem
      refine step line rest hline (ih rest.length ?_ rest rfl)
      rw [← hn, List.length_append, List.length_cons]
      omega
    · exact last cs hmem

theorem prefix_of_head_cut {marks w : List Char} (hline : '\n' ∉ cs)
    (hw : w ∈ (cut marks cs).head?) : w <+: cs.dropWhile isBlank := by
  induction cs with
  | nil => cases hw
  | cons c cs ih =>
    obtain ⟨hc, hcs⟩ := not_or.mp (mt List.mem_cons.mpr hline)
    cases hblank : isBlank c with
    | true =>
      rw [cut_blank marks (Ne.symm hc) hblank] at hw
      rw [List.dropWhile_cons_of_pos hblank]
      exact ih hcs hw
    | false =>
      obtain ⟨w', ws, hcut, hprefix⟩ := exists_cut_cons marks hblank cs
      rw [hcut] at hw
      obtain rfl := Option.some.inj hw
      rw [List.dropWhile_cons_of_neg (by simp [hblank])]
      exact (List.prefix_cons_inj c).mpr hprefix

/-! ### Lines -/

theorem lines_newline (cs : List Char) : lines ('\n' :: cs) = [] :: lines cs := by
  rw [lines.eq_def]
  rfl

theorem lines_cons (h : isLineBreak c = false) (cs : List Char) :
    lines (c :: cs) = growFirst c (lines cs) := by
  rw [lines.eq_def]
  split
  · next heq => cases heq
  · next heq =>
    obtain ⟨rfl, -⟩ := List.cons.inj heq
    cases h
  · next heq =>
    obtain ⟨rfl, rfl⟩ := List.cons.inj heq
    rw [if_neg (by simp [h])]
    rfl

theorem lines_append (has : ∀ c ∈ as, isLineBreak c = false) (hne : as ≠ []) (cs : List Char) :
    lines (as ++ cs) = (as ++ (lines cs).head?.getD []) :: (lines cs).tail := by
  have hgrow : ∀ (c : Char) (ls : List (List Char)),
      growFirst c ls = (c :: ls.head?.getD []) :: ls.tail := fun c ls => by
    cases ls <;> rfl
  induction as with
  | nil => exact absurd rfl hne
  | cons c as ih =>
    obtain ⟨hc, has⟩ := List.forall_mem_cons.mp has
    rw [List.cons_append, lines_cons hc, hgrow]
    cases as with
    | nil => rfl
    | cons d as =>
      rw [ih has (by simp)]
      rfl

theorem lines_eq_nil : lines cs = [] ↔ cs = [] := by
  refine ⟨fun h => ?_, fun h => by rw [h]; rfl⟩
  cases cs with
  | nil => rfl
  | cons c cs =>
    rw [lines.eq_def] at h
    split at h
    · next heq => cases heq
    · cases h
    · split at h
      · cases h
      · split at h <;> cases h

theorem prefix_of_head_lines (h : line ∈ (lines cs).head?) : line <+: cs := by
  fun_induction lines cs generalizing line with
  | case1 => cases h
  | case2 cs ih =>
    obtain rfl := Option.some.inj h
    exact List.nil_prefix
  | case3 c cs _ _ ih =>
    obtain rfl := Option.some.inj h
    exact List.nil_prefix
  | case4 c cs _ _ _ ih =>
    obtain rfl := Option.some.inj h
    simp
  | case5 c cs _ _ first rest heq ih =>
    obtain rfl := Option.some.inj h
    exact (List.prefix_cons_inj c).mpr (ih (by rw [heq]; rfl))

theorem head_lines_isPrefix (cs : List Char) : (lines cs).head?.getD [] <+: cs := by
  cases hhead : (lines cs).head? with
  | none => exact List.nil_prefix
  | some line => exact prefix_of_head_lines hhead

theorem infix_of_mem_lines (h : line ∈ lines cs) : line <:+: cs := by
  fun_induction lines cs generalizing line with
  | case1 => cases h
  | case2 cs ih =>
    rcases List.mem_cons.mp h with rfl | h
    · exact List.nil_infix
    · exact List.infix_cons (List.infix_cons (ih h))
  | case3 c cs _ _ ih =>
    rcases List.mem_cons.mp h with rfl | h
    · exact List.nil_infix
    · exact List.infix_cons (ih h)
  | case4 c cs _ _ _ ih =>
    obtain rfl := List.mem_singleton.mp h
    exact List.IsPrefix.isInfix (by simp)
  | case5 c cs _ _ first rest heq ih =>
    rcases List.mem_cons.mp h with rfl | h
    · exact ((List.prefix_cons_inj c).mpr (prefix_of_head_lines (by rw [heq]; rfl))).isInfix
    · exact List.infix_cons (ih (heq ▸ List.mem_cons_of_mem first h))

/-- A text without other line breaks is its lines put together, up to a newline at the end. -/
theorem join_lines (h : ∀ c ∈ cs, isLineBreak c = true → c = '\n') :
    join ['\n'] (lines cs) = chop '\n' cs := by
  induction cs with
  | nil => rfl
  | cons c cs ih =>
    obtain ⟨hc, hcs⟩ := List.forall_mem_cons.mp h
    have hrest := ih hcs
    by_cases hne : c = '\n'
    · rw [hne, lines_newline]
      cases cs with
      | nil => rfl
      | cons d ds =>
        rw [join_cons _ _ (mt lines_eq_nil.mp (by simp)), hrest]
        exact (chop_cons (.inl (by simp))).symm
    · have hbreak : isLineBreak c = false := by
        cases hb : isLineBreak c with
        | false => rfl
        | true => exact absurd (hc hb) hne
      rw [lines_cons hbreak, chop_cons (.inr hne), ← hrest]
      cases lines cs with
      | nil => rfl
      | cons line rest => cases rest <;> rfl

end Chars

/-! ### Words outside of comments -/

/-- There is no mark of a block comment. -/
@[mk_iff]
structure BlockFree (cs : List Char) : Prop where
  start : ¬ ['/', '*'] <:+: cs
  stop : ¬ ['*', '/'] <:+: cs

theorem BlockFree.of_infix {cs ds : List Char} (h : BlockFree cs) (hds : ds <:+: cs) :
    BlockFree ds :=
  ⟨fun hi => h.start (hi.trans hds), fun hi => h.stop (hi.trans hds)⟩

theorem BlockFree.of_not_mem {cs : List Char} (h : '/' ∉ cs) : BlockFree cs :=
  ⟨fun hi => h (hi.subset (by simp)), fun hi => h (hi.subset (by simp))⟩

/-- No word has part in a comment, where `start` tells that they start a line. -/
def Quiet : (start : Bool) → List String → Prop
  | _, [] => True
  | start, w :: ws =>
    BlockFree w.toList ∧ (start = true → ¬ ['/', '/'] <+: w.toList) ∧ Quiet (w == "\n") ws

namespace Quiet

variable {start : Bool} {ws us vs : List String} {w : String}

theorem mono (h : Quiet true ws) : Quiet start ws := by
  cases ws with
  | nil => trivial
  | cons w ws => exact ⟨h.1, fun _ => h.2.1 rfl, h.2.2⟩

theorem append (hus : Quiet start us) (hvs : Quiet true vs) : Quiet start (us ++ vs) := by
  induction us generalizing start with
  | nil => exact hvs.mono
  | cons w us ih => exact ⟨hus.1, hus.2.1, ih hus.2.2⟩

theorem blockFree (h : Quiet start ws) (hw : w ∈ ws) : BlockFree w.toList := by
  induction ws generalizing start with
  | nil => cases hw
  | cons v ws ih =>
    rcases List.mem_cons.mp hw with rfl | hw
    · exact h.1
    · exact ih h.2.2 hw

theorem of_not_mem (h : ∀ w ∈ ws, '/' ∉ w.toList) : Quiet start ws := by
  induction ws generalizing start with
  | nil => trivial
  | cons w ws ih =>
    obtain ⟨hw, hws⟩ := List.forall_mem_cons.mp h
    exact ⟨.of_not_mem hw, fun _ hp => hw (hp.subset (by simp)), ih hws⟩

theorem of_line (hline : ∀ w ∈ ws, w ≠ "\n") (hblock : ∀ w ∈ ws, BlockFree w.toList)
    (hfirst : start = true → ∀ w ∈ ws.head?, ¬ ['/', '/'] <+: w.toList) : Quiet start ws := by
  induction ws generalizing start with
  | nil => trivial
  | cons w ws ih =>
    obtain ⟨hw, hws⟩ := List.forall_mem_cons.mp hline
    obtain ⟨hb, hbs⟩ := List.forall_mem_cons.mp hblock
    refine ⟨hb, fun hs => hfirst hs w rfl, ih hws hbs fun hs => ?_⟩
    exact absurd (beq_iff_eq.mp hs) hw

end Quiet

namespace CommentMarks

variable {marks line cs : List Char} {start : Bool} {ws : List String} {w : String}
  {blanks : List Char}

theorem role_eq_plain : cStyle.role line = .plain ↔
    BlockFree line ∧ ¬ ['/', '/'] <+: trim line := by
  have hopen : Chars.contains cStyle.blockStart.toList line = true ↔ ['/', '*'] <:+: line :=
    contains_iff_infix
  have hclose : contains cStyle.blockStop.toList line = true ↔ ['*', '/'] <:+: line :=
    contains_iff_infix
  have hcomment : cStyle.line.toList.isPrefixOf (trim line) = true ↔ ['/', '/'] <+: trim line :=
    List.isPrefixOf_iff_prefix
  rw [role, blockFree_iff, ← hopen, ← hclose, ← hcomment]
  split_ifs with h₁ h₂ h₃ <;> simp [*]

theorem quiet_words_line (hline : '\n' ∉ line) (h : cStyle.role line = .plain) :
    Quiet true ((cut marks line).map String.ofList) := by
  obtain ⟨hblock, hcomment⟩ := role_eq_plain.mp h
  have hsub : ∀ w ∈ (cut marks line).map String.ofList, w.toList <:+: line := by
    intro w hw
    obtain ⟨cs, hcs, rfl⟩ := List.mem_map.mp hw
    rw [String.toList_ofList]
    exact infix_of_mem_cut hcs
  have hword : ∀ w ∈ (cut marks line).map String.ofList, w ≠ "\n" := fun w hw hnewline =>
    hline ((hsub w hw).subset (by rw [hnewline]; decide))
  refine .of_line hword (fun w hw => hblock.of_infix (hsub w hw)) fun _ w hw hmark => ?_
  rw [List.head?_map] at hw
  obtain ⟨cs, hcs, rfl⟩ := Option.map_eq_some_iff.mp hw
  rw [String.toList_ofList] at hmark
  exact hcomment (prefix_dropTrailing (by decide) (hmark.trans (prefix_of_head_cut hline hcs)))

theorem quiet_words (h : ∀ line ∈ splitOn '\n' cs, cStyle.role line = .plain) :
    Quiet true ((cut marks cs).map String.ofList) := by
  induction cs using line_induction with
  | last line hline => exact quiet_words_line hline (h line (by simp [splitOn_of_not_mem hline]))
  | step line rest hline ih =>
    rw [splitOn_append_sep hline, List.forall_mem_cons] at h
    rw [cut_append line (by simp [isBreak, show isBlank '\n' = true by decide]), cut_newline,
      List.map_append, List.map_cons]
    exact (quiet_words_line hline h.1).append ⟨.of_not_mem (by decide), by decide, ih h.2⟩

/-! ### All lines are code -/

theorem exists_of_infix_spreadWords {part : List Char} (hne : part ≠ []) (hspace : ' ' ∉ part)
    (h : part <:+: cs ++ spreadWords ws) : part <:+: cs ∨ ∃ w ∈ ws, part <:+: w.toList := by
  induction ws generalizing cs with
  | nil => exact .inl (by simpa [spreadWords, spread] using h)
  | cons w ws ih =>
    have hcs : ∀ {as bs : List Char}, part <:+: as ++ ' ' :: bs → part <:+: as ∨
        part <:+: bs := fun hi => by
      refine (infix_of_infix_append (by simpa using hspace) hi).imp_right fun hi => ?_
      refine (List.infix_cons_iff.mp hi).resolve_left fun hp => ?_
      obtain ⟨d, more, rfl⟩ := List.exists_cons_of_ne_nil hne
      exact hspace ((List.cons_prefix_cons.mp hp).1 ▸ List.mem_cons_self)
    rcases hcs (by simpa [spreadWords_cons] using h) with h | h
    · exact .inl h
    · rcases ih h with h | ⟨v, hv, h⟩
      · exact .inr ⟨w, List.mem_cons_self, h⟩
      · exact .inr ⟨v, List.mem_cons_of_mem w hv, h⟩

theorem not_isLineBreak_of_mem (hw : Piece marks w.toList) (hne : w ≠ "\n") :
    ∀ c ∈ w.toList, isLineBreak c = false := by
  intro c hc
  have hblank := isBlank_of_mem hw hne hc
  cases hbreak : isLineBreak c with
  | false => rfl
  | true =>
    rw [Text.isBlank_of_isLineBreak hbreak] at hblank
    cases hblank

theorem newline_of_isLineBreak (hws : Pieces marks ws) :
    ∀ c ∈ (joinWords ws).toList, isLineBreak c = true → c = '\n' := by
  intro c hc hbreak
  rw [toList_joinWords] at hc
  rcases mem_join hc with hc | ⟨p, hp, hc⟩
  · rw [List.mem_singleton.mp hc] at hbreak
    cases hbreak
  · obtain ⟨v, hv, rfl⟩ := List.mem_map.mp hp
    by_cases hnewline : v = "\n"
    · simpa [hnewline] using hc
    · rw [not_isLineBreak_of_mem (hws v hv) hnewline c hc] at hbreak
      cases hbreak

theorem not_comment_of_first (blanks : List Char) (hblanks : ∀ c ∈ blanks, isBlank c = true)
    (hw : Piece marks w.toList) (hne : w ≠ "\n") (hmark : ¬ ['/', '/'] <+: w.toList)
    (hline : line <+: spreadWords ws) : ¬ ['/', '/'] <+: trim (blanks ++ (w.toList ++ line)) := by
  intro h
  have hdrop : (blanks ++ (w.toList ++ line)).dropWhile isBlank = w.toList ++ line := by
    obtain ⟨c, cs, hcs⟩ := List.exists_cons_of_ne_nil hw.ne_nil
    have hc : isBlank c = false := isBlank_of_mem hw hne (hcs ▸ List.mem_cons_self)
    rw [List.dropWhile_append_of_pos hblanks, hcs, List.cons_append,
      List.dropWhile_cons_of_neg (by simp [hc])]
  have hfirst := h.trans (dropTrailing_isPrefix isBlank _)
  rw [hdrop] at hfirst
  refine hmark ((Spot.prefix_append_spreadWords (by decide) w.toList ws).mp (hfirst.trans ?_))
  exact (List.prefix_append_right_inj _).mpr hline

theorem not_comment_lines (hws : Pieces marks ws) (h : Quiet start ws) :
    (∀ line ∈ (lines (spreadWords ws)).tail, ¬ ['/', '/'] <+: trim line) ∧
    (start = true → ∀ line ∈ (lines (spreadWords ws)).head?, ¬ ['/', '/'] <+: trim line) := by
  induction ws generalizing start with
  | nil => simp [spreadWords, spread, lines]
  | cons w ws ih =>
    obtain ⟨hw, hws⟩ := List.forall_mem_cons.mp hws
    obtain ⟨-, hfirst, hrest⟩ := h
    obtain ⟨htail, hhead⟩ := ih hws hrest
    by_cases hne : w = "\n"
    · -- the line ends here, and the next word starts a line
      have hlines : lines (spreadWords (w :: ws)) = [' '] :: lines (spreadWords ws) := by
        rw [hne, spreadWords_cons, List.cons_append, lines_cons (by decide)]
        exact congrArg (growFirst ' ') (lines_newline _)
      rw [hlines]
      refine ⟨fun line hline => ?_, fun _ line hline => ?_⟩
      · cases hcase : lines (spreadWords ws) with
        | nil => simp [hcase] at hline
        | cons first rest =>
          rw [hcase] at htail hhead hline
          rcases List.mem_cons.mp hline with rfl | hline
          · exact hhead (beq_iff_eq.mpr hne) _ rfl
          · exact htail line hline
      · obtain rfl := Option.some.inj hline
        decide
    · have hbreak : ∀ c ∈ ' ' :: w.toList, isLineBreak c = false :=
        List.forall_mem_cons.mpr ⟨by decide, not_isLineBreak_of_mem hw hne⟩
      rw [spreadWords_cons, lines_append hbreak (by simp)]
      refine ⟨htail, fun hs line hline => ?_⟩
      obtain rfl := Option.some.inj hline
      exact not_comment_of_first [' '] (by decide) hw hne (hfirst hs) (head_lines_isPrefix _)

theorem role_of_mem_lines (hne : w ≠ "\n") (hws : Pieces marks (w :: ws))
    (h : Quiet true (w :: ws)) :
    ∀ line ∈ lines (joinWords (w :: ws)).toList, cStyle.role line = .plain := by
  intro line hline
  obtain ⟨hw, hws⟩ := List.forall_mem_cons.mp hws
  rw [toList_joinWords_cons] at hline
  have hpart :
      ∀ part : List Char, part ≠ [] → ' ' ∉ part → (∀ v ∈ w :: ws, ¬ part <:+: v.toList) →
        ¬ part <:+: line := by
    intro part hne hspace hwords hi
    rcases exists_of_infix_spreadWords hne hspace (hi.trans (infix_of_mem_lines hline)) with
      hi | ⟨v, hv, hi⟩
    · exact hwords w List.mem_cons_self hi
    · exact hwords v (List.mem_cons_of_mem w hv) hi
  refine role_eq_plain.mpr ⟨⟨hpart _ (by simp) (by decide) fun v hv => (h.blockFree hv).start,
    hpart _ (by simp) (by decide) fun v hv => (h.blockFree hv).stop⟩, ?_⟩
  rw [lines_append (not_isLineBreak_of_mem hw hne) hw.ne_nil] at hline
  rcases List.mem_cons.mp hline with rfl | hline
  · exact not_comment_of_first [] (by simp) hw hne (h.2.1 rfl) (head_lines_isPrefix _)
  · exact (not_comment_lines hws h.2.2).1 line hline

theorem codeLinesFrom_of_plain {ls : List (List Char)} (m : CommentMarks)
    (h : ∀ line ∈ ls, m.role line = .plain) : m.codeLinesFrom false ls = ls := by
  induction ls with
  | nil => rfl
  | cons line ls ih =>
    obtain ⟨hline, hls⟩ := List.forall_mem_cons.mp h
    simp [codeLinesFrom, hline, ih hls]

/-! ### The words of the code -/

theorem spreadWords_concat (ws : List String) (w : String) :
    spreadWords (ws ++ [w]) = spreadWords ws ++ ' ' :: w.toList := by
  simp [spreadWords, spread]

theorem exists_chop_spreadWords (hw : Piece marks w.toList) (hne : w ≠ "\n")
    (hws : Pieces marks ws) : ∃ blanks, (blanks = [] ∨ blanks = [' ']) ∧
      chop '\n' (w.toList ++ spreadWords ws) =
        w.toList ++ (spreadWords (chop "\n" ws) ++ blanks) := by
  have hlast :
      ∀ {v : String}, Piece marks v.toList → v ≠ "\n" →
        ∀ cs : List Char, (cs ++ v.toList).getLast? ≠ some '\n' := by
    intro v hv hne cs hlast
    rw [List.getLast?_append_of_ne_nil _ hv.ne_nil] at hlast
    exact absurd (isBlank_of_mem hv hne (List.mem_of_getLast? hlast)) (by decide)
  -- by the last word, which is a newline or ends with something else
  rcases List.eq_nil_or_concat ws with rfl | ⟨us, v, rfl⟩
  · refine ⟨[], .inl rfl, ?_⟩
    rw [chop_of_ne (by simpa [spreadWords, spread] using hlast hw hne [])]
    rfl
  · rw [List.concat_eq_append] at hws ⊢
    by_cases hv : v = "\n"
    · refine ⟨[' '], .inr rfl, ?_⟩
      have htext : w.toList ++ spreadWords (us ++ [v]) =
          (w.toList ++ (spreadWords us ++ [' '])) ++ ['\n'] := by
        rw [spreadWords_concat, hv]
        simp
      rw [htext, chop_concat, hv, chop_concat]
    · refine ⟨[], .inl rfl, ?_⟩
      have hpiece := hws v (by simp)
      have htext : w.toList ++ spreadWords (us ++ [v]) =
          (w.toList ++ (spreadWords us ++ [' '])) ++ v.toList := by
        rw [spreadWords_concat]
        simp
      rw [htext, chop_of_ne (hlast hpiece hv _), chop_of_ne (by simpa using hv), ← htext,
        List.append_nil]

theorem exists_strip_eq (hne : w ≠ "\n") (hws : Pieces marks (w :: ws)) (h : Quiet true (w :: ws)) :
    ∃ blanks, (blanks = [] ∨ blanks = [' ']) ∧
      (cStyle.strip (w :: ws)).toList = w.toList ++ (spreadWords (chop "\n" ws) ++ blanks) := by
  obtain ⟨hw, hws'⟩ := List.forall_mem_cons.mp hws
  have hbreaks := newline_of_isLineBreak hws
  rw [toList_joinWords_cons] at hbreaks
  obtain ⟨blanks, hblanks, hchop⟩ := exists_chop_spreadWords hw hne hws'
  refine ⟨blanks, hblanks, ?_⟩
  rw [strip, String.toList_ofList, codeLines,
    codeLinesFrom_of_plain _ (role_of_mem_lines hne hws h), toList_joinWords_cons,
    join_lines hbreaks, hchop]

theorem pieces_chop (hws : Pieces marks ws) : Pieces marks (chop "\n" ws) := by
  intro w hw
  rw [chop] at hw
  split at hw
  · exact hws w (List.dropLast_subset ws hw)
  · exact hws w hw

theorem cut_blanks (h : blanks = [] ∨ blanks = [' ']) : cut marks blanks = [] := by
  rcases h with rfl | rfl
  · rfl
  · rw [cut_blank marks (by decide) (by decide)]
    rfl

theorem head?_spreadWords_append (ws : List String) (h : blanks = [] ∨ blanks = [' ']) :
    ∀ d ∈ (spreadWords ws ++ blanks).head?, ' ' = d := by
  cases ws with
  | nil => rcases h with rfl | rfl <;> simp [spreadWords, spread]
  | cons w ws => simp [spreadWords_cons]

theorem words_strip (hne : w ≠ "\n") (hws : Pieces plainMarks (w :: ws))
    (h : Quiet true (w :: ws)) : plain.words (cStyle.strip (w :: ws)) = w :: chop "\n" ws := by
  obtain ⟨blanks, hblanks, hstrip⟩ := exists_strip_eq hne hws h
  obtain ⟨hw, hws⟩ := List.forall_mem_cons.mp hws
  have hbreak : ∀ d ∈ blanks.head?, isBreak plainMarks d = true := fun d hd =>
    head?_spreadWords_append [] hblanks d hd ▸ rfl
  have hpieces : ∀ cs ∈ (chop "\n" ws).map String.toList, Piece plainMarks cs := by
    exact List.forall_mem_map.mpr (pieces_chop hws)
  rw [words_plain, hstrip, hw.cut_append ?_, spreadWords, cut_spread_append hpieces hbreak,
    cut_blanks hblanks, List.append_nil, List.map_cons, String.ofList_toList, List.map_map]
  · simp [Function.comp_def]
  · exact fun d hd => head?_spreadWords_append (chop "\n" ws) hblanks d hd ▸ rfl

end CommentMarks

namespace Entities

/-- The words without pairs of braces that have nothing between them. -/
def dropPairs : List String → List String
  | [] => []
  | [w] => [w]
  | w :: v :: ws => if w = "\x7b" ∧ v = "\x7d" then dropPairs ws else w :: dropPairs (v :: ws)

open CommentMarks

variable {ws : List String} {w : String} {blanks : List Char}

def withoutPairs (cs : List Char) : List Char := replace ['\x7b', ' ', '\x7d'] [] cs

theorem withoutPairs_append (as : List Char) (has : '\x7b' ∉ as) (cs : List Char) :
    withoutPairs (as ++ cs) = as ++ withoutPairs cs := by
  induction as with
  | nil => rfl
  | cons a as ih =>
    obtain ⟨ha, has⟩ := not_or.mp (mt List.mem_cons.mpr has)
    rw [List.cons_append, withoutPairs,
      replace_cons_of_not_start (by simp) fun hp => ha (List.cons_prefix_cons.mp hp).1]
    exact congrArg (a :: ·) (ih has)

theorem withoutPairs_brace {cs : List Char} (h : ¬ [' ', '\x7d'] <+: cs) :
    withoutPairs ('\x7b' :: cs) = '\x7b' :: withoutPairs cs :=
  replace_cons_of_not_start (by simp) fun hp => h (List.cons_prefix_cons.mp hp).2

theorem brace_not_mem_of_ne (hw : Piece plainMarks w.toList) (hne : w ≠ "\x7b") :
    '\x7b' ∉ w.toList := fun hmem =>
  hne (String.toList_inj.mp ((hw.alone '\x7b' hmem (by decide)).trans rfl))

theorem not_prefix_spreadWords (hws : Pieces plainMarks ws) (hblanks : blanks = [] ∨ blanks = [' '])
    (hne : ws.head? ≠ some "\x7d") : ¬ [' ', '\x7d'] <+: spreadWords ws ++ blanks := by
  intro hp
  cases ws with
  | nil => rcases hblanks with rfl | rfl <;> revert hp <;> decide
  | cons v ws =>
    obtain ⟨hv, -⟩ := List.forall_mem_cons.mp hws
    obtain ⟨c, cs, hcs⟩ := List.exists_cons_of_ne_nil hv.ne_nil
    rw [spreadWords_cons, hcs] at hp
    obtain ⟨rfl, -⟩ := List.cons_prefix_cons.mp (List.cons_prefix_cons.mp hp).2
    exact hne (congrArg some
      (String.toList_inj.mp ((hv.alone '\x7d' (hcs ▸ List.mem_cons_self) (by decide)).trans rfl)))

theorem withoutPairs_cons (w : String) (ws : List String) (blanks : List Char) :
    withoutPairs (spreadWords (w :: ws) ++ blanks) =
      ' ' :: withoutPairs (w.toList ++ (spreadWords ws ++ blanks)) := by
  have hspace := withoutPairs_append [' '] (by decide) (w.toList ++ (spreadWords ws ++ blanks))
  simpa [spreadWords_cons] using hspace

theorem withoutPairs_blanks (h : blanks = [] ∨ blanks = [' ']) : withoutPairs blanks = blanks := by
  rcases h with rfl | rfl <;> decide

theorem head?_withoutPairs (ws : List String) (hblanks : blanks = [] ∨ blanks = [' ']) :
    ∀ d ∈ (withoutPairs (spreadWords ws ++ blanks)).head?, isBreak plainMarks d = true := by
  intro d hd
  cases ws with
  | nil =>
    rw [show spreadWords [] = [] from rfl, List.nil_append, withoutPairs_blanks hblanks] at hd
    rcases hblanks with rfl | rfl
    · cases hd
    · obtain rfl := Option.some.inj hd
      decide
  | cons w ws =>
    rw [withoutPairs_cons] at hd
    obtain rfl := Option.some.inj hd
    decide

theorem cut_withoutPairs_cons (hw : Piece plainMarks w.toList) (hws : Pieces plainMarks ws)
    (hblanks : blanks = [] ∨ blanks = [' ']) (h : ¬ (w = "\x7b" ∧ ws.head? = some "\x7d")) :
    cut plainMarks (withoutPairs (spreadWords (w :: ws) ++ blanks)) =
      w.toList :: cut plainMarks (withoutPairs (spreadWords ws ++ blanks)) := by
  have hword : withoutPairs (w.toList ++ (spreadWords ws ++ blanks)) =
      w.toList ++ withoutPairs (spreadWords ws ++ blanks) := by
    by_cases hbrace : w = "\x7b"
    · subst hbrace
      exact withoutPairs_brace (not_prefix_spreadWords hws hblanks fun hhead => h ⟨rfl, hhead⟩)
    · exact withoutPairs_append _ (brace_not_mem_of_ne hw hbrace) _
  rw [withoutPairs_cons, hword, cut_blank _ (by decide) (by decide),
    hw.cut_append (head?_withoutPairs ws hblanks)]

theorem cut_withoutPairs_pair (ws : List String) (blanks : List Char) :
    cut plainMarks (withoutPairs (spreadWords ("\x7b" :: "\x7d" :: ws) ++ blanks)) =
      cut plainMarks (withoutPairs (spreadWords ws ++ blanks)) := by
  have hpair : withoutPairs ("\x7b".toList ++ (spreadWords ("\x7d" :: ws) ++ blanks)) =
      withoutPairs (spreadWords ws ++ blanks) := by
    have hreplace : withoutPairs (['\x7b', ' ', '\x7d'] ++ (spreadWords ws ++ blanks)) =
        [] ++ withoutPairs (spreadWords ws ++ blanks) := replace_append (by simp) [] _
    exact hreplace
  rw [withoutPairs_cons, hpair, cut_blank _ (by decide) (by decide)]

theorem cut_withoutPairs (hws : Pieces plainMarks ws) (hblanks : blanks = [] ∨ blanks = [' ']) :
    cut plainMarks (withoutPairs (spreadWords ws ++ blanks)) =
      (dropPairs ws).map String.toList := by
  have hnil : cut plainMarks (withoutPairs (spreadWords [] ++ blanks)) = [] := by
    rw [show spreadWords [] = [] from rfl, List.nil_append, withoutPairs_blanks hblanks,
      cut_blanks hblanks]
  fun_induction dropPairs ws with
  | case1 => exact hnil
  | case2 w =>
    rw [cut_withoutPairs_cons (hws w (by simp)) (by simp [Pieces]) hblanks (by simp), hnil]; rfl
  | case3 w v ws hpair ih =>
    obtain ⟨rfl, rfl⟩ := hpair
    rw [cut_withoutPairs_pair, ih fun u hu =>
      hws u (List.mem_cons_of_mem _ (List.mem_cons_of_mem _ hu))]
  | case4 w v ws hpair ih =>
    obtain ⟨hw, hws⟩ := List.forall_mem_cons.mp hws
    rw [cut_withoutPairs_cons hw hws hblanks (by simpa using hpair), ih hws, List.map_cons]

theorem replace_braces (hw : Piece plainMarks w.toList) (hws : Pieces plainMarks ws)
    (hblanks : blanks = [] ∨ blanks = [' ']) :
    replace ['\x7b', '\x7d'] [] (w.toList ++ (spreadWords ws ++ blanks)) =
      w.toList ++ (spreadWords ws ++ blanks) := by
  have hword : ∀ v : String, Piece plainMarks v.toList → ¬ ['\x7b', '\x7d'] <:+: v.toList := by
    intro v hv hi
    have halone := hv.alone '\x7b' (hi.subset (by simp)) (by decide)
    rw [halone] at hi
    exact absurd hi.length_le (by simp)
  refine replace_of_not_infix fun hi => ?_
  have hhead : ∀ c ∈ blanks.head?, c ∉ ['\x7b', '\x7d'] := fun c hc => by
    rw [← head?_spreadWords_append [] hblanks c hc]
    decide
  rw [← List.append_assoc] at hi
  rcases infix_of_infix_append hhead hi with hi | hi
  · rcases exists_of_infix_spreadWords (by simp) (by decide) hi with hi | ⟨v, hv, hi⟩
    · exact hword w hw hi
    · exact hword v (hws v hv) hi
  · rcases hblanks with rfl | rfl
    · exact absurd hi.length_le (by simp)
    · exact absurd hi.length_le (by simp)

/-- Where no word has part in a comment, the words in which classes are looked for are those without
pairs of braces, up to a newline at the end. -/
theorem scopeWords_cons (hline : w ≠ "\n") (hbrace : w ≠ "\x7b") (hws : Pieces plainMarks (w :: ws))
    (h : Quiet true (w :: ws)) : scopeWords (w :: ws) = w :: dropPairs (chop "\n" ws) := by
  obtain ⟨blanks, hblanks, hstrip⟩ := exists_strip_eq hline hws h
  obtain ⟨hw, hws⟩ := List.forall_mem_cons.mp hws
  have hws := pieces_chop hws
  have htext : (Text.replace (Text.replace (CommentMarks.cStyle.strip (w :: ws)) "\x7b\x7d" "")
      "\x7b \x7d" "").toList = w.toList ++ withoutPairs (spreadWords (chop "\n" ws) ++ blanks) := by
    have hreplace : ∀ s old new : String, (Text.replace s old new).toList =
        replace old.toList new.toList s.toList :=
      fun _ _ _ => String.toList_ofList
    rw [hreplace, hreplace, hstrip]
    refine (congrArg withoutPairs (replace_braces hw hws hblanks)).trans ?_
    exact withoutPairs_append _ (brace_not_mem_of_ne hw hbrace) _
  have hcut : cut plainMarks (w.toList ++ withoutPairs (spreadWords (chop "\n" ws) ++ blanks)) =
      (w :: dropPairs (chop "\n" ws)).map String.toList := by
    rw [hw.cut_append (head?_withoutPairs _ hblanks), cut_withoutPairs hws hblanks, List.map_cons]
  simp only [scopeWords]
  rw [words_plain, htext, hcut, List.map_map]
  simp [Function.comp_def]

end Entities

end CodeAtlas
