import CodeAtlas.Proofs.Lines

/-!
# Cutting a text into words

Marks are made to stand alone by replacements, one after the other; `Chars.cut` does it in one pass
(`Spacing.words_ofMarks`). What it yields are pieces: newlines, marks, and runs of other characters
(`Chars.piece_of_mem_cut`). A text can be cut on both sides of a blank or of a mark separately
(`Chars.cut_append`), and pieces that are put together with blanks are found again
(`Chars.cut_spread_append`).
-/

namespace CodeAtlas.Chars

open Text (isBlank)

variable {marks marks' : List Char} {c : Char} {cs ds w : List Char} {ws : List (List Char)}
  {part : List Char}

/-- What is said of the characters of a text is decided along the text, and not over all
characters. -/
instance (priority := high) decidableForallMem {p : Char → Prop} [DecidablePred p]
    (cs : List Char) : Decidable (∀ c ∈ cs, p c) := List.decidableBAll p cs

/-! ### One pass -/

/-- A character with blanks around it if it is a mark. -/
def padded (marks : List Char) (c : Char) : List Char := if c ∈ marks then [' ', c, ' '] else [c]

def isBreak (marks : List Char) (c : Char) : Bool := isBlank c || marks.contains c

/-- Newlines, marks, and the longest runs of characters that are neither blank nor marks. -/
def cut (marks : List Char) : List Char → List (List Char)
  | [] => []
  | c :: cs =>
    if c == '\n' then ['\n'] :: cut marks cs
    else if isBlank c then cut marks cs
    else if marks.contains c then [c] :: cut marks cs
    else
      match cs with
      | [] => [[c]]
      | d :: _ => if isBreak marks d then [c] :: cut marks cs else growFirst c (cut marks cs)

theorem replace_singleton (c : Char) (new cs : List Char) :
    replace [c] new cs = cs.flatMap fun d => if d = c then new else [d] := by
  induction cs with
  | nil => rfl
  | cons d cs ih =>
    by_cases hd : d = c
    · rw [hd, show c :: cs = [c] ++ cs from rfl, replace_append (by simp), ih]
      simp
    · rw [replace_cons_of_not_start (by simp) (by simpa using Ne.symm hd), ih]
      simp [hd]

theorem apply_ofMarks (hnodup : marks.Nodup) (hspace : ' ' ∉ marks) (cs : List Char) :
    (Spacing.ofMarks marks).apply cs = cs.flatMap (padded marks) := by
  -- the marks in `done` have their blanks already, and none of them comes again
  have hrest : ∀ done : List Char, (∀ m ∈ marks, m ∉ done) →
      (Spacing.ofMarks marks).apply (cs.flatMap (padded done)) =
        cs.flatMap (padded (done ++ marks)) := by
    induction marks with
    | nil =>
      intro done _
      rw [List.append_nil]
      rfl
    | cons m marks ih =>
      intro done hdone
      obtain ⟨hm, hmarks⟩ := List.forall_mem_cons.mp hdone
      obtain ⟨hfresh, hnodup⟩ := List.nodup_cons.mp hnodup
      obtain ⟨hspace, hspaces⟩ : ' ' ≠ m ∧ ' ' ∉ marks := by simpa using hspace
      have hstep : (cs.flatMap (padded done)).flatMap
          (fun d => if d = m then [' ', m, ' '] else [d]) =
          cs.flatMap (padded (done ++ [m])) := by
        rw [List.flatMap_assoc]
        congr 1
        funext c
        by_cases hc : c ∈ done
        · have hne : c ≠ m := fun h => hm (h ▸ hc)
          simp [padded, hc, hne, hspace]
        · by_cases hcm : c = m <;> simp [padded, hc, hcm, hm]
      have happly : (Spacing.ofMarks (m :: marks)).apply (cs.flatMap (padded done)) =
          (Spacing.ofMarks marks).apply (replace [m] [' ', m, ' '] (cs.flatMap (padded done))) := by
        simp [Spacing.ofMarks, Spacing.apply]
      rw [happly, replace_singleton, hstep, ih hnodup hspaces, List.append_assoc,
        List.singleton_append]
      intro x hx
      have hne : x ≠ m := fun h => hfresh (h ▸ hx)
      simp [hmarks x hx, hne]
  have hnone : cs.flatMap (padded []) = cs := List.flatMap_singleton' cs
  have hall := hrest [] fun m _ => List.not_mem_nil
  rwa [hnone] at hall

/-! ### Cutting step by step -/

theorem ne_newline_of_not_blank (h : isBlank c = false) : c ≠ '\n' := by
  rintro rfl
  cases h

theorem cut_newline (marks cs : List Char) : cut marks ('\n' :: cs) = ['\n'] :: cut marks cs := by
  rw [cut.eq_def]
  rfl

theorem cut_blank (marks : List Char) (hne : c ≠ '\n') (hc : isBlank c = true) (cs : List Char) :
    cut marks (c :: cs) = cut marks cs := by
  rw [cut.eq_def]
  simp [hne, hc]

theorem cut_mark (hc : isBlank c = false) (hmark : c ∈ marks) (cs : List Char) :
    cut marks (c :: cs) = [c] :: cut marks cs := by
  have hne := ne_newline_of_not_blank hc
  rw [cut.eq_def]
  simp [hne, hc, hmark]

theorem cut_last (hc : isBreak marks c = false) (hcs : ∀ d ∈ cs.head?, isBreak marks d = true) :
    cut marks (c :: cs) = [c] :: cut marks cs := by
  obtain ⟨hblank, hmark⟩ : isBlank c = false ∧ c ∉ marks := by simpa [isBreak] using hc
  have hne := ne_newline_of_not_blank hblank
  rw [cut.eq_def]
  cases cs with
  | nil => simp [hne, hblank, hmark, cut]
  | cons d cs => simp [hne, hblank, hmark, hcs d rfl]

theorem cut_run {d : Char} (hc : isBreak marks c = false) (hd : isBreak marks d = false)
    (cs : List Char) : cut marks (c :: d :: cs) = growFirst c (cut marks (d :: cs)) := by
  obtain ⟨hblank, hmark⟩ : isBlank c = false ∧ c ∉ marks := by simpa [isBreak] using hc
  have hne := ne_newline_of_not_blank hblank
  rw [cut.eq_def]
  simp [hne, hblank, hmark, hd]

theorem runs_flatMap_padded (hink : ∀ m ∈ marks, isBlank m = false) (cs : List Char) :
    runs (cs.flatMap (padded marks)) = cut marks cs := by
  have hspace : isBlank ' ' = true := by decide
  -- along the text; whether a run goes on depends on the next character too
  induction cs with
  | nil => rfl
  | cons c cs ih =>
    by_cases hc : c ∈ marks
    · have hblank := hink c hc
      have hne := ne_newline_of_not_blank hblank
      rw [cut_mark hblank hc, ← ih]
      simp [padded, hc, runs, hblank, hne, hspace]
    · rw [List.flatMap_cons, padded, if_neg hc, List.singleton_append]
      cases hblank : isBlank c with
      | true =>
        by_cases hne : c = '\n'
        · rw [hne, cut_newline, ← ih]
          rfl
        · rw [cut_blank marks hne hblank, ← ih, runs.eq_def]
          simp [hne, hblank]
      | false =>
        have hne := ne_newline_of_not_blank hblank
        have hword : isBreak marks c = false := by simp [isBreak, hblank, hc]
        cases cs with
        | nil =>
          rw [cut_last hword (by simp)]
          simp [runs, hblank, hne, cut]
        | cons d cs =>
          by_cases hd : d ∈ marks
          · rw [cut_last hword (by simp [isBreak, hd]), ← ih]
            simp [padded, hd, runs, hblank, hne, hspace]
          · cases hdblank : isBlank d with
            | true =>
              rw [cut_last hword (by simp [isBreak, hdblank]), ← ih, List.flatMap_cons, padded,
                if_neg hd, List.singleton_append, runs.eq_def]
              simp [hblank, hne, hdblank]
            | false =>
              rw [cut_run hword (by simp [isBreak, hd, hdblank]), ← ih, List.flatMap_cons, padded,
                if_neg hd, List.singleton_append, runs.eq_def]
              simp [hblank, hne, hdblank]

/-! ### Pieces -/

/-- A word of a text in which marks stand alone. -/
structure Piece (marks w : List Char) : Prop where
  ne_nil : w ≠ []
  ink : w = ['\n'] ∨ ∀ c ∈ w, isBlank c = false
  alone : ∀ c ∈ w, c ∈ marks → w = [c]

theorem Piece.mono (h : Piece marks' w) (hsub : marks ⊆ marks') : Piece marks w :=
  ⟨h.ne_nil, h.ink, fun c hc hmark => h.alone c hc (hsub hmark)⟩

theorem Piece.of_run (hne : w ≠ []) (h : ∀ c ∈ w, isBreak marks c = false) : Piece marks w where
  ne_nil := hne
  ink := .inr fun c hc => by simpa using (Bool.or_eq_false_iff.mp (h c hc)).1
  alone := fun c hc hmark => by
    have hword := h c hc
    simp [isBreak, hmark] at hword

theorem isBreak_eq_false (hblank : ¬ isBlank c = true) (hmark : ¬ marks.contains c = true) :
    isBreak marks c = false := by
  rw [isBreak, Bool.or_eq_false_iff]
  exact ⟨by simpa using hblank, by simpa using hmark⟩

theorem exists_cut_cons (marks : List Char) (hc : isBlank c = false) (cs : List Char) :
    ∃ w ws, cut marks (c :: cs) = (c :: w) :: ws ∧ w <+: cs := by
  induction cs generalizing c with
  | nil =>
    by_cases hmark : c ∈ marks
    · exact ⟨[], _, cut_mark hc hmark [], List.nil_prefix⟩
    · exact ⟨[], _, cut_last (by simp [isBreak, hc, hmark]) (by simp), List.nil_prefix⟩
  | cons d cs ih =>
    by_cases hmark : c ∈ marks
    · exact ⟨[], _, cut_mark hc hmark _, List.nil_prefix⟩
    have hword : isBreak marks c = false := by simp [isBreak, hc, hmark]
    cases hd : isBreak marks d with
    | true => exact ⟨[], _, cut_last hword (by simpa using hd), List.nil_prefix⟩
    | false =>
      obtain ⟨w, ws, hcut, hprefix⟩ := ih (Bool.or_eq_false_iff.mp hd).1
      exact ⟨d :: w, ws, by rw [cut_run hword hd, hcut,
        growFirst], (List.prefix_cons_inj d).mpr hprefix⟩

theorem piece_of_mem_cut (h : w ∈ cut marks cs) : Piece marks w := by
  fun_induction cut marks cs generalizing w with
  | case1 => cases h
  | case2 c cs hnewline ih =>
    rcases List.mem_cons.mp h with rfl | h
    · refine ⟨by simp, .inl rfl, fun c hc _ => ?_⟩
      rw [List.mem_singleton.mp hc]
    · exact ih h
  | case3 c cs _ _ ih => exact ih h
  | case4 c cs _ hblank _ ih =>
    rcases List.mem_cons.mp h with rfl | h
    · exact ⟨by simp, .inr (by simpa using hblank), fun d hd _ => by rw [List.mem_singleton.mp hd]⟩
    · exact ih h
  | case5 c _ hblank hmark =>
    obtain rfl := List.mem_singleton.mp h
    exact .of_run (by simp) (by simpa using isBreak_eq_false hblank hmark)
  | case6 c _ hblank hmark d cs _ ih =>
    rcases List.mem_cons.mp h with rfl | h
    · exact .of_run (by simp) (by simpa using isBreak_eq_false hblank hmark)
    · exact ih h
  | case7 c _ hblank hmark d cs hbreak ih =>
    obtain ⟨hd, hdmark⟩ : isBlank d = false ∧ d ∉ marks := by simpa [isBreak] using hbreak
    obtain ⟨w', ws, hcut, -⟩ := exists_cut_cons marks hd cs
    rw [hcut] at h ih
    rcases List.mem_cons.mp h with rfl | h
    · -- the run goes on, since its next character is neither blank nor a mark
      have hpiece := ih List.mem_cons_self
      have hink : ∀ x ∈ d :: w', isBlank x = false := by
        refine hpiece.ink.resolve_left fun heq => ?_
        rw [(List.cons.inj heq).1] at hd
        cases hd
      refine .of_run (by simp)
        (List.forall_mem_cons.mpr ⟨isBreak_eq_false hblank hmark, fun x hx => ?_⟩)
      have hxmark : x ∉ marks :=
        fun hxmark => hdmark ((List.cons.inj (hpiece.alone x hx hxmark)).1 ▸ hxmark)
      simp [isBreak, hink x hx, hxmark]
    · exact ih (List.mem_cons_of_mem _ h)

/-- A text may be cut in two before a blank or a mark. -/
theorem cut_append (cs : List Char) (hds : ∀ d ∈ ds.head?, isBreak marks d = true) :
    cut marks (cs ++ ds) = cut marks cs ++ cut marks ds := by
  fun_induction cut marks cs with
  | case1 => rfl
  | case2 c cs hnewline ih =>
    obtain rfl : c = '\n' := by simpa using hnewline
    rw [List.cons_append, cut_newline, ih, List.cons_append]
  | case3 c cs hnewline hblank ih =>
    rw [List.cons_append, cut_blank marks (by simpa using hnewline) hblank, ih]
  | case4 c cs _ hblank hmark ih =>
    rw [List.cons_append, cut_mark (by simpa using hblank) (by simpa using hmark), ih,
      List.cons_append]
  | case5 c _ hblank hmark =>
    exact cut_last (isBreak_eq_false hblank hmark) hds
  | case6 c _ hblank hmark d cs hbreak ih =>
    rw [List.cons_append, cut_last (isBreak_eq_false hblank hmark) (by simpa using hbreak), ih,
      List.cons_append]
  | case7 c _ hblank hmark d cs hbreak ih =>
    obtain ⟨hd, -⟩ : isBlank d = false ∧ d ∉ marks := by simpa [isBreak] using hbreak
    obtain ⟨w', ws, hcut, -⟩ := exists_cut_cons marks hd cs
    rw [List.cons_append, List.cons_append,
      cut_run (isBreak_eq_false hblank hmark) (by simpa using hbreak), ← List.cons_append, ih, hcut]
    rfl

theorem Piece.cut_eq (h : Piece marks w) : cut marks w = [w] := by
  rcases h.ink with rfl | hink
  · rw [cut_newline]
    rfl
  by_cases hmark : ∃ c ∈ w, c ∈ marks
  · obtain ⟨c, hc, hcmark⟩ := hmark
    rw [h.alone c hc hcmark, cut_mark (hink c hc) hcmark]
    rfl
  · -- a run of characters that are no breaks, by induction on the run
    have hrun : ∀ c ∈ w, isBreak marks c = false := fun c hc => by
      simp only [isBreak, hink c hc, Bool.false_or, List.contains_eq_mem, decide_eq_false_iff_not]
      exact fun hcmark => hmark ⟨c, hc, hcmark⟩
    have hne := h.ne_nil
    clear h hink hmark
    induction w with
    | nil => contradiction
    | cons c w ih =>
      obtain ⟨hc, hw⟩ := List.forall_mem_cons.mp hrun
      cases w with
      | nil => exact cut_last hc (by simp)
      | cons d w => rw [cut_run hc (hw d List.mem_cons_self), ih hw (by simp), growFirst]

theorem Piece.cut_append (h : Piece marks w) (hds : ∀ d ∈ ds.head?, isBreak marks d = true) :
    cut marks (w ++ ds) = w :: cut marks ds := by
  rw [Chars.cut_append w hds, h.cut_eq, List.singleton_append]

theorem infix_of_mem_cut (h : w ∈ cut marks cs) : w <:+: cs := by
  fun_induction cut marks cs generalizing w with
  | case1 => cases h
  | case2 c cs hnewline ih =>
    obtain rfl : c = '\n' := by simpa using hnewline
    rcases List.mem_cons.mp h with rfl | h
    · exact (List.prefix_append ['\n'] cs).isInfix
    · exact List.infix_cons (ih h)
  | case3 c cs _ _ ih => exact List.infix_cons (ih h)
  | case4 c cs _ _ _ ih =>
    rcases List.mem_cons.mp h with rfl | h
    · exact (List.prefix_append [c] cs).isInfix
    · exact List.infix_cons (ih h)
  | case5 c => exact List.mem_singleton.mp h ▸ List.infix_rfl
  | case6 c _ _ _ d cs _ ih =>
    rcases List.mem_cons.mp h with rfl | h
    · exact (List.prefix_append [c] (d :: cs)).isInfix
    · exact List.infix_cons (ih h)
  | case7 c _ _ _ d cs hbreak ih =>
    obtain ⟨hd, -⟩ : isBlank d = false ∧ d ∉ marks := by simpa [isBreak] using hbreak
    obtain ⟨w', ws, hcut, hprefix⟩ := exists_cut_cons marks hd cs
    rw [hcut] at h ih
    rcases List.mem_cons.mp h with rfl | h
    · exact ((List.prefix_cons_inj c).mpr ((List.prefix_cons_inj d).mpr hprefix)).isInfix
    · exact List.infix_cons (ih (List.mem_cons_of_mem _ h))

theorem cut_blank_append (h : ∀ c ∈ cs, isBlank c = true) (ds : List Char) :
    cut marks (cs ++ ds) = List.replicate (cs.count '\n') ['\n'] ++ cut marks ds := by
  induction cs with
  | nil => rfl
  | cons c cs ih =>
    obtain ⟨hc, hcs⟩ := List.forall_mem_cons.mp h
    by_cases hne : c = '\n'
    · rw [hne, List.cons_append, cut_newline, ih hcs, List.count_cons_self, List.replicate_succ,
        List.cons_append]
    · rw [List.cons_append, cut_blank marks hne hc, ih hcs, List.count_cons_of_ne hne]

theorem isBreak_of_mem_head?_append (hcs : ∀ c ∈ cs, isBlank c = true)
    (hds : cs = [] → ∀ d ∈ ds.head?, isBreak marks d = true) :
    ∀ d ∈ (cs ++ ds).head?, isBreak marks d = true := by
  intro d hd
  cases cs with
  | nil => exact hds rfl d hd
  | cons c cs =>
    obtain rfl := Option.some.inj hd
    simp [isBreak, hcs c List.mem_cons_self]

/-! ### Parts of a text -/

/-- A part that cannot go on into the rest comes before it. -/
theorem prefix_of_prefix_append (hds : ∀ d ∈ ds.head?, d ∉ part) (h : part <+: cs ++ ds) :
    part <+: cs := by
  rcases List.prefix_or_prefix_of_prefix h (List.prefix_append cs ds) with hcs | ⟨more, rfl⟩
  · exact hcs
  · cases more with
    | nil => simp
    | cons d more =>
      obtain ⟨rest, hrest⟩ := (List.prefix_append_right_inj cs).mp h
      exact absurd (List.mem_append_right cs List.mem_cons_self) (hds d (by rw [← hrest]; rfl))

theorem infix_of_infix_append (hds : ∀ d ∈ ds.head?, d ∉ part) (h : part <:+: cs ++ ds) :
    part <:+: cs ∨ part <:+: ds := by
  induction cs with
  | nil => exact .inr h
  | cons c cs ih =>
    rcases List.infix_cons_iff.mp h with h | h
    · exact .inl (prefix_of_prefix_append hds h).isInfix
    · exact (ih h).imp_left List.infix_cons

/-! ### Pieces put together -/

def spread (ws : List (List Char)) : List Char := ws.flatMap (' ' :: ·)

theorem spread_cons (w : List Char) (ws : List (List Char)) :
    spread (w :: ws) = ' ' :: w ++ spread ws := rfl

theorem join_eq_spread (w : List Char) (ws : List (List Char)) :
    join [' '] (w :: ws) = w ++ spread ws := by
  induction ws generalizing w with
  | nil => simp [join, spread]
  | cons v ws ih => rw [join_cons _ _ (by simp), ih, spread_cons]; simp

theorem cut_spread_append (h : ∀ w ∈ ws, Piece marks w)
    (hds : ∀ d ∈ ds.head?, isBreak marks d = true) :
    cut marks (spread ws ++ ds) = ws ++ cut marks ds := by
  induction ws with
  | nil => rfl
  | cons w ws ih =>
    obtain ⟨hw, hws⟩ := List.forall_mem_cons.mp h
    have hbreak : ∀ d ∈ (spread ws ++ ds).head?, isBreak marks d = true := by
      cases ws with
      | nil => exact hds
      | cons v ws => simp [spread_cons, isBreak, show isBlank ' ' = true by decide]
    rw [spread_cons, List.append_assoc, List.cons_append, cut_blank marks (by decide) (by decide),
      hw.cut_append hbreak, ih hws, List.cons_append]

end CodeAtlas.Chars

namespace CodeAtlas.Spacing

open Chars
open Text (isBlank)

variable {marks : List Char} {w : String}

theorem words_ofMarks (hnodup : marks.Nodup) (hink : ∀ m ∈ marks, isBlank m = false)
    (text : String) : (ofMarks marks).words text = (cut marks text.toList).map String.ofList := by
  have hspace : ' ' ∉ marks := fun h => absurd (hink ' ' h) (by decide)
  rw [words, apply_ofMarks hnodup hspace, runs_flatMap_padded hink]

theorem words_plain (text : String) :
    plain.words text = (cut plainMarks text.toList).map String.ofList :=
  words_ofMarks (by decide) (by decide) text

theorem words_withQuotes (text : String) :
    withQuotes.words text = (cut quoteMarks text.toList).map String.ofList :=
  words_ofMarks (by decide) (by decide) text

theorem piece_of_mem_words {text : String} (h : w ∈ plain.words text) :
    Piece plainMarks w.toList := by
  rw [words_plain] at h
  obtain ⟨cs, hcs, rfl⟩ := List.mem_map.mp h
  rw [String.toList_ofList]
  exact piece_of_mem_cut hcs

end CodeAtlas.Spacing
