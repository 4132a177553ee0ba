import CodeAtlas.Proofs.CodeLines

/-!
# Lines that are counted

Whether a line of a text is counted is told by the line and by the lines before it
(`SourceLines.codeCount`), and the reader that counts goes by that
(`SourceLines.countFrom_eq_codeCount`). The reader that removes comments takes a line that opens and
closes a block for the start of one, so that it loses the lines of code up to the next line that
only closes a block (`SourceLines.count_eq_strip_add_hidden`).

A line and the line that its words make, put together, are alike for both: no mark of a comment is
taken apart or made (`Chars.contains_eq_any_cut`). So the lines that are counted in the words of a
file are those that are code in its text (`Scanner.scanFile_sourceLines`).
-/

namespace CodeAtlas

open Chars CommentMarks
open Text (isBlank)

variable {m : CommentMarks} {marks part cs line line' : List Char} {ls ls' : List (List Char)}

/-! ### Lines before a line -/

namespace SourceLines

/-- A line that is code where no block is open. -/
def isCode (m : CommentMarks) (line : List Char) : Bool :=
  !line.all isBlank && !contains m.blockStart.toList line && !contains m.blockStop.toList line &&
    !m.line.toList.isPrefixOf (trim line)

/-- A line that holds one of the two block marks and not the other. -/
def turns (m : CommentMarks) (line : List Char) : Bool :=
  contains m.blockStart.toList line != contains m.blockStop.toList line

/-- Whether a block is open after some lines: of those that hold only one block mark, the last one
holds the opening mark. -/
def inBlock (m : CommentMarks) (before : List (List Char)) : Bool :=
  (before.filter (turns m)).getLast?.any (contains m.blockStart.toList)

/-- The number of lines of which something holds that depends on the lines before, too. -/
def countAt (p : List (List Char) → List Char → Bool) (ls : List (List Char)) : Nat :=
  (List.range ls.length).countP fun i => ls[i]?.any (p (ls.take i))

def codeCount (m : CommentMarks) (ls : List (List Char)) : Nat :=
  countAt (fun before line => isCode m line && !inBlock m before) ls

theorem countAt_concat (p : List (List Char) → List Char → Bool) (ls : List (List Char))
    (line : List Char) : countAt p (ls ++ [line]) = countAt p ls + (p ls line).toNat := by
  rw [countAt, List.length_append, List.length_singleton, List.range_succ, List.countP_append,
    countAt]
  congr 1
  · refine List.countP_congr fun i hi => ?_
    have hi := List.mem_range.mp hi
    rw [List.getElem?_append_left hi, List.take_append_of_le_length hi.le]
  · cases hp : p ls line <;> simp [hp]

theorem countAt_add {p q r : List (List Char) → List Char → Bool}
    (h : ∀ before line, (p before line).toNat + (q before line).toNat = (r before line).toNat)
    (ls : List (List Char)) : countAt p ls + countAt q ls = countAt r ls := by
  induction ls using List.reverseRecOn with
  | nil => rfl
  | append_singleton ls line ih =>
    have hline := h ls line
    simp only [countAt_concat]
    omega

theorem inBlock_concat (m : CommentMarks) (before : List (List Char)) (line : List Char) :
    inBlock m (before ++ [line]) =
    if turns m line then contains m.blockStart.toList line else inBlock m before := by
  rw [inBlock, List.filter_append]
  cases hturns : turns m line <;> simp [hturns, inBlock]

theorem isFilled_eq_not_all (line : List Char) : isFilled line = !line.all isBlank := by
  rw [Bool.eq_iff_iff, isFilled_iff]
  simp

theorem countFrom_cons (m : CommentMarks) (b : Bool) (line : List Char) (ls : List (List Char)) :
    countFrom m b (line :: ls) = (isCode m line && !b).toNat +
      countFrom m (if turns m line then contains m.blockStart.toList line else b) ls := by
  rw [countFrom, isCode, turns, ← isFilled_eq_not_all,
    show (trim line != []) = isFilled line from rfl]
  cases contains m.blockStart.toList line <;> cases contains m.blockStop.toList line
  · cases m.line.toList.isPrefixOf (trim line) <;> cases b <;> cases isFilled line <;> simp
  all_goals simp

theorem countFrom_add_codeCount (before ls : List (List Char)) :
    countFrom m (inBlock m before) ls + codeCount m before = codeCount m (before ++ ls) := by
  induction ls generalizing before with
  | nil => simp [countFrom]
  | cons line ls ih =>
    have hrest := ih (before ++ [line])
    rw [List.append_assoc, List.singleton_append, inBlock_concat, codeCount,
      countAt_concat] at hrest
    rw [countFrom_cons, ← hrest, codeCount]
    omega

theorem countFrom_eq_codeCount (m : CommentMarks) (ls : List (List Char)) :
    countFrom m false ls = codeCount m ls :=
  countFrom_add_codeCount [] ls

/-! ### Lines that are lost with comments -/

/-- Whether some lines end with lines of which none only closes a block, and one opens and closes
one. -/
def shadowed (m : CommentMarks) (before : List (List Char)) : Bool :=
  (before.reverse.takeWhile fun line => contains m.blockStart.toList line ||
    !contains m.blockStop.toList line).any
    fun line => contains m.blockStart.toList line && contains m.blockStop.toList line

/-- The number of lines of code that stand after a line that opens and closes a block, before the
next one that only closes one. -/
def hidden (m : CommentMarks) (ls : List (List Char)) : Nat :=
  countAt (fun before line => isCode m line && !inBlock m before && shadowed m before) ls

theorem openAfter_concat (m : CommentMarks) (b : Bool) (before : List (List Char))
    (line : List Char) : m.openAfter b (before ++ [line]) = (contains m.blockStart.toList line ||
      !contains m.blockStop.toList line && m.openAfter b before) := by
  induction before generalizing b with
  | nil =>
    cases hstart : contains m.blockStart.toList line <;>
      cases hstop : contains m.blockStop.toList line <;>
      cases hmark : m.line.toList.isPrefixOf (trim line) <;>
      simp [openAfter, role, hstart, hstop, hmark]
  | cons first before ih =>
    rw [List.cons_append, openAfter, openAfter]
    split <;> exact ih _

/-- A block is open for the reader that removes comments if it is open for the one that counts, or
if the last blocks were opened and closed in one line. -/
theorem openAfter_eq (m : CommentMarks) (before : List (List Char)) :
    m.openAfter false before = (inBlock m before || shadowed m before) := by
  induction before using List.reverseRecOn with
  | nil => rfl
  | append_singleton before line ih =>
    rw [openAfter_concat, ih, inBlock_concat, turns]
    simp only [shadowed, List.reverse_append, List.reverse_singleton, List.singleton_append,
      List.takeWhile_cons]
    cases hstart : contains m.blockStart.toList line <;>
      cases hstop : contains m.blockStop.toList line <;> simp [hstart, hstop]

theorem countP_codeLinesFrom_eq (m : CommentMarks) (ls : List (List Char)) :
    (m.codeLinesFrom false ls).countP isFilled =
    countAt (fun before line => isCode m line && !m.openAfter false before) ls := by
  induction ls using List.reverseRecOn with
  | nil => rfl
  | append_singleton ls line ih =>
    rw [codeLinesFrom_append, List.countP_append, ih, countAt_concat, codeLinesFrom, role,
      isCode, ← isFilled_eq_not_all]
    cases contains m.blockStart.toList line <;> cases contains m.blockStop.toList line <;>
      cases m.line.toList.isPrefixOf (trim line) <;> cases m.openAfter false ls <;>
        cases hfilled : isFilled line <;>
      simp [codeLinesFrom, hfilled]

/-- The lines that are counted are those that are left when comments are removed, and those that are
lost behind a block that is opened and closed in one line. -/
theorem count_eq_strip_add_hidden (m : CommentMarks) (words : List String) : count m words =
    (lines (m.strip words).toList).countP isFilled + hidden m (lines (joinWords words).toList) := by
  rw [← filled_eq_countP_lines, m.filled_strip, codeLines, countP_codeLinesFrom_eq, count,
    countFrom_eq_codeCount]
  refine (countAt_add (fun before line => ?_) _).symm
  rw [openAfter_eq]
  cases isCode m line <;> cases inBlock m before <;> cases shadowed m before <;> rfl

end SourceLines

namespace Sample

/-- After a comment in one line, the line of code is counted and lost. -/
theorem strip_oneLineBlock : SourceLines.count .cStyle ["/*", "*/", "\n", "x"] = 1 ∧
    (lines (cStyle.strip ["/*", "*/", "\n", "x"]).toList).countP isFilled = 0 := by
  decide

end Sample

/-! ### A line and its words -/

namespace Chars

theorem exists_mem_cut_cons (c : Char) {w : List Char} (h : w ∈ cut marks cs) :
    ∃ v ∈ cut marks (c :: cs), w <:+: v := by
  rw [cut.eq_def]
  dsimp only
  split_ifs
  · exact ⟨w, List.mem_cons_of_mem _ h, List.infix_rfl⟩
  · exact ⟨w, h, List.infix_rfl⟩
  · exact ⟨w, List.mem_cons_of_mem _ h, List.infix_rfl⟩
  · cases cs with
    | nil => cases h
    | cons d cs =>
      dsimp only
      split_ifs
      · exact ⟨w, List.mem_cons_of_mem _ h, List.infix_rfl⟩
      · cases hcut : cut marks (d :: cs) with
        | nil => simp [hcut] at h
        | cons v ws =>
          rcases List.mem_cons.mp (hcut ▸ h) with rfl | hw
          · exact ⟨c :: w, by simp [growFirst], (List.suffix_cons c w).isInfix⟩
          · exact ⟨w, by simp [growFirst, hw], List.infix_rfl⟩

/-- A part without breaks stands in a text exactly if it stands in one of its words. -/
theorem contains_eq_any_cut (hne : part ≠ []) (hpart : ∀ c ∈ part, isBreak marks c = false)
    (cs : List Char) : contains part cs = (cut marks cs).any (contains part) := by
  rw [Bool.eq_iff_iff]
  simp only [List.any_eq_true, contains_iff_infix]
  constructor
  · intro h
    induction cs with
    | nil => exact absurd (List.eq_nil_of_infix_nil h) hne
    | cons c cs ih =>
      rcases List.infix_cons_iff.mp h with h | h
      · obtain ⟨w, hw, hprefix⟩ := exists_head_cut_of_prefix hne hpart h
        exact ⟨w, List.mem_of_mem_head? hw, hprefix.isInfix⟩
      · obtain ⟨w, hw, hi⟩ := ih h
        obtain ⟨v, hv, hwv⟩ := exists_mem_cut_cons c hw
        exact ⟨v, hv, hi.trans hwv⟩
  · rintro ⟨w, hw, hi⟩
    exact hi.trans (infix_of_mem_cut hw)

theorem all_isBlank_eq_isEmpty (marks : List Char) (hline : '\n' ∉ line) :
    line.all isBlank = (cut marks line).isEmpty := by
  induction line with
  | nil => rfl
  | cons c line ih =>
    obtain ⟨hc, hline⟩ := not_or.mp (mt List.mem_cons.mpr hline)
    cases hblank : isBlank c with
    | true =>
      rw [cut_blank marks (Ne.symm hc) hblank, List.all_cons, hblank, Bool.true_and, ih hline]
    | false =>
      obtain ⟨w, ws, hcut, -⟩ := exists_cut_cons marks hblank line
      simp [hcut, hblank]

end Chars

theorem newline_not_mem_cut (hline : '\n' ∉ line) : "\n" ∉ (cut marks line).map String.ofList := by
  intro hmem
  obtain ⟨w, hw, hnewline⟩ := List.mem_map.mp hmem
  have hw' : w = ['\n'] := String.ofList_injective hnewline
  exact hline ((infix_of_mem_cut hw).subset (by simp [hw']))

theorem wordLines_cut (marks cs : List Char) :
    wordLines ((cut marks cs).map String.ofList ++ ["\n"]) =
    (splitOn '\n' cs).map fun line => (cut marks line).map String.ofList := by
  induction cs using line_induction with
  | last line hline =>
    rw [splitOn_of_not_mem hline, wordLines_line (newline_not_mem_cut hline)]; rfl
  | step line rest hline ih =>
    rw [splitOn_append_sep hline, List.map_cons, ← ih, cut_append line (isBreak_newline _),
      cut_newline, List.map_append, List.append_assoc]
    exact wordLines_line (newline_not_mem_cut hline) _

namespace SourceLines

/-- Lines with the same words. -/
def SameWords (marks line line' : List Char) : Prop :=
  '\n' ∉ line ∧ '\n' ∉ line' ∧ cut marks line = cut marks line'

theorem sameWords_of_isLine (hline : '\n' ∉ line)
    (h : IsLine ((cut marks line).map String.ofList) line') : SameWords marks line line' := by
  refine ⟨hline, newline_not_mem_isLine (pieces_cut marks line) (newline_not_mem_cut hline) h, ?_⟩
  rw [cut_isLine (pieces_cut marks line) h, List.map_map]
  simp [Function.comp_def]

/-- No mark of a comment is empty, or has a break in it. -/
def Unbroken (marks : List Char) (m : CommentMarks) : Prop :=
  ∀ mark ∈ [m.line, m.blockStart, m.blockStop], mark.toList ≠ [] ∧
    ∀ c ∈ mark.toList, isBreak marks c = false

theorem countFrom_congr (hm : Unbroken marks m) (h : List.Forall₂ (SameWords marks) ls ls')
    (b : Bool) : countFrom m b ls = countFrom m b ls' := by
  obtain ⟨hline, hlines⟩ := hm m.line (by simp)
  obtain ⟨hstart, hstarts⟩ := hm m.blockStart (by simp)
  obtain ⟨hstop, hstops⟩ := hm m.blockStop (by simp)
  induction h generalizing b with
  | nil => rfl
  | cons hsame _ ih =>
    obtain ⟨hl, hl', hcut⟩ := hsame
    rw [countFrom_cons, countFrom_cons, isCode, isCode, turns, turns, ih]
    simp only [contains_eq_any_cut hstart hstarts, contains_eq_any_cut hstop hstops,
      isPrefixOf_trim hline hlines hl, isPrefixOf_trim hline hlines hl',
      all_isBlank_eq_isEmpty marks hl, all_isBlank_eq_isEmpty marks hl', hcut]

/-- The lines that are counted in the words of a text are those that are code in the text. -/
theorem count_cut (hm : Unbroken marks m) (cs : List Char) :
    count m ((cut marks cs).map String.ofList) = codeCount m (splitOn '\n' cs) := by
  obtain ⟨gap, hgap, heq⟩ := exists_wordLines_append_newline ((cut marks cs).map String.ofList)
  have hall : (splitOn '\n' cs).map (fun line => (cut marks line).map String.ofList) =
      wordLines ((cut marks cs).map String.ofList) ++ gap := by
    rw [← wordLines_cut, heq]
    simp [wordLines]
  -- a last line without words is told by the text only
  obtain ⟨blank, hblank, hcount⟩ : ∃ blank, List.Forall₂ IsLine gap blank ∧
      ∀ ls, codeCount m (ls ++ blank) = codeCount m ls := by
    rcases hgap with rfl | rfl
    · exact ⟨[], .nil, fun ls => by rw [List.append_nil]⟩
    · exact ⟨[[]], .cons ⟨[], [], .inl rfl, .inl rfl, rfl⟩ .nil, fun ls => countAt_concat _ ls []⟩
  have hlines : List.Forall₂ IsLine (wordLines ((cut marks cs).map String.ofList) ++ gap) _ :=
    List.rel_append (forall₂_isLine_lines (pieces_cut marks cs)) hblank
  rw [← hall, List.forall₂_map_left_iff] at hlines
  have hnewline : ∀ line ∈ splitOn '\n' cs, '\n' ∉ line :=
    fun line hline hmem => (mem_of_mem_splitOn hline hmem).2 rfl
  have hsame : List.Forall₂ (SameWords marks) (splitOn '\n' cs)
      (lines (joinWords ((cut marks cs).map String.ofList)).toList ++ blank) :=
    ((List.forall₂_and_left _ _).mpr ⟨hnewline, hlines⟩).imp
      fun _ _ h => sameWords_of_isLine h.1 h.2
  rw [count, countFrom_eq_codeCount, ← hcount, ← countFrom_eq_codeCount, ← countFrom_congr hm hsame,
    countFrom_eq_codeCount]

theorem count_fileWords {language : Language} (h : language ≠ .python) (text : String) :
    count language.comments (language.fileSpacing.words text) =
      codeCount .cStyle (splitOn '\n' text.toList) := by
  have hmarks : ∀ marks ∈ [Spacing.plainMarks, Spacing.quoteMarks], Unbroken marks .cStyle := by
    unfold Unbroken
    decide
  cases language with
  | python => contradiction
  | javascript =>
    exact (congrArg _ (Spacing.words_plain _)).trans (count_cut (hmarks _ (by simp)) _)
  | _ => exact (congrArg _ (Spacing.words_withQuotes _)).trans (count_cut (hmarks _ (by simp)) _)

end SourceLines

namespace Scanner

/-- The source lines in the words of a file, in every language where comments are marked like this,
are the lines of code of its text, and they are filed with the result of every scan of the file. -/
theorem scanFile_sourceLines (file : SourceFile) (t : ScanState)
    (hlanguage : t.scanner.language ≠ .python) :
    let n := SourceLines.codeCount .cStyle (splitOn '\n' file.content.toList)
    SourceLines.count t.scanner.language.comments
      (t.scanner.language.fileSpacing.words file.content) = n ∧
      ∀ ctx r t', scanFile ctx file t = .ok r t' → Work.sourceLinesOf r = .ok n ∧
        ∀ ref rest, Work.countEach ref "sloc" Work.sourceLinesOf (r :: rest) = (do
          Work.fileFigure ref r "sloc-in-file" (.int n)
          return (r, n) :: (← Work.countEach ref "sloc" Work.sourceLinesOf rest)) := by
  intro n
  have hcount := SourceLines.count_fileWords hlanguage file.content
  refine ⟨hcount, fun ctx r t' h => ?_⟩
  obtain ⟨⟨source, package, imports, rfl⟩, -⟩ := exists_of_scanFile h
  have hsource : Work.sourceLinesOf { blankResult t.scanner.language ctx source file with
      moduleName := package, imports := imports } = .ok n := congrArg Except.ok hcount
  refine ⟨hsource, fun ref rest => ?_⟩
  rw [Work.countEach, hsource]
  rfl

end Scanner

namespace Sample

/-- A block over two lines, and a line with a mark behind its code and a line separator in it. -/
def remarkedFile : Scanner.SourceFile :=
  ⟨"A.java", "/w/proj/A.java", "a /* b\nc */\nd\u2028// e\n// f\n"⟩

theorem scanFile_sourceLines_remarkedFile :
    ∃ r t', Scanner.scanFile classContext remarkedFile javaScanner = .ok r t' ∧
    Work.sourceLinesOf r = .ok 1 := by
  have hends : (Effect.final? (Scanner.scanFile classContext remarkedFile) javaScanner).isSome =
      true := by decide +kernel
  obtain ⟨t', ht'⟩ := Option.isSome_iff_exists.mp hends
  obtain ⟨r, h⟩ := Effect.exists_of_final? ht'
  obtain ⟨-, hfiled⟩ := Scanner.scanFile_sourceLines remarkedFile javaScanner (by decide)
  exact ⟨r, t', h, (hfiled classContext r t' h).1⟩

end Sample

end CodeAtlas
