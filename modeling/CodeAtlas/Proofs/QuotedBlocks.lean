import CodeAtlas.Proofs.CountedLines
import CodeAtlas.Proofs.LineImports

/-!
# Blocks between triple quotes

Where three quotes stand for the start and for the end of a block, the quotes are words of their
own, and three of them never come together again: no block is opened
(`SourceLines.count_fileWords_python`). So a block between triple quotes adds its own lines of code
to those of the text before it, and the two lines with the quotes (`Scanner.scanFile_quotedBlock`).
-/

namespace CodeAtlas

open Chars Imports CommentMarks
open Text (isBlank)

namespace SourceLines

variable {line : List Char} {l : List String} {ls : List (List String)}

theorem isCode_scriptStyle (hl : Pieces Spacing.quoteMarks l) (hnewline : "\n" ∉ l)
    (h : IsLine l line) : isCode .scriptStyle line = (!isRemark l && joinWords l != "") := by
  have hquotes : contains scriptStyle.blockStart.toList line = false :=
    contains_eq_false_iff.mpr (not_infix_quotes hl h)
  have hremark : scriptStyle.line.toList.isPrefixOf (trim line) = isRemark l :=
    isPrefixOf_trim_eq_isRemark hl hnewline h
  have hblank : line.all isBlank = (joinWords l == "") := by
    rw [all_isBlank_eq_isEmpty Spacing.quoteMarks (newline_not_mem_isLine hl hnewline h),
      cut_isLine hl h, Bool.eq_iff_iff, beq_iff_eq, ← String.toList_inj]
    cases l with
    | nil => simp [joinWords, Text.join, join]
    | cons w l => simp [toList_joinWords_cons, (hl w List.mem_cons_self).ne_nil]
  rw [isCode, show scriptStyle.blockStop = scriptStyle.blockStart from rfl, hquotes,
    hremark, hblank]
  cases isRemark l <;> simp [bne]

theorem countFrom_scriptStyle {lines : List (List Char)}
    (hls : ∀ l ∈ ls, Pieces Spacing.quoteMarks l ∧ "\n" ∉ l) (h : List.Forall₂ IsLine ls lines) :
    countFrom .scriptStyle false lines =
      ((ls.filter fun l => !isRemark l).map joinWords).countP (· != "") := by
  induction h with
  | nil => rfl
  | @cons l line ls lines hline _ ih =>
    obtain ⟨⟨hl, hnewline⟩, hls⟩ := List.forall_mem_cons.mp hls
    have hturns : turns .scriptStyle line = false := bne_self_eq_false _
    rw [countFrom_cons, isCode_scriptStyle hl hnewline hline, hturns, if_neg (by simp), ih hls]
    cases hremark : isRemark l <;> cases htext : joinWords l != "" <;>
      simp [hremark, htext, Nat.add_comm]

/-- The lines that are counted in a file are those that are no remarks and not empty; quotes do not
matter. -/
theorem count_fileWords_python (content : String) :
    count Language.python.comments (Language.python.fileSpacing.words content) =
      (fileLines content).countP (· != "") := by
  have hws := pieces_fileWords_python content
  refine countFrom_scriptStyle (fun l hl => ⟨fun w hw => ?_, fun hmem => ?_⟩)
    (forall₂_isLine_lines hws)
  · exact hws w (of_mem_wordLines hl hw).1
  · exact (of_mem_wordLines hl hmem).2 rfl

end SourceLines

namespace Imports

/-- A text, after which a newline may come, ends with a whole line. -/
def Ended (text ended : String) : Prop :=
  (ended = text ∨ ended = text ++ "\n") ∧ EndsLine ended.toList

theorem countP_fileLines_append_newline (text : String) :
    (fileLines (text ++ "\n")).countP (· != "") = (fileLines text).countP (· != "") := by
  obtain ⟨gap, hgap, heq⟩ :=
    exists_codeTexts_append_newline (Language.python.fileSpacing.words text)
  have hwords := fileWords_append_newline text ""
  rw [String.append_empty] at hwords
  have hempty : codeTexts (Language.python.fileSpacing.words "") = [] := by decide +kernel
  rw [fileLines, hwords, heq, hempty, List.countP_append, fileLines]
  rcases hgap with rfl | rfl <;> simp

theorem Ended.countP_fileLines_append {text ended : String} (h : Ended text ended) (rest : String) :
    (fileLines (ended ++ rest)).countP (· != "") =
      (fileLines text).countP (· != "") + (fileLines rest).countP (· != "") := by
  rw [fileLines_append h.2, List.countP_append]
  rcases h.1 with rfl | rfl
  · rfl
  · rw [countP_fileLines_append_newline]

end Imports

namespace Scanner

/-- The lines of a block between triple quotes are counted, and so are the two lines with the
quotes. -/
theorem scanFile_quotedBlock (s t before inner stop : String) (hbefore : Ended s before)
    (hinner : Ended t inner) (hstop : stop = "" ∨ stop = "\n") :
    let lines content :=
  SourceLines.count Language.python.comments (Language.python.fileSpacing.words content)
    lines (before ++ ("\"\"\"\n" ++ (inner ++ ("\"\"\"" ++ stop)))) = lines s + lines t + 2 ∧
      ∀ ctx file u r u', u.scanner.language = .python → scanFile ctx file u = .ok r u' →
        Work.sourceLinesOf r = .ok (lines file.content) := by
  intro lines
  refine ⟨?_, fun ctx file u r u' hlanguage h => ?_⟩
  · have hquotes : Ended "\"\"\"" "\"\"\"\n" := ⟨.inr rfl, .inr rfl⟩
    have hfirst : (fileLines "\"\"\"").countP (· != "") = 1 := by decide +kernel
    have hlast : (fileLines ("\"\"\"" ++ stop)).countP (· != "") = 1 := by
      rcases hstop with rfl | rfl
      · exact hfirst
      · exact (countP_fileLines_append_newline _).trans hfirst
    simp only [lines, SourceLines.count_fileWords_python]
    rw [hbefore.countP_fileLines_append, hquotes.countP_fileLines_append,
      hinner.countP_fileLines_append, hlast, hfirst]
    omega
  · obtain ⟨⟨source, package, imports, rfl⟩, -⟩ := exists_of_scanFile h
    have hcount : SourceLines.count u.scanner.language.comments
        (u.scanner.language.fileSpacing.words file.content) =
        lines file.content := by rw [hlanguage]
    exact congrArg Except.ok hcount

end Scanner

namespace Sample

def quotedFile : Scanner.SourceFile := ⟨"a.py", "/w/proj/a.py", "x = 1\n\"\"\"\ny\n\"\"\"\n"⟩

theorem scanFile_quotedBlock_quotedFile :
    ∃ r u, Scanner.scanFile classContext quotedFile pythonScanner = .ok r u ∧
    Work.sourceLinesOf r = .ok 4 := by
  have hends : (Effect.final? (Scanner.scanFile classContext quotedFile) pythonScanner).isSome =
      true := by decide +kernel
  obtain ⟨u, hu⟩ := Option.isSome_iff_exists.mp hends
  obtain ⟨r, h⟩ := Effect.exists_of_final? hu
  obtain ⟨hlines, hfiled⟩ :=
    Scanner.scanFile_quotedBlock "x = 1\n" "y" "x = 1\n" "y\n" "\n" ⟨.inl rfl, .inr rfl⟩
    ⟨.inr rfl, .inr rfl⟩ (.inr rfl)
  exact ⟨r, u, h, (hfiled classContext quotedFile pythonScanner r u rfl h).trans
    (congrArg Except.ok (by decide +kernel))⟩

/-- The block does not leave the number of lines as it is. -/
theorem count_quotedFile :
    SourceLines.count Language.python.comments (Language.python.fileSpacing.words "x = 1\n") = 1 ∧
      SourceLines.count Language.python.comments
        (Language.python.fileSpacing.words quotedFile.content) = 4 := by
  decide +kernel

end Sample

end CodeAtlas
