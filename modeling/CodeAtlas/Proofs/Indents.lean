import CodeAtlas.Metric.Whitespace
import CodeAtlas.Proofs.Texts
import Mathlib.Algebra.BigOperators.Group.List.Basic
import Mathlib.Algebra.Field.Rat
import Mathlib.Data.List.Forall2
import Mathlib.Tactic.Ring

/-!
# Indents

The complexity of a text is measured with blanks or tabs removed from whole lines. What is removed
behind an indent does not matter: a text has the tabs of its indents and a quarter of their blanks
(`Whitespace.exact_eq_indents`), in whatever order they stand.
-/

namespace CodeAtlas

open Chars

theorem Decimal.total_eq_sum (ns : List Nat) : total ns = ns.sum := List.sum_eq_foldl_nat.symm

namespace Whitespace

def indent (line : List Char) : List Char := line.takeWhile fun c => c == '\t' || c == ' '

/-- How often a character stands in the indents of those lines that are code. -/
def inIndents (c : Char) (lines : List (List Char)) : Nat :=
  Decimal.total ((lines.filter isCode).map fun line => (indent line).count c)

def exact (source : String) : ℚ := totalQuarters source.toList / 4

/-- Lines that differ in the order of tabs and blanks at their starts. -/
def Reindented (line line' : List Char) : Prop :=
  ∃ lead lead' rest, line = lead ++ rest ∧ line' = lead' ++ rest ∧ lead.Perm lead' ∧
    ∀ c ∈ lead, c = '\t' ∨ c = ' '

/-! ### One line -/

/-- A run of one character at the start, with another one removed everywhere, is as long as it often
is in the run of both. -/
theorem length_takeWhile_filter {a b : Char} (hne : a ≠ b) (line : List Char) :
    ((line.filter (· != b)).takeWhile (· == a)).length =
      (line.takeWhile fun c => c == a || c == b).count a := by
  induction line with
  | nil => rfl
  | cons c line ih =>
    by_cases hb : c = b
    · simp [hb, ih, hne.symm]
    · by_cases ha : c = a
      · simp [ha, ih, hne]
      · -- the line goes on with neither of them, which stays
        simp [ha, hb]

theorem tabs_eq (line : List Char) : tabs line = (indent line).count '\t' :=
  length_takeWhile_filter (by decide) line

theorem spaces_eq (line : List Char) : spaces line = (indent line).count ' ' := by
  rw [spaces, length_takeWhile_filter (by decide), indent]
  simp only [Bool.or_comm]

namespace Reindented

variable {line line' : List Char} (h : Reindented line line')

include h

theorem isCode_eq : isCode line' = isCode line := by
  obtain ⟨lead, lead', rest, rfl, rfl, hperm, -⟩ := h
  rw [isCode, isCode, List.all_append, List.all_append, hperm.all_eq]

theorem count_indent (c : Char) : (indent line').count c = (indent line).count c := by
  obtain ⟨lead, lead', rest, rfl, rfl, hperm, hlead⟩ := h
  have hindent : ∀ i : List Char, (∀ d ∈ i, d = '\t' ∨ d = ' ') →
      indent (i ++ rest) = i ++ indent rest := fun i hi =>
    List.takeWhile_append_of_pos fun d hd => by simpa using hi d hd
  rw [hindent lead hlead, hindent lead' fun d hd => hlead d (hperm.mem_iff.mpr hd),
    List.count_append, List.count_append, hperm.count_eq]

end Reindented

/-! ### Whole texts -/

theorem inIndents_append (c : Char) (lines lines' : List (List Char)) :
    inIndents c (lines ++ lines') = inIndents c lines + inIndents c lines' := by
  simp [inIndents, Decimal.total_eq_sum]

theorem inIndents_reindented {lines lines' : List (List Char)}
    (h : List.Forall₂ Reindented lines lines') (c : Char) :
    inIndents c lines' = inIndents c lines := by
  induction h with
  | nil => rfl
  | cons hline _ ih =>
    simp only [inIndents, Decimal.total_eq_sum, List.filter_cons, hline.isCode_eq] at ih ⊢
    split
    · rw [List.map_cons, List.map_cons, List.sum_cons, List.sum_cons, hline.count_indent, ih]
    · exact ih

theorem totalQuarters_eq (source : List Char) : totalQuarters source =
    4 * inIndents '\t' (splitOn '\n' source) + inIndents ' ' (splitOn '\n' source) := by
  rw [totalQuarters, lineQuarters, codeLines, inIndents, inIndents]
  simp only [Decimal.total_eq_sum, ← tabs_eq, ← spaces_eq]
  induction (splitOn '\n' source).filter isCode with
  | nil => rfl
  | cons line lines ih =>
    simp only [List.map_cons, List.sum_cons, ih, quarters]
    ring

theorem complexity_eq (source : String) :
    complexity source = if codeLines source.toList = [] then .int 0
      else fraction (totalQuarters source.toList) := by
  rw [complexity, totalQuarters, lineQuarters]
  cases codeLines source.toList <;> rfl

/-- A text has the tabs and a quarter of the blanks in the indents of its lines of code, whatever
their order. So the complexity of two texts, one below the other, is the sum of theirs. -/
theorem exact_eq_indents (a b : String) :
    exact a = inIndents '\t' (splitOn '\n' a.toList) + inIndents ' ' (splitOn '\n' a.toList) / 4 ∧
    (∀ a' : String, List.Forall₂ Reindented (splitOn '\n' a.toList) (splitOn '\n' a'.toList) →
      exact a' = exact a) ∧
    exact (a ++ "\n" ++ b) = exact a + exact b ∧
    ∃ quarters : Nat, exact a = quarters / 4 ∧
      complexity a = if ∀ line ∈ splitOn '\n' a.toList,
        line.all Text.isBlank then .int 0 else .float (Float.ofNat quarters / 4) := by
  refine ⟨?_, fun a' h => ?_, ?_, totalQuarters a.toList, rfl, ?_⟩
  · rw [exact, totalQuarters_eq]
    push_cast
    ring
  · rw [exact, exact, totalQuarters_eq, totalQuarters_eq, inIndents_reindented h,
      inIndents_reindented h]
  · have hlines : splitOn '\n' (a ++ "\n" ++ b).toList =
        splitOn '\n' a.toList ++ splitOn '\n' b.toList := by
      rw [String.toList_append, String.toList_append, List.append_assoc]
      exact splitOn_append '\n' a.toList b.toList
    rw [exact, exact, exact, totalQuarters_eq, totalQuarters_eq, totalQuarters_eq, hlines,
      inIndents_append, inIndents_append]
    push_cast
    ring
  · rw [complexity_eq]
    congr 1
    simp [codeLines, isCode, List.filter_eq_nil_iff]

end Whitespace

end CodeAtlas
