import CodeAtlas.Language
import CodeAtlas.Proofs.Words
import Mathlib.Data.List.Perm.Basic

/-!
# Words in one pass

The entries of a table are applied to a text one after the other, and then the words are looked for.
`Chars.scan` reads the text once instead and finds the same words (`Spacing.words_eq_scan`), so the
order of the entries does not matter.

A text may be cut a second time, with other marks, after its words have been put together with
blanks. Each word is then cut on its own, and what comes out are the words for all marks of both
tables (`Spacing.words_joinWords`).
-/

namespace CodeAtlas

open Spacing

namespace Chars

open Text (isBlank)

variable {marks marks' a b both : List Char} {c : Char} {cs : List Char}

/-! ### One pass over a text -/

/-- The words of a text, read once: every newline and every separator, and the longest runs of
characters that are neither blank nor separators. Other blanks only stand between words. -/
def scan (separates : Char → Bool) : List Char → List (List Char)
  | [] => []
  | c :: cs =>
    if c == '\n' || separates c then [c] :: scan separates cs
    else if isBlank c then scan separates cs
    else
      (c :: cs.takeWhile fun d => !(isBlank d || separates d)) ::
        scan separates (cs.dropWhile fun d => !(isBlank d || separates d))
termination_by cs => cs.length
decreasing_by
  all_goals first
    | exact Nat.lt_succ_self _
    | exact Nat.lt_succ_of_le (List.dropWhile_suffix _).length_le

theorem isBreak_of_mem_head?_dropWhile (marks cs : List Char) :
    ∀ d ∈ (cs.dropWhile fun d => !isBreak marks d).head?, isBreak marks d = true := by
  intro d hd
  have hnot := List.head?_dropWhile_not (fun d => !isBreak marks d) cs
  rw [Option.mem_def.mp hd] at hnot
  simpa using hnot

theorem not_isBreak_of_mem_run (hc : isBreak marks c = false) :
    ∀ d ∈ c :: cs.takeWhile (fun d => !isBreak marks d), isBreak marks d = false :=
  List.forall_mem_cons.mpr ⟨hc, fun d hd => by simpa using List.mem_takeWhile_imp hd⟩

theorem cut_eq_scan (hink : ∀ m ∈ marks, isBlank m = false) (cs : List Char) :
    cut marks cs = scan marks.contains cs := by
  -- by the rounds of the scan; the last case is a whole run
  fun_induction scan marks.contains cs with
  | case1 => rfl
  | case2 c cs halone ih =>
    rw [← ih]
    rcases Bool.or_eq_true_iff.mp halone with hnewline | hmark
    · rw [beq_iff_eq.mp hnewline, cut_newline]
    · have hmark := List.contains_iff_mem.mp hmark
      exact cut_mark (hink c hmark) hmark cs
  | case3 c cs halone hblank ih =>
    have hne : c ≠ '\n' := fun hc => halone (by simp [hc])
    rw [cut_blank marks hne hblank, ih]
  | case4 c cs halone hblank ih =>
    have hc : isBreak marks c = false :=
      isBreak_eq_false hblank fun hmark => halone (by rw [hmark, Bool.or_true])
    have hpiece : Piece marks (c :: cs.takeWhile fun d => !isBreak marks d) :=
      .of_run (by simp) (not_isBreak_of_mem_run hc)
    have hcut := hpiece.cut_append (isBreak_of_mem_head?_dropWhile marks cs)
    rw [List.cons_append, List.takeWhile_append_dropWhile] at hcut
    exact hcut.trans (congrArg _ ih)

/-! ### Cutting twice -/

theorem cut_congr (h : ∀ c ∈ cs, c ∈ marks ↔ c ∈ marks') : cut marks cs = cut marks' cs := by
  induction cs with
  | nil => rfl
  | cons c cs ih =>
    obtain ⟨hc, hcs⟩ := List.forall_mem_cons.mp h
    rw [cut.eq_def, cut.eq_def marks']
    cases cs with
    | nil => simp [hc, ih hcs]
    | cons d cs => simp [hc, isBreak, hcs d List.mem_cons_self, ih hcs]

theorem cut_singleton (hc : isBlank c = false) : cut marks [c] = [[c]] :=
  Piece.cut_eq ⟨by simp, .inr (by simpa using hc), fun _ hd _ => by rw [List.mem_singleton.mp hd]⟩

/-- Texts that are put together with blanks are cut each on its own. -/
theorem cut_join (marks : List Char) (ws : List (List Char)) :
    cut marks (join [' '] ws) = ws.flatMap (cut marks) := by
  induction ws with
  | nil => rfl
  | cons w ws ih =>
    cases ws with
    | nil => simp [join]
    | cons v ws =>
      have hspace : isBreak marks ' ' = true := rfl
      rw [join_cons _ _ (by simp), List.append_assoc, List.singleton_append,
        cut_append w (by simpa using hspace), cut_blank marks (by decide) rfl, ih]
      rfl

theorem cut_flatMap_cut (ha : ∀ c ∈ a, isBlank c = false) (hboth : ∀ c, c ∈ both ↔ c ∈ a ∨ c ∈ b)
    (cs : List Char) : (cut a cs).flatMap (cut b) = cut both cs := by
  rw [cut_eq_scan ha]
  fun_induction scan a.contains cs with
  | case1 => rfl
  | case2 c cs halone ih =>
    rw [List.flatMap_cons, ih]
    rcases Bool.or_eq_true_iff.mp halone with hnewline | hmark
    · rw [beq_iff_eq.mp hnewline, cut_newline, cut_newline]
      rfl
    · have hmark := List.contains_iff_mem.mp hmark
      rw [cut_singleton (ha c hmark), cut_mark (ha c hmark) ((hboth c).mpr (.inl hmark))]
      rfl
  | case3 c cs halone hblank ih =>
    have hne : c ≠ '\n' := fun hc => halone (by simp [hc])
    rw [cut_blank both hne hblank, ih]
  | case4 c cs halone hblank ih =>
    have hc : isBreak a c = false :=
      isBreak_eq_false hblank fun hmark => halone (by rw [hmark, Bool.or_true])
    -- in the run there are no marks of the first table, and after it comes a break of either
    have hrun : ∀ d ∈ c :: cs.takeWhile (fun d => !isBreak a d), d ∈ b ↔ d ∈ both := by
      intro d hd
      have hnot : d ∉ a := by
        simpa using (Bool.or_eq_false_iff.mp (not_isBreak_of_mem_run hc d hd)).2
      simp [hboth, hnot]
    have hnext : ∀ d ∈ (cs.dropWhile fun d => !isBreak a d).head?, isBreak both d = true := by
      intro d hd
      have hd : isBlank d = true ∨ d ∈ a := by
        simpa [isBreak] using isBreak_of_mem_head?_dropWhile a cs d hd
      rcases hd with hd | hd <;> simp [isBreak, hboth, hd]
    have hcut := cut_append (c :: cs.takeWhile fun d => !isBreak a d) hnext
    rw [List.cons_append, List.takeWhile_append_dropWhile, ← cut_congr hrun] at hcut
    rw [List.flatMap_cons, hcut]
    exact congrArg _ ih

end Chars

namespace Spacing

open Chars
open Text (isBlank)

/-- A set of marks, in some order. -/
structure IsMarkSet (marks : List Char) : Prop where
  nodup : marks.Nodup
  ink : ∀ c ∈ marks, isBlank c = false

theorem isMarkSet_plainMarks : IsMarkSet plainMarks := ⟨by decide, by decide⟩

theorem isMarkSet_quoteMarks : IsMarkSet quoteMarks := ⟨by decide, by decide⟩

theorem isMarkSet_bothQuoteMarks : IsMarkSet bothQuoteMarks := ⟨by decide, by decide⟩

def separates (table : Spacing) (c : Char) : Bool := table.any fun e => e.1 == String.ofList [c]

theorem separates_ofMarks (marks : List Char) : (ofMarks marks).separates = marks.contains := by
  funext c
  rw [separates, ofMarks, List.any_map, Bool.eq_iff_iff, List.any_eq_true, List.contains_iff_mem]
  constructor
  · rintro ⟨m, hm, heq⟩
    obtain rfl : m = c := by simpa using String.ofList_injective (beq_iff_eq.mp heq)
    exact hm
  · exact fun hc => ⟨c, hc, beq_self_eq_true _⟩

theorem IsMarkSet.words_eq {marks : List Char} (h : IsMarkSet marks) (text : String) :
    (ofMarks marks).words text =
      (scan (ofMarks marks).separates text.toList).map String.ofList := by
  rw [words_ofMarks h.nodup h.ink, cut_eq_scan h.ink, separates_ofMarks]

theorem exists_isMarkSet {table : Spacing}
    (htable : table = .plain ∨ ∃ language : Language, table = language.spacing) :
    ∃ marks, IsMarkSet marks ∧ table = ofMarks marks := by
  rcases htable with rfl | ⟨language, rfl⟩
  · exact ⟨_, isMarkSet_plainMarks, rfl⟩
  · cases language with
    | javascript => exact ⟨_, isMarkSet_bothQuoteMarks, rfl⟩
    | _ => exact ⟨_, isMarkSet_quoteMarks, rfl⟩

/-- The words of a text by the common table or by that of any language, the entries of which may be
applied in any order, are those that one pass over the text finds. -/
theorem words_eq_scan (table order : Spacing) (text : String)
    (htable : table = .plain ∨ ∃ language : Language, table = language.spacing)
    (horder : order.Perm table) :
    order.words text = (scan table.separates text.toList).map String.ofList := by
  obtain ⟨marks, hmarks, rfl⟩ := exists_isMarkSet htable
  obtain ⟨marks', rfl, hperm⟩ : Relation.Comp (· = ofMarks ·) List.Perm order marks :=
    (congrFun₂ (List.eq_map_comp_perm _) order marks).mpr horder
  have hset : IsMarkSet marks' :=
    ⟨hperm.nodup_iff.mpr hmarks.nodup, fun c hc => hmarks.ink c (hperm.subset hc)⟩
  have hsame : (ofMarks marks').separates = (ofMarks marks).separates :=
    funext fun c => horder.any_eq
  rw [hset.words_eq, hsame]

end Spacing

namespace Sample

/-- Quotes, an angle bracket and a wide blank, with the table backwards. -/
theorem words_eq_scan_backwards : words Language.javascript.spacing.reverse "f('a<\u2003b\n" =
      ["f", "(", "'", "a", "<", "b", "\n"] ∧
    (Chars.scan Language.javascript.spacing.separates "f('a<\u2003b\n".toList).map String.ofList =
      ["f", "(", "'", "a", "<", "b", "\n"] := by
  have hwords : words Language.javascript.spacing.reverse "f('a<\u2003b\n" =
      ["f", "(", "'", "a", "<", "b", "\n"] := by decide +kernel
  exact ⟨hwords, (words_eq_scan _ _ _ (.inr ⟨_, rfl⟩) (List.reverse_perm _)).symm.trans hwords⟩

end Sample

/-! ### Words that are put together -/

namespace Spacing

open Chars

theorem words_join {marks : List Char} (h : IsMarkSet marks) (ws : List String) :
    (ofMarks marks).words (joinWords ws) = ws.flatMap (ofMarks marks).words := by
  rw [words_ofMarks h.nodup h.ink, toList_joinWords, cut_join, List.flatMap_map, List.map_flatMap]
  exact congrArg (ws.flatMap ·) (funext fun w => (words_ofMarks h.nodup h.ink w).symm)

theorem words_join_words {a b both : List Char} (ha : IsMarkSet a) (hb : IsMarkSet b)
    (hboth : IsMarkSet both) (hmem : ∀ c, c ∈ both ↔ c ∈ a ∨ c ∈ b) (text : String) :
    (ofMarks b).words (joinWords ((ofMarks a).words text)) = (ofMarks both).words text := by
  rw [words_ofMarks hb.nodup hb.ink, words_ofMarks ha.nodup ha.ink,
    words_ofMarks hboth.nodup hboth.ink, toList_joinWords, List.map_map,
    ← cut_flatMap_cut ha.ink hmem, ← cut_join]
  simp [Function.comp_def]

/-- Words that are put together and cut again, with marks `b` after marks `a`, are the words for the
marks of both. With the same marks nothing changes; each word is cut on its own, so none is lost and
no two become one; and the words that the imports of a language are looked for in are those for the
whole table of the language. -/
theorem words_joinWords (a b both : List Char) (text : String) (ha : IsMarkSet a) (hb : IsMarkSet b)
    (hboth : IsMarkSet both) (hmem : ∀ c, c ∈ both ↔ c ∈ a ∨ c ∈ b) :
    (ofMarks b).words (joinWords ((ofMarks a).words text)) = (ofMarks both).words text ∧
      (ofMarks a).words (joinWords ((ofMarks a).words text)) = (ofMarks a).words text ∧
      (∀ ws, (ofMarks b).words (joinWords ws) = ws.flatMap (ofMarks b).words) ∧
      ∀ language : Language, language.importSpacing.words
        (joinWords (language.fileSpacing.words text)) =
        language.spacing.words text := by
  refine ⟨words_join_words ha hb hboth hmem text, words_join_words ha ha ha (by simp) text,
    words_join hb, fun language => ?_⟩
  have hplain := isMarkSet_plainMarks
  have hquotes := isMarkSet_quoteMarks
  cases language with
  | java | objc => exact words_join_words hquotes hplain hquotes (by simp [quoteMarks]; tauto) text
  | javascript =>
    exact words_join_words hplain isMarkSet_bothQuoteMarks isMarkSet_bothQuoteMarks
      (by simp [bothQuoteMarks, quoteMarks]) text
  | _ => exact words_join_words hquotes hquotes hquotes (by simp) text

end Spacing

namespace Sample

theorem words_joinWords_quoteLast :
    (ofMarks ['"']).words (joinWords ((ofMarks [';']).words "a\"b;\nc")) =
    ["a", "\"", "b", ";", "\n", "c"] := by
  have hwords := (words_joinWords [';'] ['"'] ['"', ';'] "a\"b;\nc"
    ⟨by decide, by decide⟩ ⟨by decide, by decide⟩
    ⟨by decide, by decide⟩ (by simp [or_comm])).1
  exact hwords.trans (by decide +kernel)

end Sample

end CodeAtlas
