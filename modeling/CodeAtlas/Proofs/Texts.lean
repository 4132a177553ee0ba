import CodeAtlas.Text.Basic
import Mathlib.Data.List.Infix

/-!
# Occurrences, replacement, and cutting at a separator

The names of nodes come about by removing the parent of the source directory from a path, wherever
it occurs. `Text.OnlyAtStart part s` says that `part` occurs in `s` at its start or not at all; then
replacing it by nothing (`Text.replace_onlyAtStart`) takes away that start and nothing else, and a
second removal changes nothing.

`Chars.splitOn` and `Chars.join` undo each other on pieces without the separator, which is how a
path and the names on it determine each other.
-/

namespace CodeAtlas.Chars

variable {part old new cs rest : List Char}

/-! ### Occurrences -/

theorem contains_iff_infix : contains part cs = true ↔ part <:+: cs := by
  induction cs with
  | nil => simp [contains, List.isEmpty_iff]
  | cons c cs ih =>
    rw [contains, Bool.or_eq_true, ih, List.infix_cons_iff, List.isPrefixOf_iff_prefix]

theorem contains_eq_false_iff : contains part cs = false ↔ ¬ part <:+: cs := by
  rw [← contains_iff_infix, Bool.not_eq_true]

/-! ### Replacement -/

theorem replaceFrom_skip (old new : List Char) (k : Nat) (cs : List Char) :
    replaceFrom old new k cs = replaceFrom old new 0 (cs.drop k) := by
  induction cs generalizing k with
  | nil => cases k <;> rfl
  | cons c cs ih =>
    cases k with
    | zero => rfl
    | succ k => rw [replaceFrom, ih, List.drop_succ_cons]

theorem replaceFrom_of_not_infix (h : ¬ old <:+: cs) : replaceFrom old new 0 cs = cs := by
  induction cs with
  | nil => rfl
  | cons c cs ih =>
    rw [List.infix_cons_iff, not_or] at h
    rw [replaceFrom, if_neg (by simpa using h.1), ih h.2]

theorem replace_of_not_infix (h : ¬ old <:+: cs) : replace old new cs = cs := by
  have hne : old.isEmpty = false := by
    rw [List.isEmpty_eq_false_iff]
    rintro rfl
    exact h (List.nil_infix)
  rw [replace, hne]
  exact replaceFrom_of_not_infix h

theorem replace_append (hne : old ≠ []) (new rest : List Char) :
    replace old new (old ++ rest) = new ++ replace old new rest := by
  have hempty : old.isEmpty = false := List.isEmpty_eq_false_iff.mpr hne
  obtain ⟨c, cs, rfl⟩ := List.exists_cons_of_ne_nil hne
  rw [replace, replace, hempty]
  simp only [Bool.false_eq_true, ↓reduceIte, List.cons_append]
  rw [replaceFrom, if_pos (by simp), replaceFrom_skip]
  simp

theorem replace_nil_of_not_infix_tail (hne : old ≠ []) (h : ¬ old <:+: cs.tail) :
    replace old [] cs = if old.isPrefixOf cs then cs.drop old.length else cs := by
  by_cases hp : old <+: cs
  · obtain ⟨rest, rfl⟩ := hp
    have hrest : ¬ old <:+: rest := fun hr => h (hr.trans (by
      obtain ⟨c, cs, rfl⟩ := List.exists_cons_of_ne_nil hne
      exact (List.suffix_append cs rest).isInfix))
    rw [if_pos (by simp), replace_append hne, replace_of_not_infix hrest]
    simp
  · have hcs : ¬ old <:+: cs := by
      intro hi
      cases cs with
      | nil => exact hne (List.eq_nil_of_infix_nil hi)
      | cons c cs =>
        rcases List.infix_cons_iff.mp hi with hi | hi
        · exact hp hi
        · exact h hi
    rw [if_neg (by simpa using hp), replace_of_not_infix hcs]

/-! ### Cutting and joining -/

variable {sep : Char} {piece : List Char} {pieces : List (List Char)}

theorem splitOn_ne_nil (sep : Char) (cs : List Char) : splitOn sep cs ≠ [] := by
  cases cs with
  | nil => simp [splitOn]
  | cons c cs =>
    rw [splitOn]
    split
    · simp
    · split <;> simp

theorem splitOn_of_not_mem (h : sep ∉ piece) : splitOn sep piece = [piece] := by
  induction piece with
  | nil => rfl
  | cons c cs ih =>
    rw [List.mem_cons, not_or] at h
    rw [splitOn, if_neg (by simpa using Ne.symm h.1), ih h.2]

theorem splitOn_append_sep (h : sep ∉ piece) (rest : List Char) :
    splitOn sep (piece ++ sep :: rest) = piece :: splitOn sep rest := by
  induction piece with
  | nil => simp [splitOn]
  | cons c cs ih =>
    rw [List.mem_cons, not_or] at h
    rw [List.cons_append, splitOn, if_neg (by simpa using Ne.symm h.1), ih h.2]

theorem join_cons (sep piece : List Char) (hne : pieces ≠ []) :
    join sep (piece :: pieces) = piece ++ sep ++ join sep pieces := by
  obtain ⟨p, ps, rfl⟩ := List.exists_cons_of_ne_nil hne
  rfl

theorem join_append (sep : List Char) {as bs : List (List Char)} (ha : as ≠ []) (hb : bs ≠ []) :
    join sep (as ++ bs) = join sep as ++ sep ++ join sep bs := by
  induction as with
  | nil => exact absurd rfl ha
  | cons a as ih =>
    rw [List.cons_append, join_cons sep a (by simp [hb])]
    by_cases has : as = []
    · subst has
      rfl
    · rw [ih has, join_cons sep a has]
      simp only [List.append_assoc]

theorem mem_join {sep : List Char} {c : Char} (h : c ∈ join sep pieces) :
    c ∈ sep ∨ ∃ p ∈ pieces, c ∈ p := by
  induction pieces with
  | nil => simp [join] at h
  | cons p ps ih =>
    by_cases hps : ps = []
    · subst hps
      exact .inr ⟨p, by simp, h⟩
    · rw [join_cons _ _ hps, List.mem_append, List.mem_append] at h
      rcases h with (h | h) | h
      · exact .inr ⟨p, by simp, h⟩
      · exact .inl h
      · rcases ih h with h | ⟨q, hq, h⟩
        · exact .inl h
        · exact .inr ⟨q, by simp [hq], h⟩

theorem splitOn_join (hne : pieces ≠ []) (h : ∀ p ∈ pieces, sep ∉ p) :
    splitOn sep (join [sep] pieces) = pieces := by
  induction pieces with
  | nil => exact absurd rfl hne
  | cons p ps ih =>
    have hp : sep ∉ p := h p (List.mem_cons_self ..)
    by_cases hps : ps = []
    · subst hps
      exact splitOn_of_not_mem hp
    · rw [join_cons _ _ hps, List.append_assoc, List.singleton_append, splitOn_append_sep hp,
        ih hps fun q hq => h q (List.mem_cons_of_mem _ hq)]

theorem mem_of_mem_splitOn {c : Char} (hp : piece ∈ splitOn sep cs) (hc : c ∈ piece) :
    c ∈ cs ∧ c ≠ sep := by
  induction cs generalizing piece with
  | nil =>
    rw [splitOn, List.mem_singleton] at hp
    simp [hp] at hc
  | cons d cs ih =>
    obtain ⟨q, qs, hq⟩ := List.exists_cons_of_ne_nil (splitOn_ne_nil sep cs)
    rw [splitOn, hq] at hp
    split at hp
    · rcases List.mem_cons.mp hp with rfl | hp
      · simp at hc
      · exact (ih (hq ▸ hp) hc).imp_left (List.mem_cons_of_mem _)
    · next hd =>
      rcases List.mem_cons.mp hp with rfl | hp
      · rcases List.mem_cons.mp hc with rfl | hc
        · exact ⟨List.mem_cons_self .., by simpa using hd⟩
        · exact (ih (hq ▸ List.mem_cons_self ..) hc).imp_left (List.mem_cons_of_mem _)
      · exact (ih (hq ▸ List.mem_cons_of_mem _ hp) hc).imp_left (List.mem_cons_of_mem _)

theorem splitOn_append (sep : Char) (as bs : List Char) :
    splitOn sep (as ++ sep :: bs) = splitOn sep as ++ splitOn sep bs := by
  induction as with
  | nil => simp [splitOn]
  | cons c cs ih =>
    rw [List.cons_append, splitOn, splitOn, ih]
    split
    · rfl
    · obtain ⟨p, ps, hp⟩ := List.exists_cons_of_ne_nil (splitOn_ne_nil sep cs)
      rw [hp]
      rfl

end CodeAtlas.Chars

namespace CodeAtlas.Text

variable {part s : String}

/-- `part` occurs in `s` nowhere but at its start. -/
def OnlyAtStart (part s : String) : Prop :=
  ∀ before after : List Char, s.toList = before ++ part.toList ++ after → before = []

theorem onlyAtStart_iff (hne : part ≠ "") :
    OnlyAtStart part s ↔ ¬ part.toList <:+: s.toList.tail := by
  have hne' : part.toList ≠ [] := fun h => hne (String.toList_eq_nil_iff.mp h)
  constructor
  · rintro h ⟨before, after, heq⟩
    cases hs : s.toList with
    | nil => simp [hs, hne'] at heq
    | cons c cs =>
      rw [hs, List.tail_cons] at heq
      have := h (c :: before) after (by rw [hs, ← heq]; rfl)
      exact absurd this (by simp)
  · intro h before after heq
    cases before with
    | nil => rfl
    | cons c before => exact absurd ⟨before, after, by rw [heq]; rfl⟩ h

instance (part s : String) : Decidable (OnlyAtStart part s) :=
  if hne : part = "" then
    decidable_of_iff (s = "") <| by
      subst hne
      constructor
      · rintro rfl before after h
        simp at h
        exact h.1
      · intro h
        exact String.toList_eq_nil_iff.mp (h s.toList [] (by simp))
  else decidable_of_iff (Chars.contains part.toList s.toList.tail = false) <| by
    rw [onlyAtStart_iff hne, Chars.contains_eq_false_iff]

/-- Removing what occurs at most at the start removes it there. -/
theorem replace_onlyAtStart (hne : part ≠ "") (h : OnlyAtStart part s) :
    replace s part "" = if startsWith s part then drop s part.length else s := by
  have hne' : part.toList ≠ [] := fun h => hne (String.toList_eq_nil_iff.mp h)
  rw [replace, String.toList_empty,
    Chars.replace_nil_of_not_infix_tail hne' ((onlyAtStart_iff hne).mp h), startsWith]
  split
  · rw [drop, String.length_toList]
  · exact String.ofList_toList

theorem not_infix_replace_onlyAtStart (hne : part ≠ "") (h : OnlyAtStart part s) :
    ¬ part.toList <:+: (replace s part "").toList := by
  have htail := (onlyAtStart_iff hne).mp h
  have hlen : 0 < part.length := by
    rw [← String.length_toList]
    exact List.length_pos_of_ne_nil fun h => hne (String.toList_eq_nil_iff.mp h)
  rw [replace_onlyAtStart hne h]
  split
  · intro hi
    rw [drop, String.toList_ofList] at hi
    refine htail (hi.trans ?_)
    rw [← List.drop_one, show part.length = 1 + (part.length - 1) by omega, ← List.drop_drop]
    exact (List.drop_suffix _ _).isInfix
  · next hp =>
    intro hi
    cases hs : s.toList with
    | nil =>
      rw [hs] at hi
      exact hne (String.toList_eq_nil_iff.mp (List.eq_nil_of_infix_nil hi))
    | cons c cs =>
      rw [hs] at hi
      rcases List.infix_cons_iff.mp hi with hi | hi
      · exact hp (by rw [startsWith, hs]; exact List.isPrefixOf_iff_prefix.mpr hi)
      · exact htail (by rw [hs]; exact hi)

theorem replace_of_not_infix {new : String} (h : ¬ part.toList <:+: s.toList) :
    replace s part new = s := by
  rw [replace, Chars.replace_of_not_infix h, String.ofList_toList]

end CodeAtlas.Text
