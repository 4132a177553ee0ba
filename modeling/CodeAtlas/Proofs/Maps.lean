import CodeAtlas.OrderedMap
import Mathlib.Data.List.Nodup

/-!
# Looking things up in ordered maps

A map is known by what it answers, `OrderedMap.get?`, and by the order of its entries. Each
operation is described by both where that is needed: `update` answers from the second map first,
`mapValues` and `filter` change the answers one by one, and inserting a new key adds an entry at the
end.
-/

namespace CodeAtlas.OrderedMap

universe u v w

variable {κ : Type u} {α : Type v} {β : Type w} {m : OrderedMap κ α}

theorem ext_entries {m' : OrderedMap κ α} (h : m.entries = m'.entries) : m = m' := by
  obtain ⟨es, hes⟩ := m
  obtain ⟨es', hes'⟩ := m'
  obtain rfl : es = es' := h
  rfl

variable [DecidableEq κ] {k : κ} {a : α}

variable {es : List (κ × α)}

theorem lookup_eq_some_iff (hnd : (es.map Prod.fst).Nodup) :
    lookup k es = some a ↔ (k, a) ∈ es := by
  induction es with
  | nil => simp [lookup]
  | cons e es ih =>
    obtain ⟨k', a'⟩ := e
    rw [List.map_cons, List.nodup_cons] at hnd
    rw [lookup, List.mem_cons]
    by_cases hk : k' = k
    · subst hk
      have hnot : (k', a) ∉ es := fun h => hnd.1 (List.mem_map.mpr ⟨_, h, rfl⟩)
      simp [hnot, eq_comm]
    · have hk' : k ≠ k' := fun h => hk h.symm
      simp [hk, hk', ih hnd.2]

theorem get?_eq_some_iff : m.get? k = some a ↔ (k, a) ∈ m.entries := lookup_eq_some_iff m.nodup

theorem mem_keys_iff : k ∈ m.keys ↔ ∃ a, m.get? k = some a := by
  simp [keys, get?_eq_some_iff]

theorem get?_eq_none_iff : m.get? k = none ↔ k ∉ m.keys := by
  rw [mem_keys_iff, Option.eq_none_iff_forall_ne_some, not_exists]

theorem contains_iff : m.contains k = true ↔ k ∈ m.keys := by
  rw [contains, mem_keys_iff, Option.isSome_iff_exists]

theorem mem_values_iff : a ∈ m.values ↔ ∃ k, m.get? k = some a := by
  simp [values, get?_eq_some_iff]

@[simp] theorem get?_empty (k : κ) : (∅ : OrderedMap κ α).get? k = none := rfl

theorem getD_eq (m : OrderedMap κ α) (k : κ) (d : α) : m.getD k d = (m.get? k).getD d := rfl

/-! ### Insertion -/

theorem entries_insert_of_not_mem (h : k ∉ m.keys) (a : α) :
    (m.insert k a).entries = m.entries ++ [(k, a)] := by
  have hput : ∀ es : List (κ × α), k ∉ es.map Prod.fst → put k a es = es ++ [(k, a)] := by
    intro es
    induction es with
    | nil => intro _; rfl
    | cons e es ih =>
      intro hes
      rw [List.map_cons, List.mem_cons, not_or] at hes
      rw [put, if_neg fun he => hes.1 he.symm, ih hes.2]
      rfl
  exact hput m.entries h

theorem insert_of_get? (h : m.get? k = some a) : m.insert k a = m := by
  have hput : ∀ es : List (κ × α), lookup k es = some a → put k a es = es := by
    intro es
    induction es with
    | nil => intro hes; cases hes
    | cons e es ih =>
      obtain ⟨k', a'⟩ := e
      intro hes
      rw [lookup] at hes
      rw [put]
      split_ifs at hes ⊢
      · rw [Option.some.inj hes]
      · rw [ih hes]
  exact ext_entries (hput m.entries h)

@[simp] theorem insertMany_nil (m : OrderedMap κ α) : m.insertMany [] = m := rfl

@[simp] theorem insertMany_cons (m : OrderedMap κ α) (k : κ) (a : α) (es : List (κ × α)) :
    m.insertMany ((k, a) :: es) = (m.insert k a).insertMany es := rfl

theorem ofList_concat (es : List (κ × α)) (k : κ) (a : α) :
    ofList (es ++ [(k, a)]) = (ofList es).insert k a := by
  rw [ofList, insertMany, List.foldl_append]
  rfl

theorem entries_insertMany_of_nodup (h : (m.keys ++ es.map Prod.fst).Nodup) :
    (m.insertMany es).entries = m.entries ++ es := by
  induction es generalizing m with
  | nil => simp
  | cons e es ih =>
    have hnew : e.1 ∉ m.keys := fun hmem => (List.nodup_append.mp h).2.2 _ hmem _ (by simp) rfl
    rw [insertMany_cons, ih, entries_insert_of_not_mem hnew, List.append_assoc,
      List.singleton_append]
    rw [keys_insert, if_neg hnew, List.append_assoc]
    exact h

theorem of_get?_insertMany (h : (m.insertMany es).get? k = some a) :
    (k, a) ∈ es ∨ m.get? k = some a := by
  induction es generalizing m with
  | nil => exact .inr h
  | cons e es ih =>
    obtain ⟨k', a'⟩ := e
    rw [insertMany_cons] at h
    rcases ih h with h | h
    · exact .inl (List.mem_cons_of_mem _ h)
    · rw [get?_insert] at h
      split_ifs at h with hk
      · exact .inl (by simp [hk, Option.some.inj h])
      · exact .inr h

theorem mem_of_mem_ofList (h : (k, a) ∈ (ofList es).entries) : (k, a) ∈ es :=
  (of_get?_insertMany (get?_eq_some_iff.mpr h)).resolve_right fun h => nomatch h

theorem get?_insertMany (hnd : (es.map Prod.fst).Nodup) (m : OrderedMap κ α) (k : κ) :
    (m.insertMany es).get? k = (lookup k es).or (m.get? k) := by
  induction es generalizing m with
  | nil => rfl
  | cons e es ih =>
    obtain ⟨k', a'⟩ := e
    rw [List.map_cons, List.nodup_cons] at hnd
    rw [insertMany_cons, ih hnd.2, get?_insert, lookup]
    by_cases hk : k' = k
    · subst hk
      have hnone : lookup k' es = none := by
        rw [Option.eq_none_iff_forall_ne_some]
        exact fun b hb => hnd.1 (List.mem_map.mpr ⟨_, (lookup_eq_some_iff hnd.2).mp hb, rfl⟩)
      simp [hnone]
    · simp [hk]

/-- Entries that are inserted one after the other count before those that are there. -/
theorem get?_insertMany_or (m : OrderedMap κ α) (es : List (κ × α)) (k : κ) :
    (m.insertMany es).get? k = ((ofList es).get? k).or (m.get? k) := by
  induction es generalizing m with
  | nil => rfl
  | cons e es ih =>
    obtain ⟨k', a'⟩ := e
    rw [ofList, insertMany_cons, insertMany_cons, ih, ih (insert _ k' a'), get?_insert, get?_insert,
      Option.or_assoc]
    congr 1
    split_ifs
    · rfl
    · rfl

theorem get?_update (m other : OrderedMap κ α) (k : κ) :
    (m.update other).get? k = (other.get? k).or (m.get? k) :=
  get?_insertMany other.nodup m k

theorem mem_keys_update {other : OrderedMap κ α} :
    k ∈ (m.update other).keys ↔ k ∈ m.keys ∨ k ∈ other.keys := by
  rw [← not_iff_not, not_or, ← get?_eq_none_iff, ← get?_eq_none_iff, ← get?_eq_none_iff,
    get?_update, Option.or_eq_none_iff, and_comm]

theorem get?_ofList_eq_some_iff (hnd : (es.map Prod.fst).Nodup) :
    (ofList es).get? k = some a ↔ (k, a) ∈ es := by
  have hentries : (ofList es).entries = es :=
    entries_insertMany_of_nodup (m := OrderedMap.empty) hnd
  rw [get?_eq_some_iff, hentries]

theorem get?_ofList_ne_none (h : (k, a) ∈ es) : (ofList es).get? k ≠ none := by
  induction es with
  | nil => cases h
  | cons e es ih =>
    obtain ⟨k', a'⟩ := e
    rw [ofList, insertMany_cons, get?_insertMany_or, get?_insert]
    rcases List.mem_cons.mp h with heq | h
    · obtain ⟨rfl, rfl⟩ := Prod.mk.inj heq
      simp
    · simp [ih h]

theorem isEmpty_ofList (es : List (κ × α)) : (ofList es).isEmpty = es.isEmpty := by
  cases es with
  | nil => rfl
  | cons e es =>
    obtain ⟨b, hb⟩ :=
      Option.ne_none_iff_exists'.mp (get?_ofList_ne_none (List.mem_cons_self (a := e) (l := es)))
    exact List.isEmpty_eq_false_iff.mpr (List.ne_nil_of_mem (get?_eq_some_iff.mp hb))

theorem get?_ofList_or {xs ys zs : List (κ × α)} (hxs : xs.Sublist zs) (hys : ys.Sublist zs)
    (hmem : ∀ e ∈ zs, e ∈ xs ∨ e ∈ ys) (hnd : (zs.map Prod.fst).Nodup) (k : κ) :
    ((ofList xs).get? k).or ((ofList ys).get? k) = (ofList zs).get? k := by
  have hx : ∀ a, (ofList xs).get? k = some a ↔ (k, a) ∈ xs :=
    fun _ => get?_ofList_eq_some_iff (hnd.sublist (hxs.map _))
  have hy : ∀ a, (ofList ys).get? k = some a ↔ (k, a) ∈ ys :=
    fun _ => get?_ofList_eq_some_iff (hnd.sublist (hys.map _))
  have hz : ∀ a, (ofList zs).get? k = some a ↔ (k, a) ∈ zs := fun _ => get?_ofList_eq_some_iff hnd
  cases hget : (ofList xs).get? k with
  | some a => exact ((hz a).mpr (hxs.subset ((hx a).mp hget))).symm
  | none =>
    refine Option.ext fun a => ?_
    rw [Option.none_or, hy, hz]
    refine ⟨fun h => hys.subset h, fun h => (hmem _ h).resolve_left fun h => ?_⟩
    rw [(hx a).mpr h] at hget
    cases hget

theorem get?_insertNew (m : OrderedMap κ α) (k k' : κ) (a : α) :
    (m.insertNew k a).get? k' = (m.get? k').or (if k = k' then some a else none) := by
  rw [insertNew]
  split_ifs with hmem hk hk
  · subst hk
    obtain ⟨b, hb⟩ := mem_keys_iff.mp (contains_iff.mp hmem)
    rw [hb]
    rfl
  · rw [Option.or_none]
  · subst hk
    have hnone : m.get? k = none := get?_eq_none_iff.mpr (mt contains_iff.mpr hmem)
    rw [get?_insert, if_pos rfl, hnone]
    rfl
  · rw [get?_insert, if_neg hk, Option.or_none]

/-! ### Changing and choosing values -/

theorem get?_mapValues (f : κ → α → β) (m : OrderedMap κ α) (k : κ) :
    (m.mapValues f).get? k = (m.get? k).map (f k) := by
  have hlookup : ∀ es : List (κ × α), lookup k (es.map fun e => (e.1, f e.1 e.2)) =
      (lookup k es).map (f k) := by
    intro es
    induction es with
    | nil => rfl
    | cons e es ih =>
      obtain ⟨k', a'⟩ := e
      rw [List.map_cons, lookup, lookup, ih]
      split_ifs with hk
      · rw [hk]
        rfl
      · rfl
  exact hlookup m.entries

theorem mapValues_eq_self {f : κ → α → α} (h : ∀ k a, m.get? k = some a → f k a = a) :
    m.mapValues f = m := by
  refine ext_entries ((List.map_congr_left fun e he => ?_).trans (List.map_id _))
  exact congrArg (e.1, ·) (h e.1 e.2 (get?_eq_some_iff.mpr he))

theorem get?_filter_eq_some_iff {p : κ → α → Bool} :
    (m.filter p).get? k = some a ↔ m.get? k = some a ∧ p k a = true := by
  rw [get?_eq_some_iff, get?_eq_some_iff, filter, List.mem_filter]

/-! ### Maps up to the order of their entries -/

/-- Two maps have the same values under the same keys. -/
def Alike (m m' : OrderedMap κ α) : Prop := ∀ k, m'.get? k = m.get? k

namespace Alike

variable {m m' : OrderedMap κ α}

theorem refl (m : OrderedMap κ α) : Alike m m := fun _ => rfl

theorem of_eq (h : m' = m) : Alike m m' := h ▸ refl m

section
variable (h : Alike m m')
include h

theorem symm : Alike m' m := fun k => (h k).symm

theorem trans {m'' : OrderedMap κ α} (h' : Alike m' m'') : Alike m m'' :=
  fun k => (h' k).trans (h k)

theorem insert (k : κ) (a : α) : Alike (m.insert k a) (m'.insert k a) := by
  intro k'
  rw [get?_insert, get?_insert, h k']

theorem insertNew (k : κ) (a : α) : Alike (m.insertNew k a) (m'.insertNew k a) := by
  intro k'
  rw [get?_insertNew, get?_insertNew, h k']

theorem filter (p : κ → α → Bool) : Alike (m.filter p) (m'.filter p) := by
  intro k
  refine Option.ext fun a => ?_
  rw [get?_filter_eq_some_iff, get?_filter_eq_some_iff, h k]

theorem perm : m'.entries.Perm m.entries := by
  refine (List.perm_ext_iff_of_nodup (List.Nodup.of_map _ m'.nodup)
    (List.Nodup.of_map _ m.nodup)).mpr fun e => ?_
  rw [← get?_eq_some_iff, ← get?_eq_some_iff, h e.1]

end

theorem of_perm {es es' : List (κ × α)} (hnd : (es.map Prod.fst).Nodup) (h : es.Perm es') :
    Alike (ofList es) (ofList es') := by
  intro k
  refine Option.ext fun a => ?_
  rw [get?_ofList_eq_some_iff ((h.map Prod.fst).nodup hnd), get?_ofList_eq_some_iff hnd, h.mem_iff]

theorem size_eq (h : Alike m m') : m'.size = m.size := h.perm.length_eq

end Alike

end CodeAtlas.OrderedMap
