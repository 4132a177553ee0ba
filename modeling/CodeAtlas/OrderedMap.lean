/-!
# Maps in order of insertion

An `OrderedMap` holds each key once. A new key goes to the end; a key that is there already keeps its
place and gets the new value. So the order of the keys is the order in which they first came.
-/

namespace CodeAtlas

universe u v w

/-- A list of entries with distinct keys, oldest first. -/
structure OrderedMap (κ : Type u) (α : Type v) where
  entries : List (κ × α)
  nodup : (entries.map Prod.fst).Nodup

namespace OrderedMap

variable {κ : Type u} {α : Type v} {β : Type w}

protected def empty : OrderedMap κ α := ⟨[], List.nodup_nil⟩

instance : EmptyCollection (OrderedMap κ α) := ⟨OrderedMap.empty⟩

instance : Inhabited (OrderedMap κ α) := ⟨OrderedMap.empty⟩

def keys (m : OrderedMap κ α) : List κ := m.entries.map Prod.fst

def values (m : OrderedMap κ α) : List α := m.entries.map Prod.snd

def size (m : OrderedMap κ α) : Nat := m.entries.length

def isEmpty (m : OrderedMap κ α) : Bool := m.entries.isEmpty

theorem keys_nodup (m : OrderedMap κ α) : m.keys.Nodup := m.nodup

@[simp] theorem keys_empty : (∅ : OrderedMap κ α).keys = [] := rfl

section Lookup
variable [DecidableEq κ]

def lookup (k : κ) : List (κ × α) → Option α
  | [] => none
  | (k', a) :: rest => if k' = k then some a else lookup k rest

def put (k : κ) (a : α) : List (κ × α) → List (κ × α)
  | [] => [(k, a)]
  | (k', a') :: rest => if k' = k then (k', a) :: rest else (k', a') :: put k a rest

theorem keys_put (k : κ) (a : α) (es : List (κ × α)) :
    (put k a es).map Prod.fst =
      if k ∈ es.map Prod.fst then es.map Prod.fst else es.map Prod.fst ++ [k] := by
  induction es with
  | nil => rfl
  | cons e rest ih =>
    obtain ⟨k', a'⟩ := e
    by_cases h : k' = k
    · simp [put, h]
    · have h' : ¬ k = k' := fun e => h e.symm
      by_cases hm : k ∈ rest.map Prod.fst
      · rw [if_pos hm] at ih
        have : k ∈ ((k', a') :: rest).map Prod.fst := List.mem_cons_of_mem _ hm
        rw [if_pos this]
        simp [put, h, ih]
      · rw [if_neg hm] at ih
        have : k ∉ ((k', a') :: rest).map Prod.fst := by
          simp only [List.map_cons, List.mem_cons, not_or]
          exact ⟨h', hm⟩
        rw [if_neg this]
        simp [put, h, ih]

theorem nodup_put {es : List (κ × α)} (h : (es.map Prod.fst).Nodup) (k : κ) (a : α) :
    ((put k a es).map Prod.fst).Nodup := by
  rw [keys_put]
  split
  · exact h
  · next hk =>
    refine List.nodup_append.mpr ⟨h, by simp, ?_⟩
    intro x hx y hy
    simp only [List.mem_singleton] at hy
    subst hy
    exact fun e => hk (e ▸ hx)

theorem lookup_put (k : κ) (a : α) (es : List (κ × α)) (k' : κ) :
    lookup k' (put k a es) = if k = k' then some a else lookup k' es := by
  induction es with
  | nil => simp [put, lookup]
  | cons e rest ih =>
    obtain ⟨j, b⟩ := e
    by_cases h : j = k
    · subst h
      by_cases h' : j = k' <;> simp [put, lookup, h']
    · by_cases h' : j = k'
      · subst h'
        have h'' : ¬ k = j := fun e => h e.symm
        simp [put, lookup, h, h'']
      · simp [put, lookup, h, h', ih]

def get? (m : OrderedMap κ α) (k : κ) : Option α := lookup k m.entries

def getD (m : OrderedMap κ α) (k : κ) (a : α) : α := (m.get? k).getD a

def contains (m : OrderedMap κ α) (k : κ) : Bool := (m.get? k).isSome

def insert (m : OrderedMap κ α) (k : κ) (a : α) : OrderedMap κ α :=
  ⟨put k a m.entries, nodup_put m.nodup k a⟩

theorem get?_insert (m : OrderedMap κ α) (k k' : κ) (a : α) :
    (m.insert k a).get? k' = if k = k' then some a else m.get? k' :=
  lookup_put k a m.entries k'

theorem keys_insert (m : OrderedMap κ α) (k : κ) (a : α) :
    (m.insert k a).keys = if k ∈ m.keys then m.keys else m.keys ++ [k] :=
  keys_put k a m.entries

def insertNew (m : OrderedMap κ α) (k : κ) (a : α) : OrderedMap κ α :=
  if m.contains k then m else m.insert k a

def insertMany (m : OrderedMap κ α) (es : List (κ × α)) : OrderedMap κ α :=
  es.foldl (fun acc (k, a) => acc.insert k a) m

def update (m other : OrderedMap κ α) : OrderedMap κ α := m.insertMany other.entries

def ofList (es : List (κ × α)) : OrderedMap κ α := OrderedMap.empty.insertMany es

end Lookup

def mapValues (f : κ → α → β) (m : OrderedMap κ α) : OrderedMap κ β :=
  ⟨m.entries.map fun (k, a) => (k, f k a), by simpa [List.map_map, Function.comp_def] using m.nodup⟩

@[simp] theorem keys_mapValues (f : κ → α → β) (m : OrderedMap κ α) :
    (m.mapValues f).keys = m.keys := by
  simp [keys, mapValues, List.map_map, Function.comp_def]

def filter (p : κ → α → Bool) (m : OrderedMap κ α) : OrderedMap κ α :=
  ⟨m.entries.filter fun (k, a) => p k a, m.nodup.sublist (List.filter_sublist.map _)⟩

def modify [DecidableEq κ] (m : OrderedMap κ α) (k : κ) (f : α → α) : OrderedMap κ α :=
  m.mapValues fun k' a => if k' = k then f a else a

end OrderedMap

end CodeAtlas
