import CodeAtlas.Proofs.Entities
import CodeAtlas.Proofs.Phrases
import CodeAtlas.Proofs.Tallies

/-!
# Keywords and what follows them

A scanner looks at every place of a keyword. The last word of a list is seen with itself in place of
what follows, which makes no phrase; so what is found at each place is told by the words after it
(`Mention.all_eq`). Counting these mentions adds the number of places with a phrase to the hits and
the number of the others to the misses (`Tallied.exists_forM_tally`).
-/

namespace CodeAtlas

open Effect Mention

variable {k : String} {ws : List String}

/-! ### Places of a word -/

def places (k : String) (ws : List String) : List Nat :=
  (List.range ws.length).filter fun i => ws[i]? == some k

def following (k : String) : List String → List (List String)
  | [] => []
  | w :: ws => if w == k then ws :: following k ws else following k ws

theorem mem_places {i : Nat} : i ∈ places k ws ↔ ws[i]? = some k := by
  rw [places, List.mem_filter, List.mem_range, beq_iff_eq]
  refine and_iff_right_of_imp fun h => ?_
  exact (List.getElem?_eq_some_iff.mp h).1

theorem places_cons (w : String) (ws : List String) :
    places k (w :: ws) = (if w == k then [0] else []) ++ (places k ws).map (· + 1) := by
  rw [places, List.length_cons, List.range_succ_eq_map, List.filter_cons, List.filter_map]
  have htail : (List.range ws.length).filter ((fun i => (w :: ws)[i]? == some k) ∘ Nat.succ) =
      places k ws := by
    simp [places, Function.comp_def]
  rw [htail]
  by_cases hw : w = k <;> simp [hw]

theorem following_eq_map_places (k : String) (ws : List String) :
    following k ws = (places k ws).map fun i => ws.drop (i + 1) := by
  induction ws with
  | nil => rfl
  | cons w ws ih =>
    rw [following, places_cons, List.map_append, List.map_map, ih]
    by_cases hw : w = k <;> simp [hw, Function.comp_def]

theorem length_places (k : String) (ws : List String) : (places k ws).length = ws.count k := by
  induction ws with
  | nil => rfl
  | cons w ws ih =>
    rw [places_cons, List.length_append, List.length_map, ih, List.count_cons]
    split_ifs <;> simp [Nat.add_comm]

/-! ### Sightings -/

namespace Mention

variable {α : Type}

theorem filter_ahead (k : String) (ws : List String) :
    (Window.ahead ws).filter (fun sight => sight.1 == k) =
      (following k ws).map fun rest => (k, if rest.isEmpty then [k] else rest) := by
  fun_induction Window.ahead ws with
  | case1 => rfl
  | case2 w =>
    by_cases hw : w = k <;> simp [following, hw]
  | case3 w ws hne ih =>
    have hws : ws ≠ [] := fun hnil => hne hnil
    rw [List.filter_cons, ih, following]
    by_cases hw : w = k
    · simp [hw, hws]
    · simp [hw]

theorem mapM_map_eq_ok {β : Type} {f : α → β} {g : β → Except Fault α} (h : ∀ a, g (f a) = .ok a)
    (xs : List α) : (xs.map f).mapM g = .ok xs := by
  induction xs with
  | nil => rfl
  | cons x xs ih => exact mapM_cons_eq_ok.mpr ⟨x, xs, h x, ih, rfl⟩

theorem sightings_eq (h : ws ≠ [k]) :
    sightings (· == k) ws =
      .ok ((following k ws).map fun rest => (k, if rest.isEmpty then [k] else rest)) := by
  have hread : (Window.readAhead ws).filter (fun sight => sight.1 == k) =
      ((following k ws).map fun rest => (k, if rest.isEmpty then [k] else rest)).map
        fun sight => (sight.1, some sight.2) := by
    rw [← filter_ahead, Window.readAhead.eq_def]
    split
    · next w =>
      have hw : w ≠ k := fun heq => h (heq ▸ rfl)
      simp [Window.ahead, hw]
    · rw [List.filter_map]
      rfl
  refine (congrArg (List.mapM _) hread).trans (mapM_map_eq_ok ?_ _)
  exact fun _ => rfl

/-- What is made of the sightings of a keyword, where it is told by the words after each place. -/
theorem exists_sightings_map {β : Type} {g : String → List String → β} {f : List String → β}
    (h : ws ≠ [k]) (hlast : g k [k] = f [])
    (hrest : ∀ rest, (∀ w ∈ rest, w ∈ ws) → g k rest = f rest) :
    ∃ seen, sightings (· == k) ws = .ok seen ∧
      seen.map (fun sight => g sight.1 sight.2) =
        (places k ws).map fun i => f (ws.drop (i + 1)) := by
  refine ⟨_, sightings_eq h, ?_⟩
  rw [following_eq_map_places, List.map_map, List.map_map]
  refine List.map_congr_left fun i _ => ?_
  have hsub : ∀ w ∈ ws.drop (i + 1), w ∈ ws := fun w hw => List.mem_of_mem_drop hw
  cases hcase : ws.drop (i + 1) with
  -- nothing follows, and the keyword is seen with itself
  | nil => simp [hcase, hlast]
  | cons w rest => simp [hcase, hrest (w :: rest) (hcase ▸ hsub)]

/-- What a phrase finds at each place of a keyword. The keyword itself makes no phrase. -/
theorem all_eq (phrase : String → String → Option α) {f : List String → Option α} (h : ws ≠ [k])
    (hphrase : ∀ rest, (∀ w ∈ rest, w ∈ ws) → phrase k (joinWords (k :: rest)) = f rest)
    (hnil : f [] = none) (hself : phrase k (joinWords [k, k]) = none) :
    all (· == k) phrase ws = .ok ((places k ws).map fun i => .ofOption (f (ws.drop (i + 1)))) := by
  obtain ⟨seen, hseen, hmap⟩ :=
    exists_sightings_map (g := fun word rest => .ofOption (phrase word (joinWords (word :: rest))))
      (f := fun rest => ofOption (f rest)) h (by rw [hself, hnil]) fun rest hsub => by
        rw [hphrase rest hsub]
  rw [all, hseen]
  exact congrArg Except.ok hmap

end Mention

/-! ### Counting -/

/-- The whole number that has been counted, which is zero where nothing has been recorded. -/
def Statistic.count? : Option Statistic → Option Int
  | none => some 0
  | some (.figure (.int n)) => some n
  | some (.figure (.bool b)) => some b.toInt
  | some _ => none

/-- The whole number that has been counted under a key. -/
def Statistics.count? (st : Statistics) (key : StatisticKey) :
    Option Int := Statistic.count? (st.entries.get? key.name)

theorem Statistic.exists_next {v : Option Statistic} {n : Int} (h : count? v = some n) :
    ∃ w, next v = .ok w ∧ count? (some w) = some (n + 1) := by
  rw [count?.eq_def] at h
  split at h
  · obtain rfl := Option.some.inj h
    exact ⟨_, rfl, rfl⟩
  · obtain rfl := Option.some.inj h
    exact ⟨_, rfl, rfl⟩
  · next b =>
    obtain rfl := Option.some.inj h
    exact ⟨_, rfl, by cases b <;> rfl⟩
  · cases h

variable {st : Statistics}

theorem Statistics.countable_of_count? {h m : Int} (hh : st.count? .parsingHits = some h)
    (hm : st.count? .parsingMisses = some m) : st.Countable := by
  intro mention
  cases mention with
  | hit a => exact (Statistic.exists_next hh).imp fun _ hv => hv.1
  | miss => exact (Statistic.exists_next hm).imp fun _ hv => hv.1

theorem Statistics.count?_insert_of_ne {key key' : StatisticKey} (h : key ≠ key') (v : Statistic) :
    count? ⟨st.entries.insert key.name v⟩ key' = st.count? key' := by
  rw [count?, OrderedMap.get?_insert, if_neg fun hname => h (StatisticKey.name_injective hname)]
  rfl

theorem Statistics.count?_insert_self {key : StatisticKey} (v : Statistic) :
    count? ⟨st.entries.insert key.name v⟩ key = Statistic.count? (some v) := by
  rw [count?, OrderedMap.get?_insert, if_pos rfl]

namespace Tallied

variable {st : Statistics} {h m : Int}

theorem exists_tally (hh : st.count? .parsingHits = some h) (hm : st.count? .parsingMisses = some m)
    (mention : Mention Unit) : ∃ st', tally mention st = .ok () st' ∧
      st'.count? .parsingHits = some (h + [mention].count (.hit ())) ∧
      st'.count? .parsingMisses = some (m + [mention].count .miss) := by
  cases mention with
  | hit a =>
    obtain ⟨v, hv, hcount⟩ := Statistic.exists_next hh
    refine ⟨_, tally_eq_ok_iff.mpr ⟨v, hv, rfl⟩, ?_, ?_⟩
    · rw [key, Statistics.count?_insert_self, hcount]
      rfl
    · rw [key, Statistics.count?_insert_of_ne (by decide), hm]
      simp
  | miss =>
    obtain ⟨v, hv, hcount⟩ := Statistic.exists_next hm
    refine ⟨_, tally_eq_ok_iff.mpr ⟨v, hv, rfl⟩, ?_, ?_⟩
    · rw [key, Statistics.count?_insert_of_ne (by decide), hh]
      simp
    · rw [key, Statistics.count?_insert_self, hcount]
      rfl

theorem exists_forM_tally (hh : st.count? .parsingHits = some h)
    (hm : st.count? .parsingMisses = some m) (ms : List (Mention Unit)) :
    ∃ st', ms.forM tally st = .ok () st' ∧
      st'.count? .parsingHits = some (h + ms.count (.hit ())) ∧
      st'.count? .parsingMisses = some (m + ms.count .miss) := by
  induction ms generalizing st h m with
  | nil => exact ⟨st, rfl, by simpa using hh, by simpa using hm⟩
  | cons mention ms ih =>
    obtain ⟨st₁, hst₁, hh₁, hm₁⟩ := exists_tally hh hm mention
    obtain ⟨st₂, hst₂, hh₂, hm₂⟩ := ih hh₁ hm₁
    have hcount : ∀ m : Mention Unit,
        (mention :: ms).count m = [mention].count m + ms.count m := fun m => by
      rw [← List.singleton_append, List.count_append]
    refine ⟨st₂, bind_eq_ok.mpr ⟨(), st₁, hst₁, hst₂⟩, ?_, ?_⟩
    · rw [hh₂, hcount, Int.natCast_add, Int.add_assoc]
    · rw [hm₂, hcount, Int.natCast_add, Int.add_assoc]

variable {ι α β : Type}

theorem collect_congr {step step' : α → Tallied (List β)} {mentions : List (Mention α)}
    (hstep : ∀ a, .hit a ∈ mentions → step a = step' a) :
    collect step mentions = collect step' mentions := by
  induction mentions with
  | nil => rfl
  | cons mention mentions ih =>
    have hrest := ih fun a ha => hstep a (List.mem_cons_of_mem _ ha)
    cases mention with
    | hit a =>
      have ha := hstep a List.mem_cons_self
      simp only [collect, hrest, ha]
    | miss => rw [collect, collect, hrest]

theorem filterMap_found? (xs : List ι) (f : ι → Option α) :
    (xs.map fun x => ofOption (f x)).filterMap found? = xs.filterMap f := by
  rw [List.filterMap_map]
  refine List.filterMap_congr fun x _ => ?_
  change (ofOption (f x)).found? = f x
  cases f x <;> rfl

/-- Collecting what is found at each of some places counts those at which something is found as
hits. -/
theorem exists_collect (step : α → Tallied (List β)) {g : α → List β}
    (hh : st.count? .parsingHits = some h) (hm : st.count? .parsingMisses = some m) (xs : List ι)
    (f : ι → Option α) (hstep : ∀ x ∈ xs, ∀ a, f x = some a → step a = pure (g a)) :
    ∃ st', collect step (xs.map fun x => .ofOption (f x)) st =
      .ok ((xs.filterMap f).flatMap g) st' ∧
      st'.count? .parsingHits = some (h + xs.countP fun x => (f x).isSome) ∧
      st'.count? .parsingMisses = some (m + xs.countP fun x => (f x).isNone) := by
  have hpure : collect step (xs.map fun x => .ofOption (f x)) =
      collect (fun a => pure (g a)) (xs.map fun x => .ofOption (f x)) := by
    refine collect_congr fun a ha => ?_
    obtain ⟨x, hx, hfound⟩ := List.mem_map.mp ha
    refine hstep x hx a ?_
    cases hfx : f x with
    | none => simp [hfx, ofOption] at hfound
    | some b => simpa [hfx, ofOption] using hfound
  obtain ⟨st', hst', hh', hm'⟩ :=
    exists_forM_tally hh hm ((xs.map fun x => ofOption (f x)).map bare)
  have hhits : ((xs.map fun x => ofOption (f x)).map bare).count (.hit ()) =
      xs.countP fun x => (f x).isSome := by
    rw [List.map_map, List.count, List.countP_map]
    refine List.countP_congr fun x _ => ?_
    cases hfx : f x <;> simp [hfx, ofOption, bare]
  have hmisses :
      ((xs.map fun x => ofOption (f x)).map bare).count .miss =
        xs.countP fun x => (f x).isNone := by
    rw [List.map_map, List.count, List.countP_map]
    refine List.countP_congr fun x _ => ?_
    cases hfx : f x <;> simp [hfx, ofOption, bare]
  refine ⟨st', ?_, hhits ▸ hh', hmisses ▸ hm'⟩
  rw [hpure, collect_pure, filterMap_found?]
  exact script_eq_ok_iff.mpr ⟨rfl, hst'⟩

end Tallied

end CodeAtlas
