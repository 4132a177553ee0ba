import CodeAtlas.Proofs.ImportStatements
import CodeAtlas.Proofs.PlainCode

/-!
# Classes one after the other

A text is made of class declarations one after the other. Pairs of braces are gone before classes
are looked for, so a class whose body has no words reaches into the next one, and the last such
classes are not found at all. What is found is told by the names of the classes and by which bodies
have words (`Entities.extents`); if all of them do, these are the classes that are declared, each
with the words of its own declaration (`Scanner.scanFile_separateClasses`).
-/

namespace CodeAtlas

open Effect Spacing Chars

namespace Entities

variable {ws us vs rest : List String} {level : Int} {w : String} {ds : List (String × Bool)}

/-! ### Pairs of braces -/

theorem dropPairs_sublist (ws : List String) : (dropPairs ws).Sublist ws := by
  fun_induction dropPairs ws with
  | case1 => exact List.Sublist.refl _
  | case2 w => exact List.Sublist.refl _
  | case3 w v ws _ ih => exact (ih.cons v).cons w
  | case4 w v ws _ ih => exact ih.cons_cons w

theorem dropPairs_of_not_mem (h : "\x7b" ∉ ws) : dropPairs ws = ws := by
  fun_induction dropPairs ws with
  | case1 => rfl
  | case2 w => rfl
  | case3 w v ws hpair ih => exact absurd (hpair.1 ▸ List.mem_cons_self) h
  | case4 w v ws _ ih => rw [ih fun hmem => h (List.mem_cons_of_mem w hmem)]

theorem dropPairs_append (h : us.getLast? ≠ some "\x7b" ∨ vs.head? ≠ some "\x7d") :
    dropPairs (us ++ vs) = dropPairs us ++ dropPairs vs := by
  fun_induction dropPairs us with
  | case1 => rfl
  | case2 w =>
    cases vs with
    | nil => rfl
    | cons v vs =>
      have hpair : ¬ (w = "\x7b" ∧ v = "\x7d") := by
        rintro ⟨rfl, rfl⟩
        exact h.elim (fun h => h rfl) fun h => h rfl
      rw [List.singleton_append, dropPairs, if_neg hpair]
      rfl
  | case3 w v us hpair ih =>
    rw [List.cons_append, List.cons_append, dropPairs, if_pos hpair, ih]
    refine h.imp_left fun hlast hlast' => hlast ?_
    cases us with
    | nil => cases hlast'
    | cons u us => exact hlast'
  | case4 w v us hpair ih =>
    rw [List.cons_append, List.cons_append, dropPairs, if_neg hpair, ← List.cons_append, ih h]
    rfl

theorem exists_prefix_of_dropPairs (h : us <+: dropPairs ws) :
    ∃ vs, vs <+: ws ∧ balance vs = balance us := by
  fun_induction dropPairs ws generalizing us with
  | case1 => exact ⟨us, h, rfl⟩
  | case2 w => exact ⟨us, h, rfl⟩
  | case3 w v ws hpair ih =>
    obtain ⟨rfl, rfl⟩ := hpair
    obtain ⟨vs, hvs, hbalance⟩ := ih h
    refine ⟨"\x7b" :: "\x7d" :: vs, by simpa using hvs, ?_⟩
    rw [balance_cons, balance_cons "\x7d", hbalance, ← Int.add_assoc]
    exact Int.zero_add _
  | case4 w v ws _ ih =>
    cases us with
    | nil => exact ⟨[], List.nil_prefix, rfl⟩
    | cons u us =>
      obtain ⟨rfl, hus⟩ := List.cons_prefix_cons.mp h
      obtain ⟨vs, hvs, hbalance⟩ := ih hus
      exact ⟨u :: vs, List.cons_prefix_cons.mpr
        ⟨rfl, hvs⟩, by rw [balance_cons, hbalance, ← balance_cons]⟩

theorem balance_dropPairs (ws : List String) : balance (dropPairs ws) = balance ws := by
  fun_induction dropPairs ws with
  | case1 => rfl
  | case2 w => rfl
  | case3 w v ws hpair ih =>
    obtain ⟨rfl, rfl⟩ := hpair
    rw [ih, balance_cons, balance_cons "\x7d", ← Int.add_assoc]
    exact (Int.zero_add _).symm
  | case4 w v ws _ ih => rw [balance_cons, ih, ← balance_cons]

/-- Braces close only what has been opened, and all of it. -/
structure Balanced (ws : List String) : Prop where
  nonneg : ∀ us, us <+: ws → 0 ≤ balance us
  total : balance ws = 0

theorem balanced_iff : Balanced ws ↔ (∀ us ∈ ws.inits, 0 ≤ balance us) ∧ balance ws = 0 :=
  ⟨fun h => ⟨fun us hus => h.nonneg us ((List.mem_inits us ws).mp hus), h.total⟩,
    fun h => ⟨fun us hus => h.1 us ((List.mem_inits us ws).mpr hus), h.2⟩⟩

instance (ws : List String) : Decidable (Balanced ws) := decidable_of_iff _ balanced_iff.symm

theorem Balanced.dropPairs (h : Balanced ws) : Balanced (dropPairs ws) where
  nonneg := fun us hus => by
    obtain ⟨vs, hvs, hbalance⟩ := exists_prefix_of_dropPairs hus
    exact hbalance ▸ h.nonneg vs hvs
  total := (balance_dropPairs ws).trans h.total

theorem Balanced.head?_ne (h : Balanced ws) : ws.head? ≠ some "\x7d" := by
  intro hhead
  cases ws with
  | nil => cases hhead
  | cons w ws =>
    obtain rfl := Option.some.inj hhead
    exact absurd (h.nonneg ["\x7d"] (by simp)) (by decide)

theorem Balanced.getLast?_ne (h : Balanced ws) : ws.getLast? ≠ some "\x7b" := by
  intro hlast
  obtain ⟨us, rfl⟩ := List.getLast?_eq_some_iff.mp hlast
  have hbefore := h.nonneg us (List.prefix_append us _)
  have htotal := h.total
  rw [balance_append, show balance ["\x7b"] = 1 from rfl] at htotal
  omega

/-! ### Passing words -/

theorem scope_append (h : ∀ k, ¬ Closes level us k) (rest : List String) :
    scope level (us ++ rest) = us ++ scope (level + balance us) rest := by
  induction us generalizing level with
  | nil => rw [balance_nil, Int.add_zero]; rfl
  | cons u us ih =>
    rw [List.cons_append, scope_cons fun hu => h 0 (closes_zero.mpr hu),
      ih fun k hk => h (k + 1) (closes_succ.mpr hk), balance_cons u us, Int.add_assoc]
    rfl

theorem scope_append_of_not_mem (h : "\x7b" ∉ us) (h' : "\x7d" ∉ us) (rest : List String) :
    scope level (us ++ rest) = us ++ scope level rest := by
  have hbalance : balance us = 0 := by
    simp [balance, List.count_eq_zero_of_not_mem h, List.count_eq_zero_of_not_mem h']
  rw [scope_append (fun k hk => h' (List.mem_of_getElem? hk.1)), hbalance, Int.add_zero]

theorem Balanced.scope_append (h : Balanced us) (rest : List String) :
    scope 1 (us ++ rest) = us ++ scope 1 rest := by
  have hpass : ∀ k, ¬ Closes 1 us k := fun k hk => by
    have hnonneg := h.nonneg _ (List.take_prefix (k + 1) us)
    have hclosed := hk.2
    omega
  rw [Entities.scope_append hpass, h.total, Int.add_zero]

/-! ### Where classes are found -/

theorem scopesIn_cons (w : String) (ws : List String) : scopesIn (w :: ws) =
    (if w = "class" then ((classAt? (w :: ws) 0).map fun name => (name, scope 0 (w :: ws))).toList
      else []) ++ scopesIn ws := by
  rw [scopesIn, places_cons, List.filterMap_append, List.filterMap_map]
  congr 1
  by_cases hw : w = "class"
  · simp only [hw, beq_self_eq_true, if_true, List.filterMap_cons, List.filterMap_nil,
      List.drop_zero]
    cases classAt? ("class" :: ws) 0 <;> rfl
  · simp [hw]

theorem scopesIn_append_of_not_mem (h : "class" ∉ us) (vs : List String) :
    scopesIn (us ++ vs) = scopesIn vs := by
  induction us with
  | nil => rfl
  | cons u us ih =>
    obtain ⟨hu, hus⟩ := not_or.mp (mt List.mem_cons.mpr h)
    rw [List.cons_append, scopesIn_cons, if_neg (Ne.symm hu), List.nil_append, ih hus]

/-! ### Declarations -/

/-- A class declaration as words: a keyword, a name and a body in braces, with newlines after
each. -/
structure Declaration where
  name : String
  body : List String
  linesBefore : Nat
  linesBetween : Nat
  linesAfter : Nat
  alnum : ∀ c ∈ name.toList, Text.asciiAlnum c = true
  ne_empty : name ≠ ""
  ne_class : name ≠ "class"
  balanced : Balanced body
  class_not_mem : "class" ∉ body

/-- The classes that are found among declarations, which are given by their names and by whether
their bodies have words; and how many declarations the scope of each takes in. -/
def extents : List (String × Bool) → List (String × Nat)
  | [] => []
  | (name, true) :: ds => (name, 1) :: extents ds
  | (name, false) :: ds =>
    match extents ds with
    | [] => []
    | (next, n) :: rest => (name, n + 1) :: (next, n) :: rest

theorem extents_of_filled (h : ∀ d ∈ ds, d.2 = true) :
    extents ds = ds.map fun d => (d.1, 1) := by
  induction ds with
  | nil => rfl
  | cons d ds ih =>
    obtain ⟨name, filled⟩ := d
    obtain ⟨rfl, hds⟩ := List.forall_mem_cons.mp h
    rw [extents, ih hds]
    rfl

theorem map_fst_extents_sublist (ds : List (String × Bool)) :
    ((extents ds).map Prod.fst).Sublist (ds.map Prod.fst) := by
  fun_induction extents ds with
  | case1 => exact List.Sublist.refl _
  | case2 name ds ih => exact ih.cons_cons name
  | case3 name ds _ => exact List.nil_sublist _
  | case4 name ds next n rest heq ih =>
    rw [heq] at ih
    exact ih.cons_cons name

/-- Where all names are different, no class takes the place of another. -/
theorem entries_classesIn (hnames : (ds.map Prod.fst).Nodup)
    (h : (scopesIn ws).map (fun c => (c.1, c.2.count "class")) = extents ds) :
    (classesIn ws).entries = scopesIn ws := by
  have hfst : (scopesIn ws).map Prod.fst = (extents ds).map Prod.fst := by
    rw [← h, List.map_map]
    rfl
  refine OrderedMap.entries_ofList ?_
  rw [hfst]
  exact hnames.sublist (map_fst_extents_sublist ds)

namespace Declaration

variable (d : Declaration)

def newlines (n : Nat) : List String := List.replicate n "\n"

def title : List String := newlines d.linesBefore ++ d.name :: newlines d.linesBetween

def front : List String := "class" :: d.title

def words : List String := d.front ++ "\x7b" :: (d.body ++ "\x7d" :: newlines d.linesAfter)

def inner : List String := if d.body = [] then [] else "\x7b" :: (dropPairs d.body ++ ["\x7d"])

def kept : List String := d.front ++ (d.inner ++ newlines d.linesAfter)

def outline : String × Bool := (d.name, !d.body.isEmpty)

theorem not_mem_newlines {n : Nat} (h : w ≠ "\n") : w ∉ newlines n :=
  fun hmem => h (List.eq_of_mem_replicate hmem)

theorem count_newlines (n : Nat) : (newlines n).count "class" = 0 :=
  List.count_eq_zero_of_not_mem (not_mem_newlines (by decide))

theorem ne_of_not_alnum (h : ∃ c ∈ w.toList, Text.asciiAlnum c = false) : d.name ≠ w := by
  rintro rfl
  obtain ⟨c, hc, hodd⟩ := h
  rw [d.alnum c hc] at hodd
  cases hodd

theorem brace_not_mem_front : "\x7b" ∉ d.front ∧ "\x7d" ∉ d.front := by
  have hopen := d.ne_of_not_alnum (w := "\x7b") ⟨'\x7b', by decide, by decide⟩
  have hclose := d.ne_of_not_alnum (w := "\x7d") ⟨'\x7d', by decide, by decide⟩
  constructor <;> simp [front, title, not_mem_newlines, hopen.symm, hclose.symm]

theorem count_front : d.front.count "class" = 1 := by
  simp [front, title, count_newlines, d.ne_class]

theorem class_not_mem_dropPairs : "class" ∉ dropPairs d.body := fun hmem =>
  d.class_not_mem ((dropPairs_sublist _).subset hmem)

theorem dropPairs_words_append (hrest : rest.head? ≠ some "\x7d") :
    dropPairs (d.words ++ rest) = d.kept ++ dropPairs rest := by
  have hfront : dropPairs d.front = d.front := dropPairs_of_not_mem d.brace_not_mem_front.1
  have hlast : d.front.getLast? ≠ some "\x7b" :=
    fun h => d.brace_not_mem_front.1 (List.mem_of_getLast? h)
  have hlines : dropPairs (newlines d.linesAfter) = newlines d.linesAfter :=
    dropPairs_of_not_mem (not_mem_newlines (by decide))
  have hinner :
      dropPairs ("\x7b" :: (d.body ++ "\x7d" :: newlines d.linesAfter)) =
        d.inner ++ newlines d.linesAfter := by
    rw [inner]
    by_cases hbody : d.body = []
    · rw [if_pos hbody, hbody, List.nil_append, dropPairs, if_pos ⟨rfl, rfl⟩, hlines,
        List.nil_append]
    · have hhead : (d.body ++ "\x7d" :: newlines d.linesAfter).head? ≠ some "\x7d" := by
        rw [List.head?_append_of_ne_nil _ hbody]
        exact d.balanced.head?_ne
      have hopen : dropPairs (["\x7b"] ++ (d.body ++ "\x7d" :: newlines d.linesAfter)) =
          ["\x7b"] ++ dropPairs (d.body ++ "\x7d" :: newlines d.linesAfter) :=
        dropPairs_append (.inr hhead)
      have hclose : dropPairs ("\x7d" :: newlines d.linesAfter) = "\x7d" :: newlines d.linesAfter :=
        dropPairs_of_not_mem (by simp [not_mem_newlines])
      rw [if_neg hbody, ← List.singleton_append, hopen,
        dropPairs_append (.inl d.balanced.getLast?_ne), hclose]
      simp
  rw [words, kept, List.append_assoc, dropPairs_append (.inl hlast), hfront,
    dropPairs_append (.inr hrest), hinner]
  simp only [List.append_assoc]

theorem dropPairs_flatMap_words (ds : List Declaration) :
    dropPairs (ds.flatMap words) = ds.flatMap kept := by
  induction ds with
  | nil => rfl
  | cons d ds ih =>
    have hhead : (ds.flatMap words).head? ≠ some "\x7d" := by
      cases ds with
      | nil => simp
      | cons d ds => simp [words, front]
    rw [List.flatMap_cons, dropPairs_words_append d hhead, ih, List.flatMap_cons]

/-- A declaration is a class if a brace opens anywhere after its name. -/
theorem classAt?_front (vs : List String) :
    classAt? (d.front ++ vs) 0 = if "\x7b" ∈ vs then some d.name else none := by
  have hcode : pastNewlines (newlines d.linesBefore ++ (d.name :: newlines d.linesBetween ++ vs)) =
      d.name :: (newlines d.linesBetween ++ vs) := by
    have hne := d.ne_of_not_alnum (w := "\n") ⟨'\n', by decide, by decide⟩
    rw [pastNewlines, List.dropWhile_append_of_pos (by simp [newlines])]
    exact pastNewlines_cons hne _
  have hname := leading_eq_self.mpr d.alnum
  have hdrop : (d.front ++ vs).drop (0 + 1) =
      newlines d.linesBefore ++ (d.name :: newlines d.linesBetween ++ vs) := by
    simp [front, title]
  rw [classAt?, hdrop, hcode]
  simp [hname, d.ne_empty, not_mem_newlines]

theorem scope_front_append (vs : List String) : scope 0 (d.front ++ vs) = d.front ++ scope 0 vs :=
  scope_append_of_not_mem d.brace_not_mem_front.1 d.brace_not_mem_front.2 vs

theorem scopesIn_kept_append (rest : List String) : scopesIn (d.kept ++ rest) =
    (if "\x7b" ∈ d.inner ++ (newlines d.linesAfter ++ rest)
      then [(d.name, scope 0 (d.kept ++ rest))] else []) ++
      scopesIn rest := by
  have hkept : d.kept ++ rest = d.front ++ (d.inner ++ (newlines d.linesAfter ++ rest)) := by
    simp [kept]
  have hinner : "class" ∉ d.inner := by
    rw [inner]
    split_ifs
    · simp
    · simp [d.class_not_mem_dropPairs]
  have htail : "class" ∉ d.title ++ (d.inner ++ newlines d.linesAfter) := by
    simp [title, not_mem_newlines, hinner, Ne.symm d.ne_class]
  have hrest : scopesIn (d.title ++ (d.inner ++ (newlines d.linesAfter ++ rest))) =
      scopesIn rest := by
    rw [← scopesIn_append_of_not_mem htail rest, List.append_assoc, List.append_assoc]
  have hclass := d.classAt?_front (d.inner ++ (newlines d.linesAfter ++ rest))
  rw [front, List.cons_append] at hclass
  rw [hkept, front, List.cons_append, scopesIn_cons, if_pos rfl, hrest, hclass]
  split_ifs <;> rfl

theorem scope_kept_of_filled (hbody : d.body ≠ []) (rest : List String) :
    scope 0 (d.kept ++ rest) = d.front ++ "\x7b" :: dropPairs d.body := by
  have hkept :
      d.kept ++ rest = d.front ++ "\x7b" ::
        (dropPairs d.body ++ "\x7d" :: (newlines d.linesAfter ++ rest)) := by
    simp [kept, inner, hbody]
  rw [hkept, scope_front_append, scope_cons (by simp),
    show (0 : Int) + balance ["\x7b"] = 1 from rfl, d.balanced.dropPairs.scope_append, scope_close,
    List.append_nil]

/-- The scope of a class without words in its body goes on into what follows. -/
theorem scope_kept_of_blank (hbody : d.body = []) (rest : List String) :
    scope 0 (d.kept ++ rest) = d.kept ++ scope 0 rest := by
  have hkept : d.kept = d.front ++ newlines d.linesAfter := by simp [kept, inner, hbody]
  rw [hkept, List.append_assoc, scope_front_append,
    scope_append_of_not_mem (not_mem_newlines (by decide)) (not_mem_newlines (by decide)),
    List.append_assoc]

theorem count_kept_of_blank (hbody : d.body = []) : d.kept.count "class" = 1 := by
  simp [kept, inner, hbody, d.count_front, count_newlines]

theorem map_scopesIn_flatMap_kept (ds : List Declaration) :
    (scopesIn (ds.flatMap kept)).map (fun c => (c.1, c.2.count "class")) =
      extents (ds.map outline) ∧
    ("\x7b" ∈ ds.flatMap kept ↔ extents (ds.map outline) ≠ []) ∧
    ∀ c ∈ (extents (ds.map outline)).head?, c.2 = (scope 0 (ds.flatMap kept)).count "class" := by
  -- a blank body goes on into the rest, so the rest also has to tell whether a brace is left and
  -- how far its first scope goes
  induction ds with
  | nil => exact ⟨rfl, by simp [extents], by simp [extents]⟩
  | cons d ds ih =>
    obtain ⟨hmap, hbrace, hhead⟩ := ih
    rw [List.flatMap_cons, List.map_cons, d.scopesIn_kept_append, List.map_append, hmap]
    by_cases hbody : d.body = []
    · have houtline : d.outline = (d.name, false) := by simp [outline, hbody]
      have hinner : d.inner = [] := if_pos hbody
      have hopen : "\x7b" ∈ d.kept ++ ds.flatMap kept ↔ "\x7b" ∈ ds.flatMap kept := by
        simp [kept, hinner, d.brace_not_mem_front.1, not_mem_newlines]
      have hnext : "\x7b" ∈ d.inner ++ (newlines d.linesAfter ++ ds.flatMap kept) ↔
          "\x7b" ∈ ds.flatMap kept := by
        simp [hinner, not_mem_newlines]
      rw [houtline, extents, hopen, hbrace]
      simp only [hnext, hbrace]
      cases hextents : extents (ds.map outline) with
      | nil => simp
      | cons c rest =>
        obtain ⟨next, n⟩ := c
        rw [hextents] at hhead
        have hn : n = (scope 0 (ds.flatMap kept)).count "class" := hhead _ rfl
        have hcount : (scope 0 (d.kept ++ ds.flatMap kept)).count "class" = n + 1 := by
          rw [d.scope_kept_of_blank hbody, List.count_append, d.count_kept_of_blank hbody, ← hn,
            Nat.add_comm]
        simp [hcount]
    · have houtline : d.outline = (d.name, true) := by simp [outline, hbody]
      have hinner : "\x7b" ∈ d.inner := by simp [inner, hbody]
      have hcount : (scope 0 (d.kept ++ ds.flatMap kept)).count "class" = 1 := by
        have hclass := List.count_eq_zero_of_not_mem d.class_not_mem_dropPairs
        rw [d.scope_kept_of_filled hbody, List.count_append, d.count_front]
        simp [hclass]
      have hopen : "\x7b" ∈ d.kept := by simp [kept, hinner]
      rw [houtline, extents]
      simp [hinner, hopen, hcount]

theorem quiet_words (hbody : Quiet true d.body) : Quiet true d.words := by
  have hname : '/' ∉ d.name.toList := fun hmem => absurd (d.alnum '/' hmem) (by decide)
  have hline : ∀ n, ∀ w ∈ newlines n, '/' ∉ w.toList := fun n w hw => by
    rw [List.eq_of_mem_replicate hw]
    decide
  have hfront : ∀ w ∈ d.front, '/' ∉ w.toList := by
    intro w hw
    rcases List.mem_cons.mp hw with rfl | hw
    · decide
    rcases List.mem_append.mp hw with hw | hw
    · exact hline _ w hw
    rcases List.mem_cons.mp hw with rfl | hw
    · exact hname
    · exact hline _ w hw
  have hend : ∀ w ∈ "\x7d" :: newlines d.linesAfter, '/' ∉ w.toList :=
    List.forall_mem_cons.mpr ⟨by decide, hline _⟩
  have hopen : Quiet true ["\x7b"] := .of_not_mem (by decide)
  exact Quiet.append (.of_not_mem hfront) (hopen.append (hbody.append (.of_not_mem hend)))

theorem exists_chop_flatMap_words (ds : List Declaration) :
    ∃ ds' : List Declaration, ds'.map outline = ds.map outline ∧
      chop "\n" (ds.flatMap words) = ds'.flatMap words := by
  rcases List.eq_nil_or_concat ds with rfl | ⟨ds, d, rfl⟩
  · exact ⟨[], rfl, rfl⟩
  rw [List.concat_eq_append]
  -- the words end with a newline exactly if some come after the last declaration
  cases hlines : d.linesAfter with
  | zero =>
    refine ⟨ds ++ [d], rfl, chop_of_ne ?_⟩
    have hlast : (ds ++ [d]).flatMap words =
        (ds.flatMap words ++ (d.front ++ "\x7b" :: d.body)) ++ ["\x7d"] := by
      simp [words, hlines, newlines]
    rw [hlast, List.getLast?_concat]
    decide
  | succ n =>
    refine ⟨ds ++ [{ d with linesAfter := n }], by simp [outline], ?_⟩
    have hlast : (ds ++ [d]).flatMap words =
        (ds ++ [{ d with linesAfter := n }]).flatMap words ++ ["\n"] := by
      simp [words, front, title, hlines, newlines, List.replicate_succ']
    rw [hlast, chop_concat]

theorem map_scopesIn_scopeWords {ds : List Declaration} (hws : Pieces plainMarks (ds.flatMap words))
    (hquiet : Quiet true (ds.flatMap words)) :
    scopeWords (ds.flatMap words) ≠ ["class"] ∧
    Imports.codeWords .java (ds.flatMap words) ≠ ["import"] ∧
    (scopesIn (scopeWords (ds.flatMap words))).map (fun c => (c.1, c.2.count "class")) =
      extents (ds.map outline) := by
  obtain ⟨ds', houtline, hchop⟩ := exists_chop_flatMap_words ds
  have hmap := (map_scopesIn_flatMap_kept ds').1
  rw [houtline] at hmap
  cases ds with
  | nil => exact ⟨by decide +kernel, by decide +kernel, by decide +kernel⟩
  | cons d ds =>
    obtain ⟨ws, hcons⟩ : ∃ ws, (d :: ds).flatMap words = "class" :: ws := ⟨_, rfl⟩
    rw [hcons] at hws hquiet hchop ⊢
    have hscope : scopeWords ("class" :: ws) = ds'.flatMap kept := by
      rw [scopeWords_cons (by decide) (by decide) hws hquiet, ← dropPairs_flatMap_words, ← hchop,
        chop_cons (.inr (by decide))]
      have hclass : dropPairs (["class"] ++ chop "\n" ws) = ["class"] ++ dropPairs (chop "\n" ws) :=
        dropPairs_append (.inl (by decide))
      exact hclass.symm
    have hcode : Imports.codeWords .java ("class" :: ws) = "class" :: chop "\n" ws :=
      CommentMarks.words_strip (by decide) hws hquiet
    refine ⟨?_, by simp [hcode], by rw [hscope, hmap]⟩
    rw [hscope]
    intro h
    cases ds' with
    | nil => cases h
    | cons d' ds' => simpa [kept, front, title] using congrArg List.length h

end Declaration

/-! ### Texts -/

/-- The text of a class declaration: a keyword, a name and a body in braces, with blanks after each.
The braces in the body are balanced, and it holds neither comments nor the keyword. -/
structure ClassText where
  name : String
  body : String
  before : String
  between : String
  after : String
  alnum : ∀ c ∈ name.toList, Text.asciiAlnum c = true
  ne_empty : name ≠ ""
  ne_class : name ≠ "class"
  balanced : Balanced (withQuotes.words body)
  class_not_mem : "class" ∉ withQuotes.words body
  uncommented : ∀ line ∈ splitOn '\n' body.toList, CommentMarks.cStyle.role line = .plain
  before_ne : before ≠ ""
  before_blank : ∀ c ∈ before.toList, Text.isBlank c = true
  between_blank : ∀ c ∈ between.toList, Text.isBlank c = true
  after_blank : ∀ c ∈ after.toList, Text.isBlank c = true

namespace ClassText

variable (d : ClassText)

def chars : List Char :=
  "class".toList ++ (d.before.toList ++ (d.name.toList ++ (d.between.toList ++
    '\x7b' :: (d.body.toList ++ '\x7d' :: d.after.toList))))

def declaration : Declaration where
  name := d.name
  body := withQuotes.words d.body
  linesBefore := d.before.toList.count '\n'
  linesBetween := d.between.toList.count '\n'
  linesAfter := d.after.toList.count '\n'
  alnum := d.alnum
  ne_empty := d.ne_empty
  ne_class := d.ne_class
  balanced := d.balanced
  class_not_mem := d.class_not_mem

theorem cut_chars_append (rest : List Char) : cut quoteMarks (d.chars ++ rest) =
    d.declaration.words.map String.toList ++ cut quoteMarks rest := by
  have hclass : Chars.Piece quoteMarks "class".toList := .of_run (by decide) (by decide)
  have hname : Chars.Piece quoteMarks d.name.toList :=
    .of_run (fun h => d.ne_empty (String.toList_eq_nil_iff.mp h))
      fun c hc => isBreak_of_asciiAlnum (d.alnum c hc)
  have hchars : d.chars ++ rest =
      "class".toList ++ (d.before.toList ++ (d.name.toList ++ (d.between.toList ++
      '\x7b' :: (d.body.toList ++ '\x7d' :: (d.after.toList ++ rest))))) := by
    simp [chars]
  have hbrace : ∀ cs : List Char, ∀ c ∈ ('\x7b' :: cs).head?, isBreak quoteMarks c = true := by
    simp; decide
  have hbefore : d.before.toList ≠ [] := fun h => d.before_ne (String.toList_eq_nil_iff.mp h)
  rw [hchars,
    hclass.cut_append (isBreak_of_mem_head?_append d.before_blank fun h => absurd h hbefore),
    cut_blank_append d.before_blank,
    hname.cut_append (isBreak_of_mem_head?_append d.between_blank fun _ => hbrace _),
    cut_blank_append d.between_blank, cut_mark (by decide) (by decide), cut_append _
      (by simp; decide), cut_mark (by decide) (by decide), cut_blank_append d.after_blank]
  simp [declaration, Declaration.words, Declaration.front, Declaration.title, Declaration.newlines,
    words_withQuotes, Function.comp_def]

theorem body_declaration : d.declaration.body = withQuotes.words d.body := by rw [declaration]

/-- Whether there is something between the braces, be it only a newline. -/
def hasWords : Bool := !(withQuotes.words d.body).isEmpty

theorem outline_declaration : d.declaration.outline = (d.name, d.hasWords) := by
  rw [Declaration.outline, body_declaration, hasWords, declaration]

theorem quiet_words : Quiet true d.declaration.words := by
  refine d.declaration.quiet_words ?_
  rw [body_declaration, words_withQuotes]
  exact CommentMarks.quiet_words d.uncommented

theorem fileWords_eq {content : String} {ds : List ClassText}
    (h : content.toList = ds.flatMap chars) :
    Language.java.fileSpacing.words content = (ds.map declaration).flatMap Declaration.words := by
  have hcut : cut quoteMarks (ds.flatMap chars) =
      ((ds.map declaration).flatMap Declaration.words).map String.toList := by
    clear h
    induction ds with
    | nil => rfl
    | cons d ds ih =>
      rw [List.flatMap_cons, cut_chars_append, ih, List.map_cons, List.flatMap_cons,
        List.map_append]
  change withQuotes.words content = _
  rw [words_withQuotes, h, hcut, List.map_map]
  simp [Function.comp_def]

theorem quiet_flatMap_words (ds : List ClassText) :
    Quiet true ((ds.map declaration).flatMap Declaration.words) := by
  induction ds with
  | nil => trivial
  | cons d ds ih => exact d.quiet_words.append ih

end ClassText

end Entities

namespace Scanner

open Entities

variable {file : SourceFile} {t : ScanState} {source : String} {h m : Int} {words : List String}

theorem exists_scanFile_words (ctx : ScanContext) (hsource : ctx.settings.source = .text source)
    (hlanguage : t.scanner.language = .java) (hh : t.statistics.count? .parsingHits = some h)
    (hm : t.statistics.count? .parsingMisses = some m)
    (hignore : ∀ d, ∃ b, ctx.settings.filters.ignoresDependency d = .ok b)
    (hwords : Language.java.fileSpacing.words file.content = words) (hpackage : words ≠ ["package"])
    (himport : Imports.codeWords .java words ≠ ["import"]) :
    ∃ r t₁, scanFile ctx file t = .ok r t₁ ∧ r.words = words ∧ t₁.statistics.Countable := by
  have hpieces := hwords ▸ pieces_fileWords file.content
  obtain ⟨st₁, hst₁, hh₁, hm₁⟩ := exists_packageOf hpackage hpieces hh hm
  obtain ⟨st₂, hst₂, hh₂, hm₂⟩ :=
    Imports.exists_java ctx himport (pieces_codeWords _) hh₁ hm₁ fun _ _ d _ => hignore d
  obtain ⟨r, hscan, -, -, hr⟩ := exists_scanFile_of_passes hsource hlanguage hwords hst₁ hst₂
  exact ⟨r, _, hscan, hr, Statistics.countable_of_count? hh₂ hm₂⟩

/-- A file that is made of class declarations one after the other is scanned, and its entities are
the classes with words in their bodies, each with its own declaration; a class without words in its
body takes in what follows, up to the next body with words, if there is one. So where all bodies
have words, the entities are the classes in their order, and each holds the keyword once. -/
theorem scanFile_separateClasses (ctx : ScanContext) (file : SourceFile) (t : ScanState)
    (source : String) (h m : Int) (ds : List ClassText)
    (hsource : ctx.settings.source = .text source) (hlanguage : t.scanner.language = .java)
    (hh : t.statistics.count? .parsingHits = some h) (hm : t.statistics.count? .parsingMisses =
      some m) (hignore : ∀ d, ∃ b, ctx.settings.filters.ignoresDependency d = .ok b)
    (hcontent : file.content.toList = ds.flatMap ClassText.chars)
    (hnames : (ds.map ClassText.name).Nodup) :
    ∃ r t₁ es st, scanFile ctx file t = .ok r t₁ ∧
      scanClasses r t₁ = .ok () (withEntities t₁ es st) ∧
      es.map (fun e => (e.displayName, e.words.count "class")) =
        extents (ds.map fun d => (d.name, d.hasWords)) ∧
      ((∀ d ∈ ds, d.hasWords = true) →
        es.map ScanResult.displayName = ds.map ClassText.name ∧
        ∀ e ∈ es, e.words.count "class" = 1) := by
  have hwords := ClassText.fileWords_eq hcontent
  have hpieces := hwords ▸ pieces_fileWords file.content
  obtain ⟨hne, himport, hmap⟩ :=
    Declaration.map_scopesIn_scopeWords hpieces (ClassText.quiet_flatMap_words ds)
  have hpackage : (ds.map ClassText.declaration).flatMap Declaration.words ≠ ["package"] := by
    cases ds with
    | nil => simp
    | cons d ds => simp [Declaration.words, Declaration.front]
  obtain ⟨r, t₁, hscan, hr, hcount⟩ :=
    exists_scanFile_words ctx hsource hlanguage hh hm hignore hwords hpackage himport
  rw [← hr] at hne hmap
  obtain ⟨es, hes, hclasses⟩ := exists_ofFile_classes hne
  obtain ⟨st, hst, -⟩ := scanClasses_of_ofFile hes hcount
  have houtlines : (ds.map ClassText.declaration).map Declaration.outline =
      ds.map fun d => (d.name, d.hasWords) := by
    rw [List.map_map]
    exact List.map_congr_left fun d _ => d.outline_declaration
  rw [houtlines] at hmap
  have hentries := entries_classesIn (by rwa [List.map_map]) hmap
  have hfound :
      es.map (fun e => (e.displayName, e.words.count "class")) =
        extents (ds.map fun d => (d.name, d.hasWords)) := by
    rw [← hmap, ← hentries, ← hclasses, List.map_map]
    rfl
  refine ⟨r, t₁, es, st, hscan, hst, hfound, fun hfilled => ?_⟩
  rw [extents_of_filled (by simpa using hfilled), List.map_map] at hfound
  constructor
  · have hfst := congrArg (List.map Prod.fst) hfound
    rwa [List.map_map, List.map_map] at hfst
  · intro e he
    have hmem : (e.displayName, e.words.count "class") ∈
        es.map fun e => (e.displayName, e.words.count "class") :=
      List.mem_map_of_mem he
    rw [hfound] at hmem
    obtain ⟨d, -, hd⟩ := List.mem_map.mp hmem
    exact (Prod.mk.inj hd).2.symm

end Scanner

namespace Sample

open Entities

def methodClass : ClassText where
  name := "A"
  body := "\n  int f() \x7b return 1; \x7d\n"
  before := " "
  between := " "
  after := "\n"
  alnum := by decide
  ne_empty := by decide
  ne_class := by decide
  balanced := by decide +kernel
  class_not_mem := by decide +kernel
  uncommented := by decide +kernel
  before_ne := by decide
  before_blank := by decide
  between_blank := by decide
  after_blank := by decide

def blankClass : ClassText :=
  { methodClass with
    name := "B", body := " ", alnum := by decide, ne_empty := by decide, ne_class := by decide
    balanced := by decide +kernel
    class_not_mem := by decide +kernel
    uncommented := by decide +kernel }

def fieldClass : ClassText :=
  { methodClass with
    name := "C", body := " int x; "
    alnum := by decide, ne_empty := by decide, ne_class := by decide
    balanced := by decide +kernel
    class_not_mem := by decide +kernel
    uncommented := by decide +kernel }

def separateFile (ds : List ClassText) : Scanner.SourceFile where
  name := "A.java"
  path := "/w/proj/A.java"
  content := String.ofList (ds.flatMap ClassText.chars)

theorem scanFile_separateClasses_sample : ∃ r t₁ es st,
    Scanner.scanFile classContext (separateFile [methodClass, blankClass, fieldClass]) javaScanner =
      .ok r t₁ ∧
    Scanner.scanClasses r t₁ = .ok () (Scanner.withEntities t₁ es st) ∧
    es.map (fun e => (e.displayName, e.words.count "class")) = [("A", 1), ("B", 2), ("C", 1)] := by
  have hextents :
      extents ([methodClass, blankClass, fieldClass].map fun d => (d.name, d.hasWords)) =
      [("A", 1), ("B", 2), ("C", 1)] := by decide +kernel
  obtain ⟨r, t₁, es, st, hscan, hst, hes, -⟩ := Scanner.scanFile_separateClasses classContext
    (separateFile [methodClass, blankClass, fieldClass]) javaScanner "/w/proj" 0 0
      [methodClass, blankClass, fieldClass]
    rfl rfl rfl rfl (fun _ => ⟨false, rfl⟩) String.toList_ofList (by decide)
  exact ⟨r, t₁, es, st, hscan, hst, hes.trans hextents⟩

/-- A class with a blank body takes in the class after it. -/
theorem scanFile_blankClass : ∃ r t₁ es st,
    Scanner.scanFile classContext (separateFile [blankClass, fieldClass]) javaScanner = .ok r t₁ ∧
    Scanner.scanClasses r t₁ = .ok () (Scanner.withEntities t₁ es st) ∧
    es.map (fun e => (e.displayName, e.words.count "class")) = [("B", 2), ("C", 1)] := by
  have hwords : Language.java.fileSpacing.words (separateFile [blankClass, fieldClass]).content =
      ["class", "B", "\x7b", "\x7d", "\n", "class", "C", "\x7b", "int", "x", ";", "\x7d",
        "\n"] := by decide +kernel
  obtain ⟨r, t₁, hscan, hr, hcount⟩ :=
    Scanner.exists_scanFile_words classContext (t := javaScanner) (h := 0) (m := 0)
    rfl rfl rfl rfl (fun _ => ⟨false, rfl⟩) hwords (by decide) (by decide +kernel)
  obtain ⟨hne, hclasses⟩ : scopeWords r.words ≠ ["class"] ∧
      (classesIn (scopeWords r.words)).entries.map (fun c => (c.1, c.2.count "class")) =
        [("B", 2), ("C", 1)] := by
    rw [hr]
    decide +kernel
  obtain ⟨es, hes, hentries⟩ := exists_ofFile_classes hne
  obtain ⟨st, hst, -⟩ := Scanner.scanClasses_of_ofFile hes hcount
  refine ⟨r, t₁, es, st, hscan, hst, ?_⟩
  rw [← hclasses, ← hentries, List.map_map]
  rfl

end Sample

end CodeAtlas
