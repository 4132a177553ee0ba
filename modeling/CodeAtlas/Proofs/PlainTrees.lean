import CodeAtlas.Proofs.Paths

/-!
# Trees without links

A tree is `Plain` if it holds no links and every directory in it holds different names, each of
which can stand on a path. In such a tree a path that `Spells` a place leads to it and nowhere else:
looking it up follows the names one by one (`Plain.stat?_eq_some_iff`), no path is a link
(`Plain.not_pathIsLink`), and the real place of any path is found from its names alone
(`Disk.resolve?_eq_lexicalPlace`), whether anything is there or not.
-/

namespace CodeAtlas

open Chars

namespace FileTree

/-- A name that an entry of a directory can have. Half of a character counts as four bytes. -/
structure EntryName (name : String) : Prop extends PathName name where
  short : name.utf8ByteSize ≤ maxName

instance (name : String) : Decidable (EntryName name) :=
  decidable_of_iff (PathName name ∧ name.utf8ByteSize ≤ maxName)
    ⟨fun ⟨h, hs⟩ => ⟨h, hs⟩, fun ⟨h, hs⟩ => ⟨h, hs⟩⟩

/-- A tree without links, as a file system holds it. -/
inductive Plain : FileTree → Prop
  | file (content : ByteArray) : Plain (.file content)
  | dir (es : List (String × FileTree)) (nodup : (es.map Prod.fst).Nodup)
    (names : ∀ e ∈ es, EntryName e.1)
      (subs : ∀ e ∈ es, Plain e.2) : Plain (.dir es)

variable {t sub : FileTree} {es : List (String × FileTree)} {name : String}
  {ns ms place here todo : List String}

/-! ### Subtrees -/

@[simp] theorem get?_nil (t : FileTree) : t.get? [] = some t := rfl

theorem get?_cons (t : FileTree) (name : String) (ns : List String) :
    t.get? (name :: ns) = (t.child? name).bind fun sub => sub.get? ns := by
  rw [get?]
  cases t.child? name <;> rfl

theorem get?_append (t : FileTree) (ns ms : List String) :
    t.get? (ns ++ ms) = (t.get? ns).bind fun sub => sub.get? ms := by
  induction ns generalizing t with
  | nil => rfl
  | cons n ns ih =>
    rw [List.cons_append, get?_cons, get?_cons]
    cases t.child? n with
    | none => rfl
    | some sub => exact ih sub

theorem mem_of_lookup (h : es.lookup name = some sub) : (name, sub) ∈ es := by
  obtain ⟨l₁, l₂, rfl, -⟩ := List.lookup_eq_some_iff.mp h
  simp

theorem lookup_of_mem (hnd : (es.map Prod.fst).Nodup) (h : (name, sub) ∈ es) :
    es.lookup name = some sub := by
  obtain ⟨l₁, l₂, rfl⟩ := List.append_of_mem h
  refine List.lookup_eq_some_iff.mpr ⟨l₁, l₂, rfl, ?_⟩
  intro p hp
  rw [List.map_append, List.nodup_append] at hnd
  exact bne_iff_ne.mpr fun heq => hnd.2.2 p.1 (List.mem_map_of_mem hp) name (by simp) heq.symm

/-! ### Ways to write a place -/

/-- An absolute path that gives the names of a place one by one, with any number of slashes before
the first. -/
structure Spells (path : String) (place : List String) : Prop where
  absolute : Path.isAbsolute path = true
  pathText : PathText path
  names_eq : ∃ k, names path = List.replicate (k + 1) "" ++ place
  pathNames : ∀ n ∈ place, PathName n

variable {path : String}

theorem Spells.ne_empty (h : Spells path place) : path ≠ "" := by
  rintro rfl
  exact absurd h.absolute (by decide)

theorem spells_pathOf (hne : place ≠ []) (hns : ∀ n ∈ place, PathName n) :
    Spells (pathOf place) place where
  absolute := by
    rw [Path.isAbsolute, toList_pathOf]
    rfl
  pathText := pathText_pathOf hns
  names_eq := ⟨0, names_pathOf hne hns⟩
  pathNames := hns

theorem Spells.slash_append (h : Spells path place) : Spells ("/" ++ path) place where
  absolute := by
    rw [Path.isAbsolute, String.toList_append]
    rfl
  pathText := PathText.append (by decide) h.pathText
  names_eq := by
    obtain ⟨k, hnames⟩ := h.names_eq
    refine ⟨k + 1, ?_⟩
    rw [List.replicate_succ, List.cons_append, ← hnames]
    rw [names, Text.splitOn, String.toList_append]
    rfl
  pathNames := h.pathNames

theorem size_lt_of_pathObstacle? (h : pathObstacle? path = none) : path.utf8ByteSize < maxPath := by
  simp only [pathObstacle?] at h
  split_ifs at h with _ _ _ hlen
  exact Nat.not_le.mp hlen

theorem size_lt_of_locate {cwd found : List String} {followLast : Bool}
    (h : t.locate cwd path followLast = .ok found) : path.utf8ByteSize < maxPath := by
  rw [locate] at h
  split at h
  · cases h
  · next hob => exact size_lt_of_pathObstacle? hob

namespace Plain

theorem child? (h : Plain t) (hc : t.child? name = some sub) : EntryName name ∧ Plain sub := by
  cases h with
  | file content => simp [FileTree.child?, entries] at hc
  | dir es nodup names subs => exact ⟨names _ (mem_of_lookup hc), subs _ (mem_of_lookup hc)⟩

theorem get? (h : Plain t) (hget : t.get? ns = some sub) : (∀ n ∈ ns, EntryName n) ∧ Plain sub := by
  induction ns generalizing t with
  | nil =>
    obtain rfl : t = sub := by simpa using hget
    exact ⟨by simp, h⟩
  | cons n ns ih =>
    rw [get?_cons, Option.bind_eq_some_iff] at hget
    obtain ⟨c, hc, hget⟩ := hget
    obtain ⟨hn, hc'⟩ := h.child? hc
    obtain ⟨hns, hsub⟩ := ih hc' hget
    exact ⟨List.forall_mem_cons.mpr ⟨hn, hns⟩, hsub⟩

theorem pathNames (h : Plain t) (hget : t.get? ns = some sub) : ∀ n ∈ ns, PathName n :=
  fun n hn => ((h.get? hget).1 n hn).toPathName

theorem not_link (h : Plain t) {target : String} : t.get? ns ≠ some (.link target) := by
  intro hget
  cases (h.get? hget).2

/-! ### Looking up paths -/

variable {followLast : Bool} {jump : List String → List String → Except Obstacle (List String)}

theorem lookup_ne_link (h : Plain t) (hget : t.get? ns = some (.dir es)) {target : String} :
    es.lookup name ≠ some (.link target) := by
  intro hl
  have hlink : t.get? (ns ++ [name]) = some (.link target) := by
    rw [get?_append, hget, Option.bind_some, get?_cons, FileTree.child?, entries, hl]
    rfl
  exact h.not_link hlink

theorem eq_of_followNames (h : Plain t) (hns : ∀ n ∈ ns, PathName n) {found : List String}
    (hf : followNames t followLast jump here ns = .ok found) : found = ns.reverse ++ here := by
  induction ns generalizing here with
  | nil =>
    rw [followNames] at hf
    simpa using (Except.ok.inj hf).symm
  | cons n ns ih =>
    obtain ⟨hn, hns⟩ := List.forall_mem_cons.mp hns
    rw [followNames] at hf
    split at hf
    · next es hes =>
      rw [if_neg (by simp [hn.ne_empty, hn.ne_dot]), if_neg (by simp [hn.ne_dots])] at hf
      split at hf
      · cases hf
      · split at hf
        · cases hf
        · next hl => exact absurd hl (h.lookup_ne_link hes)
        · rw [ih hns hf]
          simp
    · cases hf
    · cases hf

theorem followNames_of_get? (h : Plain t) (hget : t.get? (here.reverse ++ ns) = some sub) :
    followNames t followLast jump here ns = .ok (ns.reverse ++ here) := by
  induction ns generalizing here with
  | nil => rfl
  | cons n ns ih =>
    have hn := (h.get? hget).1 n (by simp)
    rw [get?_append, Option.bind_eq_some_iff] at hget
    obtain ⟨d, hd, hget⟩ := hget
    rw [get?_cons, Option.bind_eq_some_iff] at hget
    obtain ⟨c, hc, hget⟩ := hget
    cases d with
    | file content => simp [FileTree.child?, entries] at hc
    | link target => simp [FileTree.child?, entries] at hc
    | dir es =>
      have hl : es.lookup n = some c := hc
      have hlong : ¬ maxName < n.utf8ByteSize := Nat.not_lt.mpr hn.short
      rw [followNames, hd]
      simp only [hl]
      rw [if_neg (by simp [hn.ne_empty, hn.ne_dot]), if_neg (by simp [hn.ne_dots]), if_neg hlong]
      have hrec : followNames t followLast jump (n :: here) ns =
          .ok ((n :: ns).reverse ++ here) := by
        rw [ih]
        · simp
        · rw [List.reverse_cons, List.append_assoc, List.singleton_append, get?_append, hd,
            Option.bind_some, get?_cons, FileTree.child?, entries, hl, Option.bind_some, hget]
      split
      · next hnone => cases hnone
      · next heq => exact absurd (hl.trans heq) (h.lookup_ne_link hd)
      · exact hrec

theorem followNames_ne_loop (h : Plain t) :
    followNames t followLast jump here todo ≠ .error .loop := by
  induction todo generalizing here with
  | nil => simp [followNames]
  | cons n todo ih =>
    rw [followNames]
    split
    · next es hes =>
      split
      · exact ih
      · split
        · exact ih
        · split
          · simp
          · split
            · simp
            · next hl => exact absurd hl (h.lookup_ne_link hes)
            · exact ih
    · simp
    · simp

theorem followFrom_eq (t : FileTree) (followLast : Bool) (links : Nat) :
    ∃ jump, t.followFrom followLast links = followNames t followLast jump := by
  cases links with
  | zero => exact ⟨_, rfl⟩
  | succ links => exact ⟨_, rfl⟩

theorem locate_ne_loop (h : Plain t) (cwd : List String) (path : String) (followLast : Bool) :
    t.locate cwd path followLast ≠ .error .loop := by
  obtain ⟨jump, hjump⟩ := followFrom_eq t followLast maxLinks
  rw [locate]
  split
  · next o ho =>
    rintro heq
    obtain rfl := Except.error.inj heq
    simp only [pathObstacle?] at ho
    split_ifs at ho <;> simp at ho
  · rw [hjump]
    intro heq
    cases hf : followNames t followLast jump (if Path.isAbsolute path then [] else cwd.reverse)
      (names path) with
    | ok found => simp [hf, Except.map] at heq
    | error o =>
      obtain rfl : o = .loop := by simpa [hf, Except.map] using heq
      exact h.followNames_ne_loop hf

variable {path : String} {cwd : List String}

theorem locate_of_spells (t : FileTree) (cwd : List String) (followLast : Bool)
    (hpath : Spells path place) (hlen : path.utf8ByteSize < maxPath) :
    ∃ jump, t.locate cwd path followLast =
      if t.isDir then (followNames t followLast jump [] place).map List.reverse
        else .error .notADirectory := by
  obtain ⟨jump, hjump⟩ := followFrom_eq t followLast maxLinks
  have hskip : ∀ k, followNames t followLast jump [] (List.replicate (k + 1) "" ++ place) =
      if t.isDir then followNames t followLast jump [] place else .error .notADirectory := by
    intro k
    induction k with
    | zero =>
      rw [List.replicate_one, List.singleton_append, followNames]
      cases t <;> rfl
    | succ k ih =>
      rw [List.replicate_succ, List.cons_append, followNames, ih]
      cases t <;> rfl
  obtain ⟨k, hnames⟩ := hpath.names_eq
  refine ⟨jump, ?_⟩
  rw [locate, hpath.pathText.pathObstacle? hpath.ne_empty hlen]
  simp only
  rw [hjump, hpath.absolute, if_pos rfl, hnames, hskip]
  split_ifs <;> rfl

theorem locate_eq (h : Plain t) (hget : t.get? place = some sub) (hne : place ≠ [])
    (hpath : Spells path place) (hlen : path.utf8ByteSize < maxPath) (cwd : List String)
    (followLast : Bool) : t.locate cwd path followLast = .ok place := by
  obtain ⟨jump, hloc⟩ := locate_of_spells t cwd followLast hpath hlen
  have hdir : t.isDir = true := by
    obtain ⟨n, ns, rfl⟩ := List.exists_cons_of_ne_nil hne
    cases t with
    | dir es => rfl
    | file content => simp [get?_cons, FileTree.child?, entries] at hget
    | link target => simp [get?_cons, FileTree.child?, entries] at hget
  rw [hloc, if_pos hdir, h.followNames_of_get? (by simpa using hget)]
  simp [Except.map]

theorem eq_of_locate (h : Plain t) (hpath : Spells path place) {cwd found : List String}
    {followLast : Bool} (hloc : t.locate cwd path followLast = .ok found) : found = place := by
  obtain ⟨jump, heq⟩ := locate_of_spells t cwd followLast hpath (size_lt_of_locate hloc)
  rw [heq] at hloc
  split_ifs at hloc
  cases hf : followNames t followLast jump [] place with
  | error o => simp [hf, Except.map] at hloc
  | ok r =>
    rw [hf, h.eq_of_followNames hpath.pathNames hf] at hloc
    simpa [Except.map] using hloc.symm

/-- What a path that spells a place names: what is there, if the path is not too long. -/
theorem stat?_eq_some_iff (h : Plain t) (hpath : Spells path place) (hne : place ≠ []) :
    t.stat? cwd path = some sub ↔ path.utf8ByteSize < maxPath ∧ t.get? place = some sub := by
  constructor
  · intro hstat
    rw [stat?, follow?] at hstat
    cases hloc : t.locate cwd path true with
    | error o =>
      rw [hloc] at hstat
      cases hstat
    | ok found =>
      obtain rfl := h.eq_of_locate hpath hloc
      rw [hloc] at hstat
      exact ⟨size_lt_of_locate hloc, hstat⟩
  · rintro ⟨hlen, hget⟩
    rw [stat?, follow?, h.locate_eq hget hne hpath hlen]
    exact hget

theorem pathExists_iff (h : Plain t) (hpath : Spells path place) (hne : place ≠ []) :
    t.pathExists cwd path = true ↔ path.utf8ByteSize < maxPath ∧ (t.get? place).isSome = true := by
  rw [pathExists, Option.isSome_iff_exists, Option.isSome_iff_exists, ← exists_and_left]
  exact exists_congr fun _ => h.stat?_eq_some_iff hpath hne

theorem not_pathIsLink (h : Plain t) (cwd : List String) (path : String) :
    t.pathIsLink cwd path = false := by
  rw [pathIsLink]
  split
  · next found _ =>
    cases hget : t.get? found with
    | none => rfl
    | some sub =>
      cases sub with
      | link target => exact absurd hget h.not_link
      | file content => rfl
      | dir es => rfl
  · rfl

/-! ### Real places -/

theorem realNames_eq_lexical (h : Plain t)
    (jump : List String → List String → List String → List String × Bool) :
    realNames t jump here todo = (lexical here todo, true) := by
  induction todo generalizing here with
  | nil => rfl
  | cons n todo ih =>
    rw [realNames, lexical]
    split
    · exact ih
    · split
      · exact ih
      · split
        · next hl => exact absurd hl h.not_link
        · exact ih

theorem realPlace_eq_lexical (h : Plain t) (cwd : List String) (path : String) :
    t.realPlace cwd path =
      (lexical (if Path.isAbsolute path then [] else cwd.reverse) (names path)).reverse := by
  rw [realPlace]
  cases t.linkCount with
  | zero => rw [realFrom, h.realNames_eq_lexical]
  | succ n => rw [realFrom, h.realNames_eq_lexical]

end Plain

/-! ### Going on by names alone -/

/-- The place that a path names from the root, whatever is there. -/
def lexicalPlace (path : String) : List String := (lexical [] (names path)).reverse

theorem lexical_filter (here : List String) (segs : List (List Char)) :
    lexical here ((segs.filter Path.isStep).map String.ofList) =
      lexical here (segs.map String.ofList) := by
  induction segs generalizing here with
  | nil => rfl
  | cons c segs ih =>
    by_cases hc : Path.isStep c = true
    · rw [List.filter_cons_of_pos hc, List.map_cons, List.map_cons, lexical, lexical]
      split_ifs <;> exact ih _
    · have hskip : (String.ofList c == "" || String.ofList c == ".") = true := by
        rw [Path.isStep] at hc
        by_cases hnil : c = []
        · simp [hnil]
        · have hdot : c = ['.'] := by simpa [hnil] using hc
          rw [hdot]
          decide
      rw [List.filter_cons_of_neg hc, List.map_cons, lexical, if_pos hskip]
      exact ih _

theorem pathNames_lexical (hhere : ∀ n ∈ here, PathName n)
    (htodo : ∀ n ∈ todo, '/' ∉ n.toList ∧ PathText n) : ∀ n ∈ lexical here todo, PathName n := by
  induction todo generalizing here with
  | nil => exact hhere
  | cons m todo ih =>
    obtain ⟨hm, htodo⟩ := List.forall_mem_cons.mp htodo
    rw [lexical]
    split_ifs with h₁ h₂
    · exact ih hhere htodo
    · exact ih (fun n hn => hhere n (List.mem_of_mem_tail hn)) htodo
    · simp only [Bool.or_eq_true, beq_iff_eq, not_or] at h₁ h₂
      exact ih (List.forall_mem_cons.mpr ⟨⟨h₁.1, h₁.2, h₂, hm.1, hm.2⟩, hhere⟩) htodo

theorem names_noSlash {s : String} (h : PathText s) :
    ∀ n ∈ names s, '/' ∉ n.toList ∧ PathText n := by
  intro n hn
  obtain ⟨p, hp, rfl⟩ := List.mem_map.mp hn
  refine ⟨fun hc => ?_, fun c hc => ?_⟩
  · rw [String.toList_ofList] at hc
    exact (mem_of_mem_splitOn hp hc).2 rfl
  · rw [String.toList_ofList] at hc
    exact h c (mem_of_mem_splitOn hp hc).1

theorem pathNames_lexicalPlace {s : String} (h : PathText s) :
    ∀ n ∈ lexicalPlace s, PathName n := by
  intro n hn
  exact pathNames_lexical (by simp) (names_noSlash h) n (List.mem_reverse.mp hn)

theorem toList_normalize (hroot : Path.root path.toList = ['/']) :
    (Path.normalize path).toList = '/' :: join ['/'] (Path.segments path.toList) := by
  rw [Path.normalize, hroot, Path.assemble_slash, String.toList_ofList]

theorem lexicalPlace_normalize (hroot : Path.root path.toList = ['/']) :
    lexicalPlace (Path.normalize path) = lexicalPlace path := by
  have hsegs : ∀ p ∈ Path.segments path.toList, '/' ∉ p := fun p hp hc =>
    (mem_of_mem_splitOn (List.mem_of_mem_filter hp) hc).2 rfl
  rw [lexicalPlace, lexicalPlace, names, Text.splitOn, toList_normalize hroot, splitOn,
    if_pos (by simp), List.map_cons, lexical, if_pos (by simp), names, Text.splitOn,
    ← lexical_filter [] (splitOn '/' path.toList)]
  change (lexical []
    ((splitOn '/' (join ['/'] (Path.segments path.toList))).map String.ofList)).reverse =
    (lexical [] ((Path.segments path.toList).map String.ofList)).reverse
  by_cases hne : Path.segments path.toList = []
  · rw [hne]
    rfl
  · rw [splitOn_join hne hsegs]

end FileTree

namespace Disk

open FileTree

variable {disk : Disk} {place : List String} {path : String}

theorem resolve?_eq_none (h : ¬ PathText path) : disk.resolve? path = none := by
  rw [resolve?, if_pos]
  simp only [PathText, not_forall] at h
  obtain ⟨c, hc, h⟩ := h
  rw [List.any_eq_true]
  refine ⟨c, hc, ?_⟩
  by_cases hzero : c = '\x00'
  · simp [hzero]
  · simpa [hzero] using h

/-- On a disk without links, where a path leads is told by its names alone. -/
theorem resolve?_eq_lexicalPlace (h : disk.tree.Plain) (hpath : PathText path)
    (hroot : Path.root path.toList = ['/']) :
    disk.resolve? path = some (pathOf (lexicalPlace path)) := by
  have habs : Path.isAbsolute (Path.normalize path) = true := by
    rw [Path.isAbsolute, toList_normalize hroot]
    rfl
  have hplace : disk.tree.realPlace disk.cwd (Path.normalize path) = lexicalPlace path := by
    rw [h.realPlace_eq_lexical, habs, if_pos rfl, ← lexicalPlace_normalize hroot, lexicalPlace]
  rw [resolve?, hpath.any_eq_false, if_neg (by simp), hplace]
  simp only
  split
  · next hloop => exact absurd hloop (h.locate_ne_loop _ _ _)
  · rfl

end Disk

end CodeAtlas
