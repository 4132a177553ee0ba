import CodeAtlas.Analysis.FileSystem
import CodeAtlas.Proofs.Texts

/-!
# Paths in normal form

`FileTree.pathOf place` writes a place as an absolute path. On places whose names are `PathName`s
this is one to one, and the operations on paths become operations on places: the parent of a path
drops the last name (`Path.parent_pathOf`), joining a name adds it (`Path.join_pathOf`), normalising
changes nothing.

`Path.Normal source` says that a source directory is given in this form. The paths below it are
`Path.descend source names`, and `Survey.lead_append_nodeName` says what their names in the project
are: the parent of the source directory is cut off, unless that is the root, where nothing is cut
off. In both cases one and the same text stands before the name of every path.
-/

namespace CodeAtlas

namespace FileTree

/-- A text that can be encoded as a path: it holds no zero character, and halves of characters only
for bytes. -/
def PathText (s : String) : Prop :=
  ∀ c ∈ s.toList, c ≠ '\x00' ∧ ¬ (Text.isHalf c = true ∧ isByteHalf c = false)

instance (s : String) : Decidable (PathText s) := List.decidableBAll _ s.toList

/-- A name that can stand on a path. -/
structure PathName (name : String) : Prop where
  ne_empty : name ≠ ""
  ne_dot : name ≠ "."
  ne_dots : name ≠ ".."
  noSlash : '/' ∉ name.toList
  pathText : PathText name

instance (name : String) : Decidable (PathName name) :=
  decidable_of_iff
    (name ≠ "" ∧ name ≠ "." ∧ name ≠ ".." ∧ '/' ∉ name.toList ∧ PathText name)
    ⟨fun ⟨h₁, h₂, h₃, h₄, h₅⟩ => ⟨h₁, h₂, h₃, h₄, h₅⟩,
      fun ⟨h₁, h₂, h₃, h₄, h₅⟩ => ⟨h₁, h₂, h₃, h₄, h₅⟩⟩

variable {name : String} {place ns : List String}

theorem PathName.toList_ne_nil (h : PathName name) : name.toList ≠ [] :=
  fun h' => h.ne_empty (String.toList_eq_nil_iff.mp h')

theorem PathName.isStep (h : PathName name) : Path.isStep name.toList = true := by
  have hdot : name.toList ≠ ['.'] := fun h' => h.ne_dot (String.toList_inj.mp h')
  simp [Path.isStep, h.toList_ne_nil, hdot]

theorem PathName.not_isAbsolute (h : PathName name) : Path.isAbsolute name = false := by
  rw [Path.isAbsolute, beq_eq_false_iff_ne]
  intro h'
  exact h.noSlash (List.mem_of_mem_head? (by rw [h']; rfl))

theorem toList_pathOf (place : List String) :
    (pathOf place).toList = '/' :: Chars.join ['/'] (place.map String.toList) := by
  simp [pathOf, Text.join]

theorem pathOf_singleton (name : String) : pathOf [name] = "/" ++ name := by
  simp [pathOf, Text.join, Chars.join]

theorem pathOf_append {as bs : List String} (ha : as ≠ []) (hb : bs ≠ []) :
    pathOf (as ++ bs) = pathOf as ++ "/" ++ Text.join "/" bs := by
  apply String.toList_inj.mp
  simp only [String.toList_append, toList_pathOf, List.map_append, Text.join, String.toList_ofList]
  rw [Chars.join_append _ (by simpa using ha) (by simpa using hb)]
  simp

theorem pathOf_concat (hne : place ≠ []) (name : String) :
    pathOf (place ++ [name]) = pathOf place ++ "/" ++ name := by
  rw [pathOf_append hne (by simp)]
  simp [Text.join, Chars.join]

theorem exists_pathOf_concat (place : List String) (name : String) :
    ∃ lead, (pathOf (place ++ [name])).toList = lead ++ name.toList := by
  by_cases hne : place = []
  · subst hne
    exact ⟨['/'], by rw [List.nil_append, pathOf_singleton]; simp⟩
  · exact ⟨(pathOf place ++ "/").toList, by rw [pathOf_concat hne, String.toList_append]⟩

theorem exists_toList_pathOf_cons (h : PathName name) (ns : List String) :
    ∃ c rest, c ≠ '/' ∧ (pathOf (name :: ns)).toList = '/' :: c :: rest := by
  obtain ⟨c, cs, hc⟩ := List.exists_cons_of_ne_nil h.toList_ne_nil
  have hslash : c ≠ '/' := by
    rintro rfl
    exact h.noSlash (by rw [hc]; exact List.mem_cons_self ..)
  rw [toList_pathOf, List.map_cons, hc]
  by_cases hns : ns = []
  · subst hns
    exact ⟨c, cs, hslash, rfl⟩
  · rw [Chars.join_cons _ _ (by simpa using hns)]
    exact ⟨c, _, hslash, rfl⟩

theorem pathNames_concat (h : ∀ n ∈ place, PathName n) (hname : PathName name) :
    ∀ n ∈ place ++ [name], PathName n :=
  List.forall_mem_append.mpr ⟨h, by simpa using hname⟩

theorem map_toList_noSlash (h : ∀ n ∈ place, PathName n) :
    ∀ p ∈ place.map String.toList, '/' ∉ p := by
  intro p hp
  obtain ⟨n, hn, rfl⟩ := List.mem_map.mp hp
  exact (h n hn).noSlash

theorem names_pathOf (hne : place ≠ []) (h : ∀ n ∈ place, PathName n) :
    names (pathOf place) = "" :: place := by
  rw [names, Text.splitOn, toList_pathOf, Chars.splitOn, if_pos (by simp),
    Chars.splitOn_join (by simpa using hne) (map_toList_noSlash h)]
  simp [List.map_map, Function.comp_def]

/-! ### Texts that can be paths -/

theorem PathText.append {s s' : String} (h : PathText s) (h' : PathText s') :
    PathText (s ++ s') := by
  rw [PathText, String.toList_append]
  exact List.forall_mem_append.mpr ⟨h, h'⟩

theorem pathText_pathOf (h : ∀ n ∈ place, PathName n) : PathText (pathOf place) := by
  intro c hc
  rw [toList_pathOf] at hc
  rcases List.mem_cons.mp hc with rfl | hc
  · decide
  · rcases Chars.mem_join hc with hc | ⟨p, hp, hc⟩
    · rw [List.mem_singleton.mp hc]
      decide
    · obtain ⟨n, hn, rfl⟩ := List.mem_map.mp hp
      exact (h n hn).pathText c hc

theorem PathText.any_eq_false {s : String} (h : PathText s) :
    (s.toList.any fun c => c == '\x00' || (Text.isHalf c && !isByteHalf c)) = false := by
  rw [List.any_eq_false]
  intro c hc
  have := h c hc
  simp_all

theorem PathText.pathObstacle?_eq {s : String} (h : PathText s) : pathObstacle? s =
    if s == "" then some .missing else if maxPath ≤ s.utf8ByteSize then some .tooLong
      else none := by
  have hhalf : (s.toList.any fun c => Text.isHalf c && !isByteHalf c) = false := by
    rw [List.any_eq_false]
    intro c hc
    have := (h c hc).2
    simp_all
  have hzero : s.toList.contains '\x00' = false := by
    rw [List.contains_eq_mem, decide_eq_false_iff_not]
    exact fun hc => (h _ hc).1 rfl
  simp only [pathObstacle?]
  rw [hhalf, hzero, if_neg (by simp), if_neg (by simp)]

theorem PathText.pathObstacle? {s : String} (h : PathText s) (hne : s ≠ "")
    (hlen : s.utf8ByteSize < maxPath) : pathObstacle? s = none := by
  rw [h.pathObstacle?_eq, if_neg (by simpa using hne), if_neg (Nat.not_le.mpr hlen)]

end FileTree

namespace Path

open FileTree

variable {name source : String} {place ns ms : List String}

/-! ### The parts of a path in normal form -/

theorem segments_pathOf (h : ∀ n ∈ place, PathName n) :
    segments (pathOf place).toList = place.map String.toList := by
  have hstep : ∀ p ∈ place.map String.toList, isStep p = true := by
    intro p hp
    obtain ⟨n, hn, rfl⟩ := List.mem_map.mp hp
    exact (h n hn).isStep
  rw [segments, toList_pathOf, Chars.splitOn, if_pos (by simp), List.filter_cons_of_neg (by decide)]
  by_cases hne : place = []
  · subst hne
    rfl
  · rw [Chars.splitOn_join (by simpa using hne) (map_toList_noSlash h)]
    exact List.filter_eq_self.mpr hstep

theorem root_pathOf (h : ∀ n ∈ place, PathName n) : root (pathOf place).toList = ['/'] := by
  cases place with
  | nil => rfl
  | cons n ns =>
    obtain ⟨c, rest, hc, heq⟩ := exists_toList_pathOf_cons (h n (List.mem_cons_self ..)) ns
    rw [heq]
    simp [root, hc]

theorem assemble_slash (segs : List (List Char)) :
    assemble ['/'] segs = '/' :: Chars.join ['/'] segs := rfl

theorem normalize_pathOf (h : ∀ n ∈ place, PathName n) :
    normalize (pathOf place) = pathOf place := by
  rw [normalize, root_pathOf h, segments_pathOf h, assemble_slash, ← toList_pathOf,
    String.ofList_toList]

theorem parent_pathOf (h : ∀ n ∈ place, PathName n) (hname : PathName name) :
    parent (pathOf (place ++ [name])) = pathOf place := by
  have hall := pathNames_concat h hname
  rw [parent, parentChars, root_pathOf hall, segments_pathOf hall, assemble_slash,
    ← List.map_dropLast, List.dropLast_concat, ← toList_pathOf, String.ofList_toList]

theorem pathOf_injective (h : ∀ n ∈ ns, PathName n) (h' : ∀ n ∈ ms, PathName n)
    (heq : pathOf ns = pathOf ms) : ns = ms := by
  have := segments_pathOf h
  rw [heq, segments_pathOf h'] at this
  exact (List.map_injective_iff.mpr (fun _ _ => String.toList_inj.mp) this).symm

/-! ### Going down -/

def descend (dir : String) (names : List String) : String := names.foldl join dir

@[simp] theorem descend_nil (dir : String) : descend dir [] = dir := rfl

@[simp] theorem descend_cons (dir name : String) (names : List String) :
    descend dir (name :: names) = descend (join dir name) names := rfl

theorem descend_concat (dir name : String) (names : List String) :
    descend dir (names ++ [name]) = join (descend dir names) name := by
  simp [descend]

theorem join_pathOf (h : ∀ n ∈ place, PathName n) (hname : PathName name) :
    join (pathOf place) name = pathOf (place ++ [name]) := by
  have hne : (pathOf place == "") = false := by
    rw [beq_eq_false_iff_ne]
    intro h'
    have := congrArg String.toList h'
    simp [toList_pathOf] at this
  rw [join, hname.not_isAbsolute, hne]
  cases place using List.reverseRecOn with
  | nil =>
    rw [List.nil_append, pathOf_singleton]
    rfl
  | append_singleton ps n =>
    have hn := h n (by simp)
    have hlast : ((pathOf (ps ++ [n])).toList.getLast? == some '/') = false := by
      obtain ⟨lead, hlead⟩ := exists_pathOf_concat ps n
      rw [hlead, List.getLast?_append_of_ne_nil _ hn.toList_ne_nil, beq_eq_false_iff_ne]
      intro h'
      exact hn.noSlash (List.mem_of_getLast? h')
    rw [hlast, pathOf_concat (by simp) name]
    rfl

theorem descend_pathOf (h : ∀ n ∈ place, PathName n) (hns : ∀ n ∈ ns, PathName n) :
    descend (pathOf place) ns = pathOf (place ++ ns) := by
  induction ns generalizing place with
  | nil => simp
  | cons n ns ih =>
    have hn := hns n (List.mem_cons_self ..)
    rw [descend_cons, join_pathOf h hn, ih]
    · simp
    · exact pathNames_concat h hn
    · exact fun m hm => hns m (List.mem_cons_of_mem _ hm)

theorem descend_pathOf_concat (h : ∀ n ∈ place, PathName n) (hname : PathName name)
    (hns : ∀ n ∈ ns, PathName n) :
    descend (pathOf (place ++ [name])) ns = pathOf (place ++ name :: ns) := by
  rw [descend_pathOf (pathNames_concat h hname) hns, List.append_assoc, List.singleton_append]

/-! ### Source directories in normal form -/

/-- An absolute path in normal form, of a place that is not the root. -/
def Normal (path : String) : Prop :=
  ∃ place, place ≠ [] ∧ (∀ n ∈ place, PathName n) ∧ path = pathOf place

section
variable (h : Normal source)
include h

theorem Normal.exists_base : ∃ parents base,
    (∀ n ∈ parents, PathName n) ∧ PathName base ∧ source = pathOf (parents ++ [base]) := by
  obtain ⟨place, hne, hnames, rfl⟩ := h
  cases place using List.reverseRecOn with
  | nil => exact absurd rfl hne
  | append_singleton ps n =>
    exact ⟨ps, n, fun m hm => hnames m (by simp [hm]), hnames n (by simp), rfl⟩

theorem Normal.not_slashes : ¬ ['/', '/'] <+: source.toList := by
  obtain ⟨place, hne, hnames, rfl⟩ := h
  obtain ⟨n, ns, rfl⟩ := List.exists_cons_of_ne_nil hne
  obtain ⟨c, cs, hc, heq⟩ := exists_toList_pathOf_cons (hnames n (List.mem_cons_self ..)) ns
  rw [heq]
  rintro ⟨rest, hrest⟩
  have heads : c = '/' ∧ cs = rest := by simpa using hrest.symm
  exact hc heads.1

theorem Normal.descend (hns : ∀ n ∈ ns, PathName n) : Normal (descend source ns) := by
  obtain ⟨place, hne, hnames, rfl⟩ := h
  exact ⟨place ++ ns, by simp [hne], List.forall_mem_append.mpr ⟨hnames,
    hns⟩, descend_pathOf hnames hns⟩

theorem Normal.normalize : normalize source = source := by
  obtain ⟨place, -, hnames, rfl⟩ := h
  exact normalize_pathOf hnames

theorem Normal.descend_injective (hns : ∀ n ∈ ns, PathName n) (hms : ∀ n ∈ ms, PathName n)
    (heq : Path.descend source ns = Path.descend source ms) : ns = ms := by
  obtain ⟨place, -, hnames, rfl⟩ := h
  rw [descend_pathOf hnames hns, descend_pathOf hnames hms] at heq
  exact List.append_cancel_left (pathOf_injective (List.forall_mem_append.mpr ⟨hnames, hns⟩)
    (List.forall_mem_append.mpr ⟨hnames, hms⟩) heq)

theorem Normal.join (hname : PathName name) : Path.join source name = source ++ "/" ++ name := by
  obtain ⟨place, hne, hnames, rfl⟩ := h
  rw [join_pathOf hnames hname, pathOf_concat hne]

theorem Normal.parent_join (hname : PathName name) : parent (Path.join source name) = source := by
  obtain ⟨place, -, hnames, rfl⟩ := h
  rw [join_pathOf hnames hname, parent_pathOf hnames hname]

theorem Normal.replace_join (hname : PathName name) :
    Text.replace (Path.join source name) (source ++ "/") "" = name := by
  have hslash : ¬ (source ++ "/").toList <:+: name.toList := by
    intro hpart
    exact hname.noSlash (hpart.subset (by simp))
  have hpath : (source ++ "/" ++ name).toList = (source ++ "/").toList ++ name.toList :=
    String.toList_append
  rw [h.join hname, Text.replace, hpath, Chars.replace_append (by simp),
    Chars.replace_of_not_infix hslash]
  simp

end

end Path

namespace Resolve

open FileTree

variable {source : String} {ns : List String}

theorem parentSlash_ne_empty (source : String) : parentSlash source ≠ "" := by
  intro h
  have := congrArg String.toList h
  simp [parentSlash] at this

theorem parentSlash_pathOf {parents : List String} {base : String} (h : ∀ n ∈ parents, PathName n)
    (hb : PathName base) : parentSlash (pathOf (parents ++ [base])) = pathOf parents ++ "/" := by
  rw [parentSlash, Path.parent_pathOf h hb]

theorem pathOf_eq_slash_iff {place : List String} (h : ∀ n ∈ place, PathName n) :
    pathOf place = "/" ↔ place = [] := by
  constructor
  · intro heq
    exact Path.pathOf_injective h (by simp) (heq.trans rfl)
  · rintro rfl
    rfl

/-- What stands before the name of every path of a project. -/
def lead (source : String) : String := if Path.parent source = "/" then "" else parentSlash source

theorem toList_parentSlash_of_root (h : Path.parent source = "/") :
    (parentSlash source).toList = ['/', '/'] := by
  rw [parentSlash, h]
  rfl

theorem startsWith_parentSlash (h : Path.Normal source) (hns : ∀ n ∈ ns, PathName n) :
    Text.startsWith (Path.descend source ns) (parentSlash source) = true ↔
    Path.parent source ≠ "/" := by
  rw [Text.startsWith, List.isPrefixOf_iff_prefix]
  constructor
  · intro hstart hroot
    rw [toList_parentSlash_of_root hroot] at hstart
    exact (h.descend hns).not_slashes hstart
  · intro hroot
    obtain ⟨parents, base, hp, hb, rfl⟩ := h.exists_base
    rw [Path.parent_pathOf hp hb, Ne, pathOf_eq_slash_iff hp] at hroot
    rw [Path.descend_pathOf_concat hp hb hns, parentSlash_pathOf hp hb,
      pathOf_append hroot (by simp)]
    exact ⟨(Text.join "/" (base :: ns)).toList, String.toList_append.symm⟩

theorem onlyAtStart_self (h : Path.Normal source) :
    Text.OnlyAtStart (parentSlash source) source := by
  obtain ⟨parents, base, hp, hb, rfl⟩ := h.exists_base
  rw [parentSlash_pathOf hp hb]
  obtain ⟨lead, hlead, hlen⟩ : ∃ lead, (pathOf (parents ++ [base])).toList = lead ++ base.toList ∧
      lead.length ≤ (pathOf parents).toList.length + 1 := by
    by_cases hne : parents = []
    · subst hne
      exact ⟨['/'], by rw [List.nil_append, pathOf_singleton]; simp, by simp⟩
    · exact ⟨(pathOf parents ++ "/").toList, by rw [pathOf_concat hne,
        String.toList_append], by simp⟩
  intro before after heq
  by_contra hne
  -- the slash at the end would stand in the last name
  have hbefore := List.length_pos_iff.mpr hne
  have hsplit : lead ++ base.toList = (before ++ (pathOf parents).toList) ++ '/' :: after := by
    rw [← hlead, heq, String.toList_append]
    simp
  have hle : lead.length ≤ (before ++ (pathOf parents).toList).length := by
    rw [List.length_append]
    omega
  obtain ⟨rest, hrest⟩ := List.prefix_of_prefix_length_le ⟨_, hsplit⟩ (List.prefix_append ..) hle
  rw [← hrest, List.append_assoc] at hsplit
  exact hb.noSlash (by rw [List.append_cancel_left hsplit]; simp)

end Resolve

namespace Survey

open FileTree Resolve

variable {source : String} {ns ms : List String}

/-- The name in the project of what is reached from the source directory through the given names. -/
def nodeName (source : String) (names : List String) : String :=
  projectName source (Path.descend source names)

theorem lead_append_projectName {path : String}
    (hstart : Text.startsWith path (parentSlash source) = true ↔ Path.parent source ≠ "/")
    (honly : Text.OnlyAtStart (parentSlash source) path) :
    lead source ++ projectName source path = path := by
  rw [projectName, Text.replace_onlyAtStart (parentSlash_ne_empty source) honly, lead]
  by_cases hroot : Path.parent source = "/"
  · rw [if_pos hroot, if_neg (mt hstart.mp (not_not_intro hroot)), String.empty_append]
  · have hparent := hstart.mpr hroot
    rw [if_neg hroot, if_pos hparent]
    rw [Text.startsWith, List.isPrefixOf_iff_prefix] at hparent
    obtain ⟨rest, hrest⟩ := hparent
    apply String.toList_inj.mp
    rw [String.toList_append, Text.drop, String.toList_ofList, ← hrest, ← String.length_toList,
      List.drop_left]

theorem lead_append_nodeName (h : Path.Normal source) (hns : ∀ n ∈ ns, PathName n)
    (honly : Text.OnlyAtStart (parentSlash source) (Path.descend source ns)) :
    lead source ++ nodeName source ns = Path.descend source ns :=
  lead_append_projectName (startsWith_parentSlash h hns) honly

theorem nodeName_injective (h : Path.Normal source) (hns : ∀ n ∈ ns, PathName n)
    (hms : ∀ n ∈ ms, PathName n)
    (hn : Text.OnlyAtStart (parentSlash source) (Path.descend source ns))
    (hm : Text.OnlyAtStart (parentSlash source) (Path.descend source ms))
    (heq : nodeName source ns = nodeName source ms) : ns = ms := by
  apply h.descend_injective hns hms
  rw [← lead_append_nodeName h hns hn, ← lead_append_nodeName h hms hm, heq]

/-- A name of the project stays as it is when it is taken for a path of the project. -/
theorem relativeName_nodeName
    (honly : Text.OnlyAtStart (parentSlash source) (Path.descend source ns)) :
    relativeName source (nodeName source ns) = nodeName source ns :=
  Text.replace_of_not_infix (Text.not_infix_replace_onlyAtStart (parentSlash_ne_empty source) honly)

end Survey

end CodeAtlas
