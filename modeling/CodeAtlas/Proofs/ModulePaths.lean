import CodeAtlas.Proofs.Includes

/-!
# Paths of script modules

A module name that starts with a dot names a path, seen from the directory of the script. The module
is the file at this path, the file with the extension added, or the index of the directory,
whichever is scanned first (`Leads`).

The path is not always the one that is looked at: a name is taken for its path only in some
spellings (`Reads`), and the extension and the index are tried in an order of their own (`Fits`).
The name of the module is found exactly if both go well
(`Survey.Regular.completeModule_moduleBase`).
-/

namespace CodeAtlas

open FileTree Resolve Survey Chars

/-! ### Occurrences -/

theorem Chars.infix_of_getLast_not_mem {part as bs : List Char} {c : Char}
    (hlast : part.getLast? = some c) (hbs : c ∉ bs) (h : part <:+: as ++ bs) : part <:+: as := by
  obtain ⟨body, rfl⟩ := List.getLast?_eq_some_iff.mp hlast
  obtain ⟨before, after, heq⟩ := h
  rcases List.append_eq_append_iff.mp heq with ⟨more, has, -⟩ | ⟨more, hleft, hright⟩
  · exact ⟨before, more, has.symm⟩
  · -- the last character would stand in the second part
    cases more using List.reverseRecOn with
    | nil => exact ⟨before, [], by simpa using hleft⟩
    | append_singleton more d =>
      rw [← List.append_assoc, ← List.append_assoc] at hleft
      obtain rfl : c = d := List.singleton_inj.mp (List.append_inj_right' hleft rfl)
      exact absurd (hright ▸ by simp) hbs

theorem Chars.infix_join_of_mem (sep : List Char) {piece : List Char} {pieces : List (List Char)}
    (h : piece ∈ pieces) : piece <:+: join sep pieces := by
  induction pieces with
  | nil => cases h
  | cons p ps ih =>
    by_cases hne : ps = []
    · obtain rfl : piece = p := by simpa [hne] using h
      simp [hne, join]
    · rw [join_cons _ _ hne]
      rcases List.mem_cons.mp h with rfl | h
      · exact ⟨[], sep ++ join sep ps, by simp⟩
      · exact (ih h).trans (List.suffix_append ..).isInfix

theorem Chars.join_splitOn (sep : Char) (cs : List Char) : join [sep] (splitOn sep cs) = cs := by
  induction cs with
  | nil => rfl
  | cons c cs ih =>
    have hne := splitOn_ne_nil sep cs
    rw [splitOn]
    split_ifs with hc
    · rw [join_cons _ _ hne, ih, beq_iff_eq.mp hc]
      rfl
    · cases hsplit : splitOn sep cs with
      | nil => exact absurd hsplit hne
      | cons piece pieces =>
        rw [hsplit] at ih
        rw [← ih]
        cases pieces <;> rfl

theorem Chars.length_join_filter (sep : List Char) (p : List Char → Bool)
    (pieces : List (List Char)) :
    (join sep (pieces.filter p)).length ≤ (join sep pieces).length := by
  induction pieces with
  | nil => exact Nat.le_refl _
  | cons piece pieces ih =>
    by_cases hne : pieces = []
    · rw [hne, List.filter_cons]
      split_ifs
      · exact Nat.le_refl _
      · exact Nat.zero_le _
    · rw [join_cons _ _ hne, List.filter_cons, List.length_append, List.length_append]
      split_ifs
      · by_cases hrest : pieces.filter p = []
        · simp [hrest, join]
          omega
        · rw [join_cons _ _ hrest, List.length_append, List.length_append]
          omega
      · omega

theorem Resolve.countFrom_eq_zero {part cs : List Char} (hne : part ≠ []) :
    countFrom part 0 cs = 0 ↔ ¬ part <:+: cs := by
  induction cs with
  | nil => simp [countFrom, hne]
  | cons c cs ih =>
    rw [countFrom, List.infix_cons_iff, ← List.isPrefixOf_iff_prefix]
    split_ifs with hstart
    · simp [hstart]
    · simp [hstart, ih]

namespace Text

variable {part s : String}

theorem exists_of_startsWith (h : startsWith s part = true) : ∃ rest, s = part ++ rest := by
  rw [startsWith, List.isPrefixOf_iff_prefix] at h
  obtain ⟨rest, hrest⟩ := h
  exact ⟨String.ofList rest, String.toList_inj.mp
    (by rw [String.toList_append, String.toList_ofList, hrest])⟩

theorem OnlyAtStart.of_append {rest : String} (h : OnlyAtStart part (s ++ rest)) :
    OnlyAtStart part s := by
  intro before after heq
  refine h before (after ++ rest.toList) ?_
  rw [String.toList_append, heq, List.append_assoc]

theorem OnlyAtStart.of_sibling {name name' : String} (hne : part ≠ "")
    (hlast : part.toList.getLast? = some '/') (hslash : '/' ∉ name'.toList)
    (h : OnlyAtStart part (s ++ "/" ++ name)) : OnlyAtStart part (s ++ "/" ++ name') := by
  rw [onlyAtStart_iff hne] at h ⊢
  intro hi
  have htail : ∀ n : String, (s ++ "/" ++ n).toList.tail = (s ++ "/").toList.tail ++ n.toList := by
    intro n
    rw [String.toList_append, List.tail_append_of_ne_nil (by simp)]
  rw [htail] at h hi
  exact h ((infix_of_getLast_not_mem hlast hslash hi).trans (List.prefix_append ..).isInfix)

end Text

/-! ### Names and places -/

namespace FileTree

variable {name : String} {place here todo : List String}

theorem PathName.append_js (h : PathName name) : PathName (name ++ ".js") where
  ne_empty := by
    intro heq
    simpa using congrArg String.toList heq
  ne_dot := by
    intro heq
    have hlen := congrArg List.length (congrArg String.toList heq)
    simp at hlen
  ne_dots := by
    intro heq
    have hlen := congrArg List.length (congrArg String.toList heq)
    simp at hlen
  noSlash := by
    rw [String.toList_append, List.mem_append, not_or]
    exact ⟨h.noSlash, by decide⟩
  pathText := h.pathText.append (by decide)

theorem pathOf_concat_append (place : List String) (name rest : String) :
    pathOf (place ++ [name]) ++ rest = pathOf (place ++ [name ++ rest]) := by
  by_cases hne : place = []
  · rw [hne, List.nil_append, List.nil_append, pathOf_singleton, pathOf_singleton,
      String.append_assoc]
  · rw [pathOf_concat hne, pathOf_concat hne, String.append_assoc]

theorem of_mem_lexical (h : name ∈ lexical here todo) :
    name ∈ here ∨ name ∈ todo ∧ name ≠ "" ∧ name ≠ "." ∧ name ≠ ".." := by
  induction todo generalizing here with
  | nil => exact .inl h
  | cons m todo ih =>
    rw [lexical] at h
    split_ifs at h with hskip hup
    · exact (ih h).imp_right fun hm => ⟨List.mem_cons_of_mem m hm.1, hm.2⟩
    · exact (ih h).imp List.mem_of_mem_tail fun hm => ⟨List.mem_cons_of_mem m hm.1, hm.2⟩
    · simp only [Bool.or_eq_true, beq_iff_eq, not_or] at hskip hup
      rcases ih h with hmem | ⟨hmem, hne⟩
      · rcases List.mem_cons.mp hmem with rfl | hmem
        · exact .inr ⟨List.mem_cons_self, hskip.1, hskip.2, hup⟩
        · exact .inl hmem
      · exact .inr ⟨List.mem_cons_of_mem m hmem, hne⟩

theorem pathNames_of_pathText {s : String} (h : PathText (pathOf (lexicalPlace s))) :
    ∀ n ∈ lexicalPlace s, PathName n := by
  intro n hn
  have hmem := List.mem_reverse.mp hn
  obtain ⟨hname, hempty, hdot, hdots⟩ := (of_mem_lexical hmem).resolve_left List.not_mem_nil
  refine ⟨hempty, hdot, hdots, ?_, fun c hc => h c ?_⟩
  · obtain ⟨p, hp, rfl⟩ := List.mem_map.mp hname
    rw [String.toList_ofList]
    exact fun hc => (mem_of_mem_splitOn hp hc).2 rfl
  · rw [toList_pathOf]
    exact List.mem_cons_of_mem _ ((infix_join_of_mem ['/'] (List.mem_map_of_mem hn)).subset hc)

theorem lexical_of_noDots (h : ∀ n ∈ todo, n ≠ "" ∧ n ≠ "." ∧ n ≠ "..") :
    lexical here todo = todo.reverse ++ here := by
  induction todo generalizing here with
  | nil => rfl
  | cons m todo ih =>
    obtain ⟨⟨hempty, hdot, hdots⟩, htodo⟩ := List.forall_mem_cons.mp h
    rw [lexical, if_neg (by simp [hempty, hdot]), if_neg (by simp [hdots]), ih htodo]
    simp

theorem lexicalPlace_congr {s s' : String} (h : Path.segments s.toList = Path.segments s'.toList) :
    lexicalPlace s = lexicalPlace s' := by
  rw [lexicalPlace, lexicalPlace, names, names, Text.splitOn, Text.splitOn, ← lexical_filter,
    ← lexical_filter [] (splitOn _ _)]
  exact congrArg (fun segs => (lexical [] (List.map String.ofList segs)).reverse) h

theorem lexicalPlace_of_noDots {s : String} (h : ['.', '.'] ∉ Path.segments s.toList) :
    lexicalPlace s = (Path.segments s.toList).map String.ofList := by
  have hnames : ∀ n ∈ (Path.segments s.toList).map String.ofList, n ≠ "" ∧ n ≠ "." ∧ n ≠ ".." := by
    intro n hn
    obtain ⟨p, hp, rfl⟩ := List.mem_map.mp hn
    have hstep : Path.isStep p = true := (List.mem_filter.mp hp).2
    simp only [Path.isStep, Bool.and_eq_true, bne_iff_ne] at hstep
    refine ⟨fun heq => hstep.1 ?_, fun heq => hstep.2 ?_, fun heq => h ?_⟩
    · simpa using congrArg String.toList heq
    · simpa using congrArg String.toList heq
    · have hdots : p = ['.', '.'] := by simpa using congrArg String.toList heq
      exact hdots ▸ hp
  rw [lexicalPlace, names, Text.splitOn, ← lexical_filter]
  change (lexical [] ((Path.segments s.toList).map String.ofList)).reverse = _
  rw [lexical_of_noDots hnames, List.append_nil, List.reverse_reverse]

theorem length_pathOf_lexicalPlace {s : String} (habsolute : s.toList.head? = some '/')
    (h : ['.', '.'] ∉ Path.segments s.toList) :
    (pathOf (lexicalPlace s)).toList.length ≤ s.toList.length := by
  obtain ⟨cs, hcs⟩ := List.head?_eq_some_iff.mp habsolute
  have hsegs : Path.segments s.toList = (splitOn '/' cs).filter Path.isStep := by
    rw [hcs]
    exact Path.segments_append_slash [] cs
  have hjoin := length_join_filter ['/'] Path.isStep (splitOn '/' cs)
  rw [join_splitOn] at hjoin
  rw [lexicalPlace_of_noDots h, toList_pathOf, hsegs, hcs, List.map_map]
  simpa [Function.comp_def] using hjoin

end FileTree

namespace Path

variable {s name : String}

theorem Normal.append_js (h : Normal s) : Normal (s ++ ".js") := by
  obtain ⟨parents, base, hp, hb, rfl⟩ := h.exists_base
  exact ⟨_, by simp, pathNames_concat hp hb.append_js, pathOf_concat_append parents base ".js"⟩

theorem Normal.append_name (h : Normal s) (hname : PathName name) : Normal (s ++ "/" ++ name) := by
  have hdescend := h.descend (List.forall_mem_singleton.mpr hname)
  rwa [descend_cons, descend_nil, h.join hname] at hdescend

theorem Normal.noDots (h : Normal s) : ['.', '.'] ∉ segments s.toList := by
  obtain ⟨place, -, hnames, rfl⟩ := h
  rw [segments_pathOf hnames]
  intro hmem
  obtain ⟨n, hn, heq⟩ := List.mem_map.mp hmem
  exact (hnames n hn).ne_dots (String.toList_inj.mp (heq.trans rfl))

theorem Normal.pathOf_lexicalPlace (h : Normal s) : pathOf (lexicalPlace s) = s := by
  have hnoDots := h.noDots
  obtain ⟨place, -, hnames, rfl⟩ := h
  rw [lexicalPlace_of_noDots hnoDots, segments_pathOf hnames, List.map_map]
  simp [Function.comp_def]

end Path

/-! ### Ways to a module -/

/-- How a module is found from the path that its name stands for. -/
inductive Way where
  | file
  | script
  | index
deriving Repr, DecidableEq

def Way.ending : Way → String
  | .file => ""
  | .script => ".js"
  | .index => "/index.js"

namespace Survey

variable {disk : Disk} {f : Filters} {source path t name d : String} {ns ms ks : List String}
  {way : Way} {parents : List String} {rest : String} {base : String}

def Scanned (disk : Disk) (f : Filters) (source path : String) : Prop :=
  ∃ ms name, Scans disk f source ms name ∧ path = Path.descend source (ms ++ [name])

/-- Whether the file at a path is scanned and is a script. -/
def ScannedScript (disk : Disk) (f : Filters) (source path : String) : Prop :=
  Scanned disk f source path ∧ Path.suffix path = ".js"

/-- The first way from a path to a file that is scanned. -/
def Leads (disk : Disk) (f : Filters) (source t : String) : Way → Prop
  | .file => ScannedScript disk f source t
  | .script => ¬ ScannedScript disk f source t ∧ Scanned disk f source (t ++ ".js")
  | .index => ¬ ScannedScript disk f source t ∧ ¬ Scanned disk f source (t ++ ".js") ∧
      Scanned disk f source (t ++ "/index.js")

theorem Leads.scanned (h : Leads disk f source t way) :
    Scanned disk f source (t ++ way.ending) := by
  cases way with
  | file => rw [Way.ending, String.append_empty]; exact h.1
  | script => exact h.2
  | index => exact h.2.2

/-- Where a way leads to a file that is scanned, the path lies below the source directory, or is
that directory. -/
theorem Tidy.exists_descend (h : Tidy disk source) {s : String}
    (hscanned : Scanned disk f source (pathOf (lexicalPlace s) ++ way.ending)) :
    ∃ ks, (∀ n ∈ ks, PathName n) ∧ pathOf (lexicalPlace s) = Path.descend source ks := by
  obtain ⟨ms, name, hscans, heq⟩ := hscanned
  obtain ⟨content, hfile⟩ := hscans.isFile
  have hnames := h.pathNames hfile
  have hnormal : Path.Normal (pathOf (lexicalPlace s) ++ way.ending) :=
    heq ▸ h.normal.descend hnames
  have hplace : ∀ n ∈ lexicalPlace s, PathName n := by
    refine pathNames_of_pathText fun c hc => hnormal.pathText c ?_
    rw [String.toList_append]
    exact List.mem_append_left _ hc
  have hms : ∀ n ∈ ms, PathName n := fun n hn => hnames n (List.mem_append_left _ hn)
  obtain ⟨parents, base, hp, hb, hsource⟩ := h.normal.exists_base
  have hsourceNames := pathNames_concat hp hb
  have hdescend : ∀ {ks}, (∀ n ∈ ks, PathName n) →
      Path.descend source ks = pathOf ((parents ++ [base]) ++ ks) :=
    fun hks => hsource ▸ Path.descend_pathOf hsourceNames hks
  have hall : ∀ n ∈ (parents ++ [base]) ++ (ms ++ [name]), PathName n :=
    List.forall_mem_append.mpr ⟨hsourceNames, hnames⟩
  rw [hdescend hnames] at heq
  cases way with
  | file =>
    rw [Way.ending, String.append_empty] at heq
    exact ⟨ms ++ [name], hnames, heq.trans (hdescend hnames).symm⟩
  | script =>
    cases hlast : lexicalPlace s using List.reverseRecOn with
    | nil =>
      -- the file would lie in the root directory
      rw [hlast] at heq
      have hroot : pathOf [] ++ Way.script.ending = pathOf [".js"] := by decide
      have hlen :=
        congrArg List.length (Path.pathOf_injective (by decide) hall (hroot.symm.trans heq))
      simp at hlen
      omega
    | append_singleton place n =>
      rw [hlast] at heq hplace
      obtain ⟨hplace, hn⟩ := List.forall_mem_append.mp hplace
      rw [pathOf_concat_append] at heq
      have hsame :=
        Path.pathOf_injective (pathNames_concat hplace (hn n (by simp)).append_js) hall heq
      rw [← List.append_assoc] at hsame
      obtain ⟨rfl, -⟩ := List.append_inj' hsame rfl
      refine ⟨ms ++ [n], pathNames_concat hms (hn n (by simp)), ?_⟩
      rw [hdescend (pathNames_concat hms (hn n (by simp))), List.append_assoc]
  | index =>
    by_cases hnil : lexicalPlace s = []
    · rw [hnil] at hnormal
      exact absurd (by decide) hnormal.not_slashes
    · have hindex : pathOf (lexicalPlace s) ++ Way.index.ending =
          pathOf (lexicalPlace s ++ ["index.js"]) := by
        rw [pathOf_concat hnil, String.append_assoc]
        rfl
      rw [hindex] at heq
      have hsame := Path.pathOf_injective (pathNames_concat hplace (by decide)) hall heq
      rw [← List.append_assoc] at hsame
      obtain ⟨hsame, -⟩ := List.append_inj' hsame rfl
      exact ⟨ms, hms, by rw [hsame, hdescend hms]⟩

/-! ### Completing a name -/

def additions : List String := ["", ".js", "/index.js", ".js/index.js"]

theorem completeModule_of_script (hsuffix : Path.suffix name ≠ ".js")
    (hexists : disk.pathExists (parentSlash source ++ name ++ ".js") = true) :
    completeModule disk name source =
      if disk.pathExists (parentSlash source ++ name ++ ".js/index.js") then name ++ ".js/index.js"
        else name ++ ".js" := by
  have happend : ∀ s : String, s ++ ".js" ++ "/index.js" = s ++ ".js/index.js" :=
    fun s => String.append_assoc ..
  have hcond : (Path.suffix name !=
      ".js" && disk.pathExists (parentSlash source ++ name ++ ".js")) = true := by
    simp [hsuffix, hexists]
  rw [completeModule, if_pos hcond, ← String.append_assoc, happend, happend]

theorem completeModule_of_not_script
    (h : ¬ (Path.suffix name ≠ ".js" ∧
      disk.pathExists (parentSlash source ++ name ++ ".js") = true)) :
    completeModule disk name source =
      if disk.pathExists (parentSlash source ++ name ++ "/index.js") then name ++ "/index.js"
        else name := by
  have hcond : ¬ (Path.suffix name !=
      ".js" && disk.pathExists (parentSlash source ++ name ++ ".js")) = true := by
    rwa [Bool.and_eq_true, bne_iff_ne]
  rw [completeModule, if_neg hcond]

theorem exists_completeModule (disk : Disk) (name source : String) :
    ∃ rest ∈ additions, completeModule disk name source = name ++ rest := by
  by_cases h : Path.suffix name ≠ ".js" ∧
    disk.pathExists (parentSlash source ++ name ++ ".js") = true
  · rw [completeModule_of_script h.1 h.2]
    split_ifs
    · exact ⟨".js/index.js", by decide, rfl⟩
    · exact ⟨".js", by decide, rfl⟩
  · rw [completeModule_of_not_script h]
    split_ifs
    · exact ⟨"/index.js", by decide, rfl⟩
    · exact ⟨"", by decide, String.append_empty.symm⟩

theorem ne_append_of_ne_empty (h : rest ≠ "") : name ≠ name ++ rest := by
  intro heq
  exact h ((String.append_right_inj name).mp (heq.symm.trans String.append_empty.symm))

/-- Whether what is added to the name of a path is what the way to a file asks for. An extension is
added only to a name without it, and the index only if nothing has the extension. If the parent of
the source directory is the root, the path has to be short enough for two more slashes. -/
def Fits (disk : Disk) (source t : String) : Way → Prop
  | .file => True
  | .script =>
    Path.suffix t ≠ ".js" ∧ (Path.parent source = "/" → (t ++ ".js").utf8ByteSize + 2 < maxPath)
  | .index => (Path.suffix t = ".js" ∨ disk.pathExists (t ++ ".js") = false) ∧
      (Path.parent source = "/" → (t ++ "/index.js").utf8ByteSize + 2 < maxPath)

theorem size_script_le (t : String) :
    (t ++ ".js").utf8ByteSize ≤ (t ++ "/index.js").utf8ByteSize := by
  rw [String.utf8ByteSize_append, String.utf8ByteSize_append]
  exact Nat.add_le_add_left (by decide) _

theorem suffix_nodeName (h : Path.Normal source) (hks : ∀ n ∈ ks, PathName n)
    (honly : Text.OnlyAtStart (parentSlash source) (Path.descend source ks)) :
    Path.suffix (nodeName source ks) = Path.suffix (Path.descend source ks) := by
  obtain ⟨parents, base, hp, hb, hsource⟩ := h.exists_base
  have hall : ∀ n ∈ parents ++ base :: ks, PathName n :=
    List.forall_mem_append.mpr ⟨hp, List.forall_mem_cons.mpr ⟨hb, hks⟩⟩
  have hdescend : Path.descend source ks = pathOf (parents ++ base :: ks) := by
    rw [hsource, Path.descend_pathOf_concat hp hb hks]
  rw [Path.suffix, Path.suffix, Path.name, Path.name, segments_nodeName hp hb hks hsource honly,
    hdescend, Path.segments_pathOf hall, List.map_append,
    List.getLast?_append_of_ne_nil _ (by simp)]

theorem Tidy.not_pathExists_below (h : Tidy disk source) (hscanned : Scanned disk f source path)
    (hname : PathName name) : disk.pathExists (path ++ "/" ++ name) = false := by
  obtain ⟨ms, last, hscans, rfl⟩ := hscanned
  obtain ⟨content, hfile⟩ := hscans.isFile
  obtain ⟨place, hne, hnames, rfl, hget⟩ := h.get?_of_holds hfile
  have hms := h.pathNames hfile
  have hall : ∀ n ∈ place ++ (ms ++ [last]) ++ [name], PathName n :=
    pathNames_concat (List.forall_mem_append.mpr ⟨hnames, hms⟩) hname
  have hpath : Path.descend (pathOf place) (ms ++ [last]) ++ "/" ++ name =
      pathOf (place ++ (ms ++ [last]) ++ [name]) := by
    rw [pathOf_concat (by simp), Path.descend_pathOf hnames hms]
  refine Bool.eq_false_iff.mpr fun hexists => ?_
  rw [hpath, Disk.pathExists, h.plain.pathExists_iff (spells_pathOf (by simp) hall) (by simp),
    get?_append, hget] at hexists
  simp [FileTree.get?, child?, entries] at hexists

theorem Regular.pathExists_of_scanned (h : Regular disk f source)
    (hlen : ∀ ms name, Scans disk f source ms name →
      (Path.descend source (ms ++ [name])).utf8ByteSize < maxPath)
    (hscanned : Scanned disk f source path) : disk.pathExists path = true := by
  obtain ⟨ms, name, hscans, rfl⟩ := hscanned
  obtain ⟨content, hfile⟩ := hscans.isFile
  exact h.pathExists_descend hfile (hlen ms name hscans)

section Completion

variable (h : Regular disk f source) (hks : ∀ n ∈ ks, PathName n)
  (honly : Text.OnlyAtStart (parentSlash source) (Path.descend source ks))

include h hks honly

theorem Regular.pathExists_nodeName_append {rest : String}
    (hrest : Path.Normal (Path.descend source ks ++ rest)) :
    disk.pathExists (parentSlash source ++ nodeName source ks ++ rest) = true ↔
      (Path.parent source = "/" → (Path.descend source ks ++ rest).utf8ByteSize + 2 < maxPath) ∧
        disk.pathExists (Path.descend source ks ++ rest) = true := by
  rw [String.append_assoc]
  exact pathExists_of_lead h.plain hrest
    (by rw [← String.append_assoc, lead_append_nodeName h.normal hks honly])

theorem Regular.pathExists_script :
    disk.pathExists (parentSlash source ++ nodeName source ks ++ ".js") = true ↔
      (Path.parent source = "/" → (Path.descend source ks ++ ".js").utf8ByteSize + 2 < maxPath) ∧
        disk.pathExists (Path.descend source ks ++ ".js") = true :=
  h.pathExists_nodeName_append hks honly (h.normal.descend hks).append_js

theorem Regular.pathExists_index :
    disk.pathExists (parentSlash source ++ nodeName source ks ++ "/index.js") = true ↔
      (Path.parent source = "/" → (Path.descend source ks ++ "/index.js").utf8ByteSize + 2 <
        maxPath) ∧
        disk.pathExists (Path.descend source ks ++ "/index.js") = true := by
  refine h.pathExists_nodeName_append hks honly ?_
  have hindex := (h.normal.descend hks).append_name (by decide : PathName "index.js")
  rwa [String.append_assoc] at hindex

theorem Regular.completeModule_of_scannedScript
    (hscript : ScannedScript disk f source (Path.descend source ks)) :
    completeModule disk (nodeName source ks) source = nodeName source ks := by
  have hsuffix := (suffix_nodeName h.normal hks honly).trans hscript.2
  have hbelow : ¬ disk.pathExists (parentSlash source ++ nodeName source ks ++ "/index.js") =
      true := by
    intro hexists
    have hnone := h.not_pathExists_below hscript.1 (by decide : PathName "index.js")
    rw [String.append_assoc] at hnone
    exact Bool.eq_false_iff.mp hnone ((h.pathExists_index hks honly).mp hexists).2
  rw [completeModule_of_not_script fun hcond => hcond.1 hsuffix, if_neg hbelow]

theorem Regular.completeModule_script_iff
    (hexists : disk.pathExists (Path.descend source ks ++ ".js") = true)
    (hscanned : Scanned disk f source (Path.descend source ks ++ ".js")) :
    completeModule disk (nodeName source ks) source = nodeName source ks ++ ".js" ↔
      Fits disk source (Path.descend source ks) .script := by
  have hsuffix := suffix_nodeName h.normal hks honly
  have hscript := h.pathExists_script hks honly
  have hbelow : ¬ disk.pathExists (parentSlash source ++ nodeName source ks ++ ".js/index.js") =
      true := by
    intro hfound
    have hname := (h.normal.descend hks).append_js.append_name (by decide : PathName "index.js")
    have hnone := h.not_pathExists_below hscanned (by decide : PathName "index.js")
    rw [String.append_assoc, String.append_assoc] at hname hnone
    exact Bool.eq_false_iff.mp hnone ((h.pathExists_nodeName_append hks honly hname).mp hfound).2
  by_cases hcond : Path.suffix (nodeName source ks) ≠ ".js" ∧
      disk.pathExists (parentSlash source ++ nodeName source ks ++ ".js") = true
  · rw [completeModule_of_script hcond.1 hcond.2, if_neg hbelow]
    exact iff_of_true rfl ⟨fun heq => hcond.1 (hsuffix.trans heq), (hscript.mp hcond.2).1⟩
  · rw [completeModule_of_not_script hcond]
    refine iff_of_false ?_ fun ⟨hother, hsize⟩ =>
      hcond ⟨fun heq => hother (hsuffix.symm.trans heq), hscript.mpr ⟨hsize, hexists⟩⟩
    split_ifs
    · exact mt (String.append_right_inj _).mp (by decide)
    · exact ne_append_of_ne_empty (by decide)

theorem Regular.completeModule_index_iff
    (hexists : disk.pathExists (Path.descend source ks ++ "/index.js") = true) :
    completeModule disk (nodeName source ks) source = nodeName source ks ++ "/index.js" ↔
      Fits disk source (Path.descend source ks) .index := by
  have hsuffix := suffix_nodeName h.normal hks honly
  have hscript := h.pathExists_script hks honly
  have hindex := h.pathExists_index hks honly
  by_cases hcond : Path.suffix (nodeName source ks) ≠ ".js" ∧
      disk.pathExists (parentSlash source ++ nodeName source ks ++ ".js") = true
  · -- something has the extension, so that is added and not the index
    rw [completeModule_of_script hcond.1 hcond.2]
    refine iff_of_false ?_ fun hfits => ?_
    · split_ifs
      · exact mt (String.append_right_inj _).mp (by decide)
      · exact mt (String.append_right_inj _).mp (by decide)
    · rcases hfits.1 with hjs | hmissing
      · exact hcond.1 (hsuffix.trans hjs)
      · exact Bool.eq_false_iff.mp hmissing (hscript.mp hcond.2).2
  · rw [completeModule_of_not_script hcond]
    by_cases hsize : Path.parent source = "/" →
      (Path.descend source ks ++ "/index.js").utf8ByteSize + 2 < maxPath
    · rw [if_pos (hindex.mpr ⟨hsize, hexists⟩)]
      refine iff_of_true rfl ⟨?_, hsize⟩
      by_contra hother
      obtain ⟨hjs, hother⟩ := not_or.mp hother
      refine hcond ⟨fun heq => hjs (hsuffix.symm.trans heq),
        hscript.mpr ⟨fun hroot => ?_, by simpa using hother⟩⟩
      exact Nat.lt_of_le_of_lt (Nat.add_le_add_right (size_script_le _) 2) (hsize hroot)
    · rw [if_neg fun hfound => hsize (hindex.mp hfound).1]
      exact iff_of_false (ne_append_of_ne_empty (by decide)) fun hfits => hsize hfits.2

/-- The name of a path is completed to that of the file to which a way leads exactly if this
fits. -/
theorem Regular.completeModule_nodeName_iff
    (hlen : ∀ ms name, Scans disk f source ms name →
      (Path.descend source (ms ++ [name])).utf8ByteSize < maxPath)
    (hleads : Leads disk f source (Path.descend source ks) way) :
    completeModule disk (nodeName source ks) source = nodeName source ks ++ way.ending ↔
      Fits disk source (Path.descend source ks) way := by
  have hexists := h.pathExists_of_scanned hlen hleads.scanned
  cases way with
  | file =>
    rw [Way.ending, String.append_empty]
    exact iff_of_true (h.completeModule_of_scannedScript hks honly hleads) trivial
  | script => exact h.completeModule_script_iff hks honly hexists hleads.2
  | index => exact h.completeModule_index_iff hks honly hexists

end Completion

/-! ### Names that stay as they are written -/

/-- A module name that starts from the directory of the script. -/
def IsRelative (d : String) : Prop :=
  d = "." ∨ d = ".." ∨ Text.startsWith d "./" = true ∨ Text.startsWith d "../" = true

theorem nodeName_of_root (h : Path.Normal source) (hroot : Path.parent source = "/")
    (hks : ∀ n ∈ ks, PathName n)
    (honly : Text.OnlyAtStart (parentSlash source) (Path.descend source ks)) :
    nodeName source ks = Path.descend source ks := by
  have hlead := lead_append_nodeName h hks honly
  rwa [lead, if_pos hroot, String.empty_append] at hlead

theorem nodeName_eq_join (hp : ∀ n ∈ parents, PathName n) (hb : PathName base)
    (hne : parents ≠ []) (hks : ∀ n ∈ ks, PathName n)
    (honly : Text.OnlyAtStart (parentSlash (pathOf (parents ++ [base])))
      (Path.descend (pathOf (parents ++ [base])) ks)) :
    nodeName (pathOf (parents ++ [base])) ks = Text.join "/" (base :: ks) := by
  have hlead := lead_append_nodeName ⟨_, by simp, pathNames_concat hp hb, rfl⟩ hks honly
  have hroot : pathOf parents ≠ "/" := mt (pathOf_eq_slash_iff hp).mp hne
  rw [lead, Path.parent_pathOf hp hb, if_neg hroot, parentSlash_pathOf hp hb,
    Path.descend_pathOf_concat hp hb hks, pathOf_append hne (List.cons_ne_nil base ks)] at hlead
  exact (String.append_right_inj _).mp hlead

theorem name_pathOf_concat (hp : ∀ n ∈ parents, PathName n) (hb : PathName base) :
    Path.name (pathOf (parents ++ [base])) = base := by
  rw [Path.name, Path.segments_pathOf (pathNames_concat hp hb), List.map_append, List.map_singleton,
    List.getLast?_append_of_ne_nil _ (by simp)]
  simp

/-- A relative name, whatever is added to it, is not the name of something below the source
directory, unless that directory has the name with the extension. -/
theorem append_ne_nodeName (h : Path.Normal source) (hks : ∀ n ∈ ks, PathName n) (hne : ks ≠ [])
    (honly : Text.OnlyAtStart (parentSlash source) (Path.descend source ks)) (hd : IsRelative d)
    (hname : Path.name source ≠ d ++ ".js") (hrest : rest ∈ additions) :
    d ++ rest ≠ nodeName source ks := by
  intro heq
  have hlist := congrArg String.toList heq
  rw [String.toList_append] at hlist
  obtain ⟨parents, base, hp, hb, hsource⟩ := h.exists_base
  by_cases hroot : parents = []
  · -- the name is the path, which starts with a slash
    have hparent : Path.parent source = "/" := by
      rw [hsource, Path.parent_pathOf hp hb, hroot]
      rfl
    rw [nodeName_of_root h hparent hks honly, hsource, Path.descend_pathOf_concat hp hb hks,
      toList_pathOf] at hlist
    rcases hd with rfl | rfl | hd | hd
    · cases hlist
    · cases hlist
    · obtain ⟨more, rfl⟩ := Text.exists_of_startsWith hd
      rw [String.toList_append] at hlist
      cases hlist
    · obtain ⟨more, rfl⟩ := Text.exists_of_startsWith hd
      rw [String.toList_append] at hlist
      cases hlist
  · subst hsource
    rw [nodeName_eq_join hp hb hroot hks honly, Text.join, String.toList_ofList, List.map_cons,
      join_cons _ _ (by simpa using hne), List.append_assoc] at hlist
    rw [name_pathOf_concat hp hb] at hname
    -- the name starts with that of the source directory
    have hbase : (d.toList ++ rest.toList).takeWhile (· != '/') = base.toList := by
      rw [hlist, List.takeWhile_append_of_pos]
      · simp
      · intro c hc
        exact bne_iff_ne.mpr fun heq => hb.noSlash (heq ▸ hc)
    have hslash : '/' ∈ d.toList ++ rest.toList := by
      rw [hlist]
      simp
    have hfirst : ∀ first : String, (d.toList ++ rest.toList).takeWhile (· != '/') = first.toList →
        base = first :=
      fun first hfirst => String.toList_inj.mp (hbase.symm.trans hfirst)
    rcases hd with rfl | rfl | hd | hd
    · simp only [additions, List.mem_cons, List.not_mem_nil, or_false] at hrest
      rcases hrest with rfl | rfl | rfl | rfl
      · exact absurd hslash (by decide)
      · exact absurd hslash (by decide)
      · exact hb.ne_dot (hfirst "." (by decide))
      · exact hname (hfirst "..js" (by decide))
    · simp only [additions, List.mem_cons, List.not_mem_nil, or_false] at hrest
      rcases hrest with rfl | rfl | rfl | rfl
      · exact absurd hslash (by decide)
      · exact absurd hslash (by decide)
      · exact hb.ne_dots (hfirst ".." (by decide))
      · exact hname (hfirst "...js" (by decide))
    · obtain ⟨more, rfl⟩ := Text.exists_of_startsWith hd
      exact hb.ne_dot (hfirst "." (by simp))
    · obtain ⟨more, rfl⟩ := Text.exists_of_startsWith hd
      exact hb.ne_dots (hfirst ".." (by simp))

/-! ### Names that are taken for paths -/

variable {dir relative rest : String} {added : String}

/-- Whether a relative name, other than a single dot, is taken for the path that it names. One with
two dots in it has to be encodable, and must not lead to the source directory itself. Any other has
to be written as it stands in the path. -/
def Reads (source dir d : String) : Prop :=
  if Text.contains d ".." = true then PathText d ∧ includePath dir d ≠ source
  else ∃ rest, d = "./" ++ rest ∧ Text.contains rest "./" = false ∧
    includePath dir d = dir ++ "/" ++ rest

theorem moduleBase_of_dots (hat : Text.contains d "@" = false)
    (hdots : Text.contains d ".." = true) :
    moduleBase disk d dir relative source = fromDirectory disk d dir source := by
  have hdot : (d == ".") = false := by
    refine beq_eq_false_iff_ne.mpr ?_
    rintro rfl
    exact absurd hdots (by decide)
  simp [moduleBase, hat, hdot, hdots]

theorem moduleBase_of_plain (hat : Text.contains ("./" ++ rest) "@" = false)
    (hdots : Text.contains ("./" ++ rest) ".." = false) :
    moduleBase disk ("./" ++ rest) dir relative source =
      if Text.contains rest "./" then "./" ++ rest else relative ++ "/" ++ rest := by
  have hdot : ("./" ++ rest == ".") = false := by
    refine beq_eq_false_iff_ne.mpr fun heq => ?_
    have hlen := congrArg (fun s => s.toList.length) heq
    simp at hlen
  have hcount : occurrences ("./" ++ rest) "./" = 1 + countFrom ['.', '/'] 0 rest.toList := by
    rw [occurrences, String.toList_append]
    simp [countFrom]
  have hzero : countFrom ['.', '/'] 0 rest.toList = 0 ↔ Text.contains rest "./" = false := by
    rw [countFrom_eq_zero (by simp), Text.contains, contains_eq_false_iff]
    rfl
  have hreplace : Text.contains rest "./" = false → Text.replace ("./" ++ rest) "./" "" = rest := by
    intro hrest
    rw [Text.contains, contains_eq_false_iff] at hrest
    rw [Text.replace, String.toList_append, replace_append (by simp), replace_of_not_infix hrest]
    simp
  rw [moduleBase, hat, if_neg (by simp), hdot, if_neg (by simp), hdots, hcount]
  cases hrest : Text.contains rest "./" with
  | false => simp [hzero.mpr hrest, inDirectory, hreplace hrest]
  | true =>
    have hmore : countFrom ['.', '/'] 0 rest.toList ≠ 0 := fun heq => by
      rw [hzero.mp heq] at hrest
      cases hrest
    simp [hmore]

theorem Tidy.fromDirectory_eq (h : Tidy disk source) (hdir : Path.Normal dir)
    (hks : ∀ n ∈ ks, PathName n) (htarget : includePath dir d = Path.descend source ks) :
    fromDirectory disk d dir source = if PathText d ∧ ks ≠ [] then nodeName source ks else d := by
  have hsource : (source == "") = false := beq_eq_false_iff_ne.mpr h.normal.ne_empty
  rw [fromDirectory, resolve?_include h.plain hdir]
  by_cases hd : PathText d
  · simp only [hd, if_true, hsource, withSlash_normal h.normal, htarget, true_and]
    by_cases hne : ks = []
    · have hself : Text.contains source (source ++ "/") = false := by
        rw [Text.contains, contains_eq_false_iff]
        intro hi
        have hlen := hi.length_le
        rw [String.toList_append, List.length_append] at hlen
        have hslash : "/".toList.length = 1 := rfl
        omega
      simp [hne, hself]
    · rw [contains_descend h.normal hks hne]
      simp [hne]
      rfl
  · simp [hd]

theorem Regular.moduleBase_of_reads (h : Regular disk f source) (hns : ∀ n ∈ ns, PathName n)
    (hns' : Text.OnlyAtStart (parentSlash source) (Path.descend source ns))
    (hks : ∀ n ∈ ks, PathName n)
    (hks' : Text.OnlyAtStart (parentSlash source) (Path.descend source ks))
    (hat : Text.contains d "@" = false) (htarget : includePath (Path.descend source ns) d =
      Path.descend source ks) (hreads : Reads source (Path.descend source ns) d) :
    moduleBase disk d (Path.descend source ns) (nodeName source ns) source =
      nodeName source ks := by
  rw [Reads] at hreads
  split_ifs at hreads with hdots
  · have hne : ks ≠ [] := by
      rintro rfl
      exact hreads.2 htarget
    rw [moduleBase_of_dots hat hdots, h.fromDirectory_eq (h.normal.descend hns) hks htarget,
      if_pos ⟨hreads.1, hne⟩]
  · obtain ⟨rest, rfl, honce, hpath⟩ := hreads
    rw [moduleBase_of_plain hat (Bool.eq_false_iff.mpr hdots), honce, if_neg (by simp)]
    -- with what stands before all names, both are the path
    refine (String.append_right_inj (lead source)).mp ?_
    rw [lead_append_nodeName h.normal hks hks', ← htarget, hpath,
      ← lead_append_nodeName h.normal hns hns']
    simp only [String.append_assoc]

theorem includePath_dot_append (dir rest : String) :
    includePath dir ("./" ++ rest) = pathOf (lexicalPlace (dir ++ "/" ++ rest)) := by
  refine congrArg pathOf (lexicalPlace_congr ?_)
  simp only [String.toList_append, List.append_assoc]
  change Path.segments (dir.toList ++ '/' :: (['.'] ++ '/' :: rest.toList)) =
    Path.segments (dir.toList ++ '/' :: rest.toList)
  rw [Path.segments_append_slash, Path.segments_append_slash, Path.segments_append_slash]
  rfl

/-- Nothing that is added makes up for a name that is not written as it stands in its path. -/
theorem includePath_eq_of_append (hdir : Path.Normal dir)
    (hdots : Text.contains ("./" ++ rest) ".." = false)
    (hnormal : Path.Normal (includePath dir ("./" ++ rest))) (hadded : added ∈ additions)
    (heq : dir ++ "/" ++ rest ++ added = includePath dir ("./" ++ rest) ++ way.ending) :
    includePath dir ("./" ++ rest) = dir ++ "/" ++ rest := by
  have hplace := includePath_dot_append dir rest
  have hnoDots : ['.', '.'] ∉ Path.segments (dir ++ "/" ++ rest).toList := by
    rw [String.toList_append, String.toList_append, List.append_assoc]
    change _ ∉ Path.segments (dir.toList ++ '/' :: rest.toList)
    rw [Path.segments_append_slash, List.mem_append, not_or]
    refine ⟨hdir.noDots, fun hmem => ?_⟩
    have hi := infix_join_of_mem ['/'] (List.mem_of_mem_filter hmem)
    rw [join_splitOn] at hi
    rw [Text.contains, contains_eq_false_iff, String.toList_append] at hdots
    exact hdots (hi.trans (List.suffix_append ..).isInfix)
  have habsolute : (dir ++ "/" ++ rest).toList.head? = some '/' := by
    obtain ⟨place, -, -, rfl⟩ := hdir
    rw [String.toList_append, String.toList_append, toList_pathOf]
    rfl
  have hle := length_pathOf_lexicalPlace habsolute hnoDots
  rw [← hplace] at hle
  have hlist := congrArg String.toList heq
  rw [String.toList_append, String.toList_append (s := includePath dir _)] at hlist
  -- the path is the start of the text, and what follows is left of the ending
  obtain ⟨more, hmore⟩ :=
    List.prefix_of_prefix_length_le ⟨_, hlist.symm⟩ (List.prefix_append ..) hle
  rw [← hmore, List.append_assoc] at hlist
  have hending := List.append_cancel_left hlist
  have hmore' : includePath dir ("./" ++ rest) ++ String.ofList more = dir ++ "/" ++ rest :=
    String.toList_inj.mp (by rw [String.toList_append, String.toList_ofList, hmore])
  have hcases : String.ofList more ∈ ["", ".js", "/index.js", "/index"] := by
    have htake : more = way.ending.toList.take
        (way.ending.toList.length - added.toList.length) := by
      rw [← hending]
      simp
    have hlen : added.toList.length ≤ way.ending.toList.length := by
      rw [← hending]
      simp
    clear heq hlist hending
    subst htake
    simp only [additions, List.mem_cons, List.not_mem_nil, or_false] at hadded
    rcases hadded with rfl | rfl | rfl | rfl <;> cases way <;> revert hlen <;> decide
  have hself : Path.Normal (dir ++ "/" ++ rest) →
      includePath dir ("./" ++ rest) = dir ++ "/" ++ rest :=
    fun hnormal => hplace.trans hnormal.pathOf_lexicalPlace
  simp only [List.mem_cons, List.not_mem_nil, or_false] at hcases
  rcases hcases with hcase | hcase | hcase | hcase <;> rw [hcase] at hmore'
  · rwa [String.append_empty] at hmore'
  · exact hself (hmore' ▸ hnormal.append_js)
  · have hindex := hnormal.append_name (by decide : PathName "index.js")
    rw [String.append_assoc] at hindex
    exact hself (hmore' ▸ hindex)
  · have hindex := hnormal.append_name (by decide : PathName "index")
    rw [String.append_assoc] at hindex
    exact hself (hmore' ▸ hindex)

theorem Regular.moduleBase_append_ne (h : Regular disk f source) (hns : ∀ n ∈ ns, PathName n)
    (hns' : Text.OnlyAtStart (parentSlash source) (Path.descend source ns))
    (hks : ∀ n ∈ ks, PathName n) (hms : ∀ n ∈ ms, PathName n)
    (hms' : Text.OnlyAtStart (parentSlash source) (Path.descend source ms)) (hne : ms ≠ [])
    (hat : Text.contains d "@" = false) (hd : IsRelative d) (hdot : d ≠ ".")
    (hname : Path.name source ≠ d ++ ".js")
    (htarget : includePath (Path.descend source ns) d = Path.descend source ks)
    (hfile : includePath (Path.descend source ns) d ++ way.ending = Path.descend source ms)
    (hreads : ¬ Reads source (Path.descend source ns) d) (hadded : added ∈ additions) :
    moduleBase disk d (Path.descend source ns) (nodeName source ns) source ++ added ≠
      nodeName source ms := by
  have hdir := h.normal.descend hns
  have hstays : d ++ added ≠ nodeName source ms :=
    append_ne_nodeName h.normal hms hne hms' hd hname hadded
  rw [Reads] at hreads
  split_ifs at hreads with hdots
  · have hcond : ¬ (PathText d ∧ ks ≠ []) := by
      rintro ⟨hd, hks'⟩
      refine hreads ⟨hd, fun hsource => hks' ?_⟩
      exact h.normal.descend_injective hks (by simp) (htarget.symm.trans hsource)
    rwa [moduleBase_of_dots hat hdots, h.fromDirectory_eq hdir hks htarget, if_neg hcond]
  · obtain ⟨rest, rfl⟩ : ∃ rest, d = "./" ++ rest := by
      rcases hd with rfl | rfl | hd | hd
      · exact absurd rfl hdot
      · exact absurd (by decide) hdots
      · exact Text.exists_of_startsWith hd
      · obtain ⟨rest, rfl⟩ := Text.exists_of_startsWith hd
        refine absurd ?_ hdots
        rw [Text.contains, contains_iff_infix, String.toList_append]
        exact ⟨[], '/' :: rest.toList, rfl⟩
    have hdots := Bool.eq_false_iff.mpr hdots
    rw [moduleBase_of_plain hat hdots]
    cases honce : Text.contains rest "./" with
    | true => exact hstays
    | false =>
      intro heq
      have hpath : Path.descend source ns ++ "/" ++ rest ++ added =
          includePath (Path.descend source ns) ("./" ++ rest) ++ way.ending := by
        rw [hfile, ← lead_append_nodeName h.normal hms hms', ← heq,
          ← lead_append_nodeName h.normal hns hns']
        simp only [String.append_assoc, Bool.false_eq_true, if_false]
      exact hreads ⟨rest, rfl, honce,
        includePath_eq_of_append hdir hdots (htarget ▸ h.normal.descend hks) hadded hpath⟩

/-! ### The single dot -/

theorem includePath_dot (hdir : Path.Normal dir) : includePath dir "." = dir := by
  have hsegs : Path.segments (dir ++ "/" ++ ".").toList = Path.segments dir.toList := by
    rw [String.toList_append, String.toList_append, List.append_assoc]
    change Path.segments (dir.toList ++ '/' :: ['.']) = _
    rw [Path.segments_append_slash]
    exact List.append_nil _
  rw [includePath, lexicalPlace_congr hsegs, hdir.pathOf_lexicalPlace]

/-- A single dot is taken for the index of the directory, if that is there. -/
theorem Regular.moduleBase_dot (h : Regular disk f source) (relative : String)
    (hns : ∀ n ∈ ns, PathName n)
    (hindex : Text.OnlyAtStart (parentSlash source) (Path.descend source (ns ++ ["index.js"]))) :
    moduleBase disk "." (Path.descend source ns) relative source =
      if (Path.parent source = "/" → (Path.descend source (ns ++ ["index.js"])).utf8ByteSize + 2 <
        maxPath) ∧
          disk.pathExists (Path.descend source (ns ++ ["index.js"])) = true
      then nodeName source (ns ++ ["index.js"]) else "." := by
  have hnames := pathNames_concat hns (by decide : PathName "index.js")
  have hdir := h.normal.descend hns
  have htarget : includePath (Path.descend source ns) "./index.js" =
      Path.descend source (ns ++ ["index.js"]) := by
    refine (includePath_dot_append _ "index.js").trans ?_
    rw [(hdir.append_name (by decide)).pathOf_lexicalPlace, Path.descend_concat,
      hdir.join (by decide)]
  have hlookup := pathExists_of_lead h.plain (h.normal.descend hnames)
    (lead_append_nodeName h.normal hnames hindex)
  have hbase : moduleBase disk "." (Path.descend source ns) relative source =
      directoryIndex disk (Path.descend source ns) source := by
    rw [moduleBase, if_neg (by decide), if_pos (by decide)]
  have hfrom := h.fromDirectory_eq hdir hnames htarget
  rw [if_pos ⟨by decide, by simp⟩] at hfrom
  rw [hbase, directoryIndex, hfrom]
  simp only [hlookup]

theorem suffix_concat (h : Path.Normal source) (hns : ∀ n ∈ ns, PathName n)
    (hname : PathName name) :
    Path.suffix (Path.descend source (ns ++ [name])) =
      String.ofList (Path.suffixOfName name.toList) := by
  obtain ⟨place, hne, hnames, hdir⟩ := h.descend hns
  rw [Path.descend_concat, hdir, Path.join_pathOf hnames hname, Path.suffix,
    name_pathOf_concat hnames hname]

theorem Tidy.not_scanned_dir (h : Tidy disk source) (hscans : Scans disk f source ns name) :
    ¬ Scanned disk f source (Path.descend source ns) := by
  rintro ⟨ms, last, hscans', heq⟩
  obtain ⟨content, hfile⟩ := hscans.isFile
  obtain ⟨content', hfile'⟩ := hscans'.isFile
  have hnames := h.pathNames hfile
  obtain rfl := h.normal.descend_injective (fun n hn => hnames n (List.mem_append_left _ hn))
    (h.pathNames hfile') heq
  obtain ⟨dir, hstat, hget⟩ := hfile
  obtain ⟨dir', hstat', hget'⟩ := hfile'
  obtain rfl := Option.some.inj (hstat.symm.trans hstat')
  rw [get?_append, hget'] at hget
  cases hget

/-- As in the path of a scanned file, the parent of the source directory occurs only at the start of
the path of an index beside the file. -/
theorem Regular.onlyAtStart_index (h : Regular disk f source)
    (hscans : Scans disk f source ns name) :
    Text.OnlyAtStart (parentSlash source) (Path.descend source (ns ++ ["index.js"])) := by
  obtain ⟨content, hfile⟩ := hscans.isFile
  obtain ⟨hns, hname⟩ := List.forall_mem_append.mp (h.pathNames hfile)
  have hdir := h.normal.descend hns
  have hindexName : PathName "index.js" := by decide
  have honly := h.files ns name hscans.toVisits
  rw [Path.descend_concat, hdir.join (hname name (by simp))] at honly
  rw [Path.descend_concat, hdir.join hindexName]
  refine honly.of_sibling (parentSlash_ne_empty source) ?_ hindexName.noSlash
  rw [parentSlash, String.toList_append]
  exact List.getLast?_concat

/-! ### What a relative name becomes -/

/-- Whether a relative name in a directory becomes the name of the file to which a way leads from
its path. -/
def FollowsWay (disk : Disk) (source dir d : String) (way : Way) : Prop :=
  if d = "." then way = .index ∧
    (Path.parent source = "/" → (includePath dir d ++ way.ending).utf8ByteSize + 2 < maxPath)
  else Reads source dir d ∧ Fits disk source (includePath dir d) way

theorem Regular.completeModule_dot (h : Regular disk f source)
    (hlen : ∀ ms name, Scans disk f source ms name →
      (Path.descend source (ms ++ [name])).utf8ByteSize < maxPath)
    (hscans : Scans disk f source ns name)
    (hleads : Leads disk f source (Path.descend source ns) way)
    (hgoal : Path.descend source ns ++ way.ending = Path.descend source ms)
    (hms : ∀ n ∈ ms, PathName n) (hne : ms ≠ [])
    (hms' : Text.OnlyAtStart (parentSlash source) (Path.descend source ms)) :
    (way = .index ∧ (Path.parent source = "/" →
      (Path.descend source ms).utf8ByteSize + 2 < maxPath) →
      completeModule disk (moduleBase disk "." (Path.descend source ns) relative source) source =
        nodeName source ms) ∧
    (¬ (way = .index ∧ (Path.parent source = "/" →
      (Path.descend source ms).utf8ByteSize + 2 < maxPath)) →
      Path.name source ≠ "..js" →
      completeModule disk (moduleBase disk "." (Path.descend source ns) relative source) source ≠
        nodeName source ms) := by
  obtain ⟨content, hfile⟩ := hscans.isFile
  have hnames := h.pathNames hfile
  have hns : ∀ n ∈ ns, PathName n := fun n hn => hnames n (List.mem_append_left _ hn)
  have hdir := h.normal.descend hns
  have hindexName : PathName "index.js" := by decide
  have hindexNames := pathNames_concat hns hindexName
  have hindexPath : Path.descend source (ns ++ ["index.js"]) =
      Path.descend source ns ++ "/index.js" := by
    rw [Path.descend_concat, hdir.join hindexName, String.append_assoc]
    rfl
  have hindex := h.onlyAtStart_index hscans
  obtain ⟨added, hadded, hcomplete⟩ := exists_completeModule disk
    (moduleBase disk "." (Path.descend source ns) relative source) source
  have hstays : Path.name source ≠ "..js" → "." ++ added ≠ nodeName source ms := fun hother =>
    append_ne_nodeName h.normal hms hne hms' (.inl rfl) hother hadded
  have hbase := h.moduleBase_dot relative hns hindex
  cases way with
  | file => exact absurd hleads.1 (h.not_scanned_dir hscans)
  | script =>
    refine ⟨fun hway => absurd hway.1 (by decide), fun _ hother => ?_⟩
    rw [hcomplete, hbase]
    split_ifs
    · -- the index lies in the directory, the script beside it
      intro heq
      have hpath := congrArg (lead source ++ ·) heq
      simp only [← String.append_assoc] at hpath
      rw [lead_append_nodeName h.normal hindexNames hindex, lead_append_nodeName h.normal hms hms',
        ← hgoal, hindexPath, String.append_assoc, String.append_right_inj] at hpath
      have hlist := congrArg String.toList hpath
      rw [String.toList_append] at hlist
      cases hlist
    · exact hstays hother
  | index =>
    obtain ⟨-, -, hscanned⟩ := hleads
    have hexists := h.pathExists_of_scanned hlen hscanned
    rw [← hindexPath] at hscanned hexists
    obtain rfl : ns ++ ["index.js"] = ms :=
      h.normal.descend_injective hindexNames hms (hindexPath.trans hgoal)
    by_cases hsize : Path.parent source = "/" →
      (Path.descend source (ns ++ ["index.js"])).utf8ByteSize + 2 < maxPath
    · refine ⟨fun _ => ?_, fun hnot => absurd ⟨rfl, hsize⟩ hnot⟩
      have hsuffix : Path.suffix (Path.descend source (ns ++ ["index.js"])) = ".js" := by
        rw [suffix_concat h.normal hns hindexName]
        decide
      rw [hbase, if_pos ⟨hsize, hexists⟩,
        h.completeModule_of_scannedScript hindexNames hindex ⟨hscanned, hsuffix⟩]
    · refine ⟨fun hway => absurd hway.2 hsize, fun _ hother => ?_⟩
      rw [hcomplete, hbase, if_neg fun hcond => hsize hcond.1]
      exact hstays hother

/-- What a relative module name becomes in a script: the name of the file to which a way leads from
its path, exactly if it follows that way. -/
theorem Regular.completeModule_moduleBase (h : Regular disk f source)
    (hlen : ∀ ms name, Scans disk f source ms name →
      (Path.descend source (ms ++ [name])).utf8ByteSize < maxPath)
    (hscans : Scans disk f source ns name) (hat : Text.contains d "@" = false) (hd : IsRelative d)
    (hleads : Leads disk f source (includePath (Path.descend source ns) d) way) :
    (FollowsWay disk source (Path.descend source ns) d way →
      completeModule disk (moduleBase disk d (Path.descend source ns) (nodeName source ns) source)
        source = projectName source (includePath (Path.descend source ns) d ++ way.ending)) ∧
    (¬ FollowsWay disk source (Path.descend source ns) d way → Path.name source ≠ d ++ ".js" →
      completeModule disk (moduleBase disk d (Path.descend source ns) (nodeName source ns) source)
        source ≠ projectName source (includePath (Path.descend source ns) d ++ way.ending)) := by
  obtain ⟨content, hfile⟩ := hscans.isFile
  have hnames := h.pathNames hfile
  have hns : ∀ n ∈ ns, PathName n := fun n hn => hnames n (List.mem_append_left _ hn)
  have hns' : Text.OnlyAtStart (parentSlash source) (Path.descend source ns) := by
    have honly := h.files ns name hscans.toVisits
    rw [Path.descend_concat, (h.normal.descend hns).join (hnames name (by simp)),
      String.append_assoc] at honly
    exact honly.of_append
  obtain ⟨ks, hks, htarget⟩ := h.exists_descend hleads.scanned
  obtain ⟨ms, last, hscans', hgoal⟩ := hleads.scanned
  obtain ⟨content', hfile'⟩ := hscans'.isFile
  have hms := h.pathNames hfile'
  have hms' := h.files ms last hscans'.toVisits
  have hks' : Text.OnlyAtStart (parentSlash source) (Path.descend source ks) := by
    rw [← hgoal] at hms'
    exact htarget ▸ hms'.of_append
  change includePath (Path.descend source ns) d = Path.descend source ks at htarget
  have hnode : projectName source (includePath (Path.descend source ns) d ++ way.ending) =
      nodeName source (ms ++ [last]) :=
    congrArg (projectName source) hgoal
  rw [hnode, FollowsWay]
  by_cases hdot : d = "."
  · subst hdot
    rw [includePath_dot (h.normal.descend hns)] at hleads hgoal ⊢
    rw [if_pos rfl, hgoal]
    exact h.completeModule_dot hlen hscans hleads hgoal hms (by simp) hms'
  · rw [if_neg hdot]
    by_cases hreads : Reads source (Path.descend source ns) d
    · have hending : nodeName source (ms ++ [last]) = nodeName source ks ++ way.ending := by
        refine (String.append_right_inj (lead source)).mp ?_
        rw [← String.append_assoc, lead_append_nodeName h.normal hms hms',
          lead_append_nodeName h.normal hks hks', ← htarget, hgoal]
      rw [htarget] at hleads
      have hiff := h.completeModule_nodeName_iff hks hks' hlen hleads
      rw [h.moduleBase_of_reads hns hns' hks hks' hat htarget hreads, hending, htarget]
      exact ⟨fun hfollows => hiff.mpr hfollows.2,
        fun hnot _ => mt hiff.mp fun hfits => hnot ⟨hreads, hfits⟩⟩
    · refine ⟨fun hfollows => absurd hfollows.1 hreads, fun _ hother => ?_⟩
      obtain ⟨added, hadded, hcomplete⟩ := exists_completeModule disk
        (moduleBase disk d (Path.descend source ns) (nodeName source ns) source) source
      rw [hcomplete]
      exact h.moduleBase_append_ne hns hns' hks hms hms'
        (by simp) hat hd hdot hother htarget hgoal hreads hadded

end Survey

end CodeAtlas
