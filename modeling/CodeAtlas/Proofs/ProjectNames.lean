import CodeAtlas.Proofs.Paths

/-!
# Names of files in a project

The name of a file in its project is its path without the parent of the source directory. The parent
is cut out wherever it stands in a path, not only at the start. `Chars.infix_join_iff` says where a
directory, between two slashes, can stand in a path: where its names follow each other among the
names of directories. So the name is the path from the source directory on exactly if the source
directory lies below a directory with a name, and the names that lead there do not follow each other
once more on the way to the file (`Resolve.ParentOnce`). Among such files the name tells one from
the other (`Resolve.relativeName_below`). Of other paths parts are lost, and then two files can have
one name (`Sample.relativeName_lost`).
-/

namespace CodeAtlas

open Resolve

namespace Chars

variable {old cs piece : List Char} {sep : Char} {ps qs : List (List Char)}

/-! ### What is left without the occurrences of a text -/

theorem exists_length_replaceFrom (hne : old ≠ []) (skip : Nat) (hskip : skip ≤ cs.length) :
    ∃ n, cs.length = (replaceFrom old [] skip cs).length + skip + n * old.length := by
  induction cs generalizing skip with
  | nil =>
    obtain rfl := Nat.le_zero.mp hskip
    exact ⟨0, by simp [replaceFrom]⟩
  | cons c cs ih =>
    cases skip with
    | succ skip =>
      obtain ⟨n, hn⟩ := ih skip (Nat.le_of_succ_le_succ hskip)
      exact ⟨n, by rw [replaceFrom, List.length_cons, hn]; omega⟩
    | zero =>
      rw [replaceFrom]
      split
      · next hstart =>
        have hpos : 0 < old.length := List.length_pos_iff.mpr hne
        have hle : old.length ≤ cs.length + 1 := (List.isPrefixOf_iff_prefix.mp hstart).length_le
        obtain ⟨n, hn⟩ := ih (old.length - 1) (by omega)
        exact ⟨n + 1, by rw [List.length_cons, List.nil_append, hn, Nat.succ_mul]; omega⟩
      · obtain ⟨n, hn⟩ := ih 0 (Nat.zero_le _)
        exact ⟨n, by rw [List.length_cons, List.length_cons, hn]; omega⟩

theorem exists_length_replace (hne : old ≠ []) (cs : List Char) :
    ∃ n, cs.length = (replace old [] cs).length + n * old.length := by
  rw [replace, if_neg (by simpa using hne)]
  exact exists_length_replaceFrom hne 0 (Nat.zero_le _)

theorem length_replace_lt (hne : old ≠ []) (h : old <:+: cs) :
    (replace old [] cs).length < cs.length := by
  induction cs with
  | nil => exact absurd (List.eq_nil_of_infix_nil h) hne
  | cons c cs ih =>
    by_cases hstart : old <+: c :: cs
    · obtain ⟨rest, hrest⟩ := hstart
      have hpos : 0 < old.length := List.length_pos_iff.mpr hne
      obtain ⟨n, hn⟩ := exists_length_replace hne rest
      rw [← hrest, replace_append hne, List.nil_append, List.length_append]
      omega
    · have hlater := (List.infix_cons_iff.mp h).resolve_left hstart
      have hlt := ih hlater
      rw [replace, if_neg (by simpa using hne)] at hlt ⊢
      rw [replaceFrom, if_neg (by simpa using hstart)]
      exact Nat.succ_lt_succ hlt

theorem replace_nil_eq_self_iff (hne : old ≠ []) : replace old [] cs = cs ↔ ¬ old <:+: cs := by
  constructor
  · intro heq h
    have hlt := length_replace_lt hne h
    rw [heq] at hlt
    exact Nat.lt_irrefl _ hlt
  · exact replace_of_not_infix

/-! ### Where names follow each other -/

/-- A text between separators stands in joined pieces where its own pieces follow each other,
neither first nor last. -/
theorem infix_join_iff (hne : ps ≠ []) (hps : ∀ p ∈ ps, sep ∉ p)
    (hqs : ∀ p ∈ piece :: qs, sep ∉ p) :
    sep :: join [sep] ps ++ [sep] <:+: join [sep] (piece :: qs) ↔ ps <:+: qs.dropLast := by
  constructor
  · rintro ⟨before, after, heq⟩
    -- cutting at the separators finds the pieces of both
    have hpieces : splitOn sep before ++ (ps ++ splitOn sep after) = piece :: qs := by
      rw [← splitOn_join (List.cons_ne_nil piece qs) hqs, ← heq]
      simp [splitOn_append, splitOn_join hne hps]
    obtain ⟨first, rest, hbefore⟩ := List.exists_cons_of_ne_nil (splitOn_ne_nil sep before)
    rw [hbefore, List.cons_append] at hpieces
    obtain ⟨-, rfl⟩ := List.cons.inj hpieces
    refine ⟨rest, (splitOn sep after).dropLast, ?_⟩
    rw [← List.append_assoc, List.dropLast_append_of_ne_nil (splitOn_ne_nil sep after)]
  · rintro ⟨before, after, heq⟩
    have hqs' : qs ≠ [] := by
      rintro rfl
      simp [hne] at heq
    obtain ⟨lead, last, rfl⟩ := (List.eq_nil_or_concat' qs).resolve_left hqs'
    rw [List.dropLast_concat] at heq
    have hjoin : piece :: (lead ++ [last]) = (piece :: before) ++ (ps ++ (after ++ [last])) := by
      rw [← heq]
      simp
    rw [hjoin, join_append _ (by simp) (by simp), join_append _ hne (by simp)]
    exact ⟨join [sep] (piece :: before), join [sep] (after ++ [last]), by simp⟩

theorem not_infix_join (h : ∀ p ∈ qs, p ≠ [] ∧ sep ∉ p) : ¬ [sep, sep] <:+: join [sep] qs := by
  rintro ⟨before, after, heq⟩
  have hne : qs ≠ [] := by
    rintro rfl
    simp [join] at heq
  have hpieces : splitOn sep before ++ (splitOn sep [] ++ splitOn sep after) = qs := by
    rw [← splitOn_join hne fun p hp => (h p hp).2, ← heq]
    simp [splitOn_append, splitOn]
  have hmem : [] ∈ qs := by
    rw [← hpieces]
    simp [splitOn]
  exact (h [] hmem).1 rfl

end Chars

/-! ### The parts of a source directory -/

namespace Path

variable {source : String}

/-- What can stand between two slashes of a path. -/
def Segment (name : String) : Prop := name ≠ "" ∧ '/' ∉ name.toList

instance (name : String) : Decidable (Segment name) := inferInstanceAs (Decidable (_ ∧ _))

theorem Segment.toList {name : String} (h : Segment name) : name.toList ≠ [] ∧ '/' ∉ name.toList :=
  ⟨fun hnil => h.1 (String.toList_eq_nil_iff.mp hnil), h.2⟩

theorem root_of_isAbsolute (h : isAbsolute source = true) :
    root source.toList = ['/'] ∨ root source.toList = ['/', '/'] := by
  rw [isAbsolute, beq_iff_eq, List.head?_eq_some_iff] at h
  obtain ⟨cs, hcs⟩ := h
  rw [hcs]
  unfold root
  split <;> simp_all

theorem root_ne_nil (h : isAbsolute source = true) : root source.toList ≠ [] := by
  rcases root_of_isAbsolute h with hroot | hroot <;> simp [hroot]

theorem assemble_of_ne_nil {r : List Char} (h : r ≠ []) (segs : List (List Char)) :
    assemble r segs = r ++ Chars.join ['/'] segs := by
  unfold assemble
  split
  · contradiction
  · rfl

theorem of_mem_segments {cs p : List Char} (h : p ∈ segments cs) : p ≠ [] ∧ '/' ∉ p := by
  obtain ⟨hmem, hstep⟩ := List.mem_filter.mp h
  refine ⟨?_, fun hc => (Chars.mem_of_mem_splitOn hmem hc).2 rfl⟩
  rintro rfl
  cases hstep

theorem toList_of_normalize (habs : isAbsolute source = true)
    (hnormal : normalize source = source) :
    source.toList = root source.toList ++ Chars.join ['/'] (segments source.toList) := by
  conv_lhs => rw [← hnormal, normalize, String.toList_ofList, assemble_of_ne_nil (root_ne_nil habs)]

end Path

namespace Resolve

variable {source : String} {names others : List String} {ps : List (List Char)} {base : List Char}

def filePath (dir : String) (names : List String) : String := dir ++ "/" ++ Text.join "/" names

/-- There are names that lead to the source directory, and on the way from there to a file no names
of directories repeat them. A path that starts with two slashes is found nowhere else. -/
def ParentOnce (source : String) (names : List String) : Prop :=
  (Path.segments source.toList).dropLast ≠ [] ∧
    (Path.root source.toList = ['/'] →
      ¬ (Path.segments source.toList).dropLast <:+: (names.map String.toList).dropLast)

instance (source : String) (names : List String) : Decidable (ParentOnce source names) :=
  inferInstanceAs (Decidable (_ ∧ (_ → _)))

theorem toList_parentSlash (habs : Path.isAbsolute source = true) :
    (parentSlash source).toList =
      Path.root source.toList ++ Chars.join ['/'] (Path.segments source.toList).dropLast ++
      ['/'] := by
  rw [parentSlash, Path.parent, Path.parentChars, Path.assemble_of_ne_nil (Path.root_ne_nil habs)]
  simp

theorem toList_parentSlash_ne_nil (source : String) : (parentSlash source).toList ≠ [] :=
  fun hnil => parentSlash_ne_empty source (String.toList_eq_nil_iff.mp hnil)

/-- Right below a root there is no parent to cut off: of a path more would be left than the root, or
less. -/
theorem relativeName_ne_of_root (habs : Path.isAbsolute source = true)
    (hnormal : Path.normalize source = source)
    (hroot : (Path.segments source.toList).dropLast = []) :
    relativeName source (filePath source names) ≠ filePath (Path.name source) names := by
  intro heq
  have hname : Chars.join ['/'] (Path.segments source.toList) = (Path.name source).toList := by
    rw [Path.name, String.toList_ofList]
    rcases List.eq_nil_or_concat' (Path.segments source.toList) with h | ⟨lead, base, h⟩
    · rw [h]
      rfl
    · rw [h, List.dropLast_concat] at hroot
      rw [h, hroot]
      rfl
  obtain ⟨n, hn⟩ :=
    Chars.exists_length_replace (toList_parentSlash_ne_nil source) (filePath source names).toList
  have hleft :
      (Chars.replace (parentSlash source).toList [] (filePath source names).toList).length =
      (filePath (Path.name source) names).toList.length := by
    rw [← heq, relativeName, Text.replace, String.toList_ofList, String.toList_empty]
  have hlong : (filePath source names).toList.length =
      (Path.root source.toList).length + (filePath (Path.name source) names).toList.length := by
    have hsource := congrArg List.length (Path.toList_of_normalize habs hnormal)
    rw [hname, List.length_append] at hsource
    simp only [filePath, String.toList_append, List.length_append]
    omega
  have hslash : (parentSlash source).toList.length = (Path.root source.toList).length + 1 := by
    rw [toList_parentSlash habs, hroot]
    simp [Chars.join]
  have hpos : 0 < (Path.root source.toList).length :=
    List.length_pos_iff.mpr (Path.root_ne_nil habs)
  -- the root would be removed by cutting out a longer text
  rw [hleft, hslash, hlong] at hn
  cases n with
  | zero => omega
  | succ n => rw [Nat.succ_mul] at hn; omega

theorem toList_filePath (habs : Path.isAbsolute source = true)
    (hnormal : Path.normalize source = source)
    (hsegments : Path.segments source.toList = ps ++ [base]) (hps : ps ≠ []) (hne : names ≠ []) :
    (filePath source names).toList =
      (parentSlash source).toList ++ Chars.join ['/'] (base :: names.map String.toList) := by
  have hsource := Path.toList_of_normalize habs hnormal
  rw [hsegments, Chars.join_append _ hps (by simp)] at hsource
  have hrest : Chars.join ['/'] (base :: names.map String.toList) = _ :=
    Chars.join_cons ['/'] base (by simpa using hne)
  rw [filePath, String.toList_append, String.toList_append, hsource, toList_parentSlash habs,
    hsegments, List.dropLast_concat, hrest, Text.join]
  simp [Chars.join]

theorem toList_filePath_name (hsegments : Path.segments source.toList = ps ++ [base])
    (hne : names ≠ []) :
    (filePath (Path.name source) names).toList =
      Chars.join ['/'] (base :: names.map String.toList) := by
  rw [filePath, Path.name, hsegments, Chars.join_cons _ _ (by simpa using hne), Text.join]
  simp

/-- The parent of the source directory stands in the rest of a path where its names follow each
other. -/
theorem parentSlash_infix_iff (habs : Path.isAbsolute source = true)
    (hsegments : Path.segments source.toList = ps ++ [base]) (hps : ps ≠ [])
    (hnames : ∀ n ∈ names, Path.Segment n) :
    ¬ (parentSlash source).toList <:+: Chars.join ['/'] (base :: names.map String.toList) ↔
    ParentOnce source names := by
  have hsteps : ∀ p ∈ ps ++ [base], p ≠ [] ∧ '/' ∉ p :=
    fun p hp => Path.of_mem_segments (hsegments ▸ hp)
  have hpieces : ∀ p ∈ base :: names.map String.toList, p ≠ [] ∧ '/' ∉ p :=
    List.forall_mem_cons.mpr ⟨hsteps base (by simp),
      List.forall_mem_map.mpr fun n hn => (hnames n hn).toList⟩
  rw [ParentOnce, toList_parentSlash habs, hsegments, List.dropLast_concat, and_iff_right hps]
  rcases Path.root_of_isAbsolute habs with hroot | hroot
  · rw [hroot, forall_prop_of_true rfl]
    refine not_congr (Chars.infix_join_iff hps ?_ fun p hp => (hpieces p hp).2)
    exact fun p hp => (hsteps p (by simp [hp])).2
  · refine iff_of_true (fun hinfix => Chars.not_infix_join hpieces (List.IsInfix.trans ?_ hinfix))
      (by simp [hroot])
    exact ⟨[], Chars.join ['/'] ps ++ ['/'], by simp [hroot]⟩

theorem relativeName_eq_iff (habs : Path.isAbsolute source = true)
    (hnormal : Path.normalize source = source) (hne : names ≠ [])
    (hnames : ∀ n ∈ names, Path.Segment n) :
    relativeName source (filePath source names) = filePath (Path.name source) names ↔
    ParentOnce source names := by
  rcases List.eq_nil_or_concat' (Path.segments source.toList) with h | ⟨ps, base, h⟩
  · exact iff_of_false (relativeName_ne_of_root habs hnormal (by simp [h]))
      fun honce => honce.1 (by simp [h])
  by_cases hps : ps = []
  · exact iff_of_false (relativeName_ne_of_root habs hnormal (by simp [h, hps]))
      fun honce => honce.1 (by simp [h, hps])
  have hslash := toList_parentSlash_ne_nil source
  rw [← parentSlash_infix_iff habs h hps hnames, ← Chars.replace_nil_eq_self_iff hslash,
    ← String.toList_inj, relativeName, Text.replace, String.toList_ofList,
    toList_filePath habs hnormal h hps hne, toList_filePath_name h hne, String.toList_empty,
    Chars.replace_append hslash, List.nil_append]

theorem relativeName_filePath_name (habs : Path.isAbsolute source = true) (hne : names ≠ [])
    (hnames : ∀ n ∈ names, Path.Segment n) (honce : ParentOnce source names) :
    relativeName source (filePath (Path.name source) names) =
      filePath (Path.name source) names := by
  rcases List.eq_nil_or_concat' (Path.segments source.toList) with h | ⟨ps, base, h⟩
  · exact absurd (by simp [h]) honce.1
  have hps : ps ≠ [] := by simpa [h] using honce.1
  refine Text.replace_of_not_infix ?_
  rw [toList_filePath_name h hne]
  exact (parentSlash_infix_iff habs h hps hnames).mpr honce

theorem eq_of_filePath_eq {dir : String} (hne : names ≠ []) (hne' : others ≠ [])
    (hnames : ∀ n ∈ names, Path.Segment n) (hothers : ∀ n ∈ others, Path.Segment n)
    (heq : filePath dir others = filePath dir names) : others = names := by
  have hsplit : ∀ ns : List String, ns ≠ [] → (∀ n ∈ ns, Path.Segment n) →
      Chars.splitOn '/' (Text.join "/" ns).toList = ns.map String.toList := by
    intro ns hns h
    rw [Text.join, String.toList_ofList]
    exact Chars.splitOn_join (by simpa using hns) (List.forall_mem_map.mpr fun n hn => (h n hn).2)
  have hjoin : (Text.join "/" others).toList = (Text.join "/" names).toList := by
    have hchars := congrArg String.toList heq
    simp only [filePath, String.toList_append] at hchars
    exact List.append_cancel_left hchars
  have hmap := hsplit others hne' hothers
  rw [hjoin, hsplit names hne hnames] at hmap
  exact (List.map_injective_iff.mpr (fun _ _ => String.toList_inj.mp) hmap).symm

/-- The name of a file is its path from the source directory on exactly if the parent of the source
directory stands only once in the path. Such names are different for different files, and stay as
they are when they are taken for paths. -/
theorem relativeName_below (source : String) (habs : Path.isAbsolute source = true)
    (hnormal : Path.normalize source = source) (names : List String) (hne : names ≠ [])
    (hnames : ∀ n ∈ names, Path.Segment n) :
    (relativeName source (filePath source names) = filePath (Path.name source) names ↔
      ParentOnce source names) ∧
    (ParentOnce source names →
      relativeName source (relativeName source (filePath source names)) =
        relativeName source (filePath source names) ∧
      ∀ others, others ≠ [] → (∀ n ∈ others, Path.Segment n) → ParentOnce source others →
        relativeName source (filePath source others) = relativeName source (filePath source names) →
        others = names) := by
  have hname := relativeName_eq_iff habs hnormal hne hnames
  refine ⟨hname, fun honce => ⟨?_, fun others hne' hothers honce' heq => ?_⟩⟩
  · rw [hname.mpr honce]
    exact relativeName_filePath_name habs hne hnames honce
  · rw [hname.mpr honce, (relativeName_eq_iff habs hnormal hne' hothers).mpr honce'] at heq
    exact eq_of_filePath_eq hne hne' hnames hothers heq

end Resolve

namespace Sample

/-- The last name on the way may well be that of the parent. -/
theorem relativeName_below_app : Resolve.ParentOnce "/src/app" ["lib", "src"] ∧
    relativeName "/src/app" "/src/app/lib/src" = "app/lib/src" ∧
    relativeName "/src/app" "app/lib/src" = "app/lib/src" := by
  have honce : Resolve.ParentOnce "/src/app" ["lib", "src"] := by decide +kernel
  obtain ⟨hname, hstays⟩ := relativeName_below "/src/app" (by decide +kernel) (by decide +kernel)
    ["lib", "src"] (by decide +kernel) (by decide +kernel)
  have hsame := (hstays honce).1
  rw [hname.mpr honce] at hsame
  exact ⟨honce, hname.mpr honce, hsame⟩

/-- Where the parent stands once more, two names melt into one. Then two files have the same name,
and what is left can hold the parent again. -/
theorem relativeName_lost :
    relativeName "/src/app" "/src/app/lib/src/util.c" = "app/libutil.c" ∧
    relativeName "/src/app" "/src/app/libutil.c" = "app/libutil.c" ∧
    relativeName "/ab/p" "/ab/p/a/ab/b/x.c" = "p/ab/x.c" ∧
    relativeName "/ab/p" "p/ab/x.c" = "px.c" := by
  decide +kernel

end Sample

end CodeAtlas
