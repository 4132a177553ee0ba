import CodeAtlas.Proofs.ModulePaths

/-!
# Names below the source directory

What a name means in a directory is found by its names alone where there are no links. That the
source directory contains it is told by looking for the source directory anywhere in the path, and
its name is made by removing the parent directory wherever that stands. Where the parent stands at
the start only, this is a prefix and the rest behind it (`Resolve.fromDirectory_of_onlyAtStart`).
-/

namespace CodeAtlas

open FileTree Survey

namespace Resolve

variable {disk : Disk} {source dir d path name : String}

theorem parentSlash_append_name (h : Path.Normal source) (hroot : Path.parent source ≠ "/") :
    parentSlash source ++ Path.name source = source := by
  obtain ⟨parents, base, hp, hb, rfl⟩ := h.exists_base
  rw [Path.parent_pathOf hp hb, Ne, pathOf_eq_slash_iff hp] at hroot
  rw [parentSlash_pathOf hp hb, name_pathOf_concat hp hb, pathOf_concat hroot]

/-- Where the parent of the source directory stands at the start of a path only, so does the source
directory. -/
theorem contains_eq_startsWith (h : Path.Normal source) (hroot : Path.parent source ≠ "/")
    (honly : Text.OnlyAtStart (parentSlash source) path) :
    Text.contains path (source ++ "/") = Text.startsWith path (source ++ "/") := by
  rw [Bool.eq_iff_iff, Text.contains, Text.startsWith, Chars.contains_iff_infix,
    List.isPrefixOf_iff_prefix]
  refine ⟨?_, List.IsPrefix.isInfix⟩
  rintro ⟨before, after, heq⟩
  have hsource := congrArg String.toList (parentSlash_append_name h hroot)
  rw [String.toList_append] at hsource
  obtain rfl := honly before ((Path.name source).toList ++ ('/' :: after)) (by
    rw [← heq, String.toList_append, ← hsource]
    simp)
  exact ⟨after, heq⟩

/-- The segments of what stands behind a directory in a path are names on the path. -/
theorem pathName_of_mem_splitOn (hpath : Path.Normal path) (heq : parentSlash source ++ name = path)
    {p : String} (hp : p ∈ Text.splitOn name '/') : PathName p := by
  obtain ⟨place, hne, hnames, rfl⟩ := hpath
  obtain ⟨cs, hcs, rfl⟩ := List.mem_map.mp hp
  have htext := congrArg String.toList heq
  rw [toList_pathOf, parentSlash, String.toList_append, String.toList_append,
    List.append_assoc] at htext
  have hsplit : Chars.splitOn '/' (Path.parent source).toList ++ Chars.splitOn '/' name.toList =
      [] :: place.map String.toList := by
    rw [← Chars.splitOn_append]
    refine (congrArg (Chars.splitOn '/') htext).trans ((Chars.splitOn_append '/' [] _).trans ?_)
    rw [Chars.splitOn_join (by simpa using hne) (by simpa using fun n hn => (hnames n hn).noSlash)]
    rfl
  obtain ⟨first, rest, hfirst⟩ :=
    List.exists_cons_of_ne_nil (Chars.splitOn_ne_nil '/' (Path.parent source).toList)
  rw [hfirst, List.cons_append] at hsplit
  have hmem : cs ∈ place.map String.toList :=
    (List.cons.inj hsplit).2 ▸ List.mem_append_right rest hcs
  obtain ⟨n, hn, rfl⟩ := List.mem_map.mp hmem
  rw [String.ofList_toList]
  exact hnames n hn

/-- What a name means in a directory, where there are no links and the parent of the source
directory stands in the path that it leads to at the start only: the path behind that parent if it
lies below the source directory, else the name itself. A name that cannot be encoded is left as it
is. -/
theorem fromDirectory_of_onlyAtStart (hplain : disk.tree.Plain) (h : Path.Normal source)
    (hroot : Path.parent source ≠ "/") (hdir : Path.Normal dir)
    (honly : Text.OnlyAtStart (parentSlash source) (includePath dir d)) :
    (PathText d → Text.startsWith (includePath dir d) (source ++ "/") = true →
      parentSlash source ++ fromDirectory disk d dir source = includePath dir d ∧
      Text.startsWith (fromDirectory disk d dir source) (Path.name source ++ "/") = true ∧
      ∀ p ∈ Text.splitOn (fromDirectory disk d dir source) '/', p ≠ "" ∧ p ≠ "." ∧ p ≠ "..") ∧
    (¬ (PathText d ∧ Text.startsWith (includePath dir d) (source ++ "/") = true) →
      fromDirectory disk d dir source = d) := by
  have hfrom : fromDirectory disk d dir source =
      if PathText d ∧ Text.startsWith (includePath dir d) (source ++ "/") = true
      then relativeName source (includePath dir d) else d := by
    rw [fromDirectory, resolve?_include hplain hdir, ← contains_eq_startsWith h hroot honly]
    by_cases hd : PathText d <;> simp [hd, h.ne_empty, withSlash_normal h]
  rw [hfrom]
  refine ⟨fun hd hbelow => ?_, fun hnot => if_neg hnot⟩
  rw [if_pos ⟨hd, hbelow⟩]
  have hcontains := (contains_eq_startsWith h hroot honly).trans hbelow
  have hpath := normal_includePath h hdir hd hcontains
  have heq := lead_append_projectName (startsWith_of_contains h hpath hcontains honly) honly
  rw [lead, if_neg hroot] at heq
  refine ⟨heq, ?_, fun p hp => ?_⟩
  · have hprefix : (parentSlash source).toList ++ (Path.name source ++ "/").toList <+:
        (parentSlash source).toList ++ (projectName source (includePath dir d)).toList := by
      rw [← String.toList_append, ← String.toList_append, heq, ← String.append_assoc,
        parentSlash_append_name h hroot]
      exact List.isPrefixOf_iff_prefix.mp hbelow
    exact List.isPrefixOf_iff_prefix.mpr ((List.prefix_append_right_inj _).mp hprefix)
  · have hname := pathName_of_mem_splitOn hpath heq hp
    exact ⟨hname.ne_empty, hname.ne_dot, hname.ne_dots⟩

end Resolve

namespace Sample

open Resolve

/-- A name that leads out of the project and into it again, and one that stays outside. -/
theorem fromDirectory_outAndIn :
    "/w/" ++ fromDirectory disk "../../proj//./b/x.h" "/w/proj/sub" "/w/proj" = "/w/proj/b/x.h" ∧
      fromDirectory disk "../../q/x.h" "/w/proj/sub" "/w/proj" = "../../q/x.h" := by
  have hdir : Path.Normal (Path.descend "/w/proj" ["sub"]) :=
    regular.normal.descend (by decide +kernel)
  obtain ⟨hin, -⟩ := fromDirectory_of_onlyAtStart (d := "../../proj//./b/x.h") plain regular.normal
    (by decide +kernel) hdir (by decide +kernel)
  obtain ⟨-, hout⟩ :=
    fromDirectory_of_onlyAtStart (d := "../../q/x.h") plain regular.normal (by decide +kernel) hdir
    (by decide +kernel)
  obtain ⟨hname, -⟩ := hin (by decide +kernel) (by decide +kernel)
  exact ⟨hname.trans (by decide +kernel), hout (by decide +kernel)⟩

/-- Half of a character keeps a name from being resolved, though the path that it leads to lies
below the source directory. -/
theorem fromDirectory_halfInclude : '\x00' ∉ halfInclude.toList ∧
    Text.OnlyAtStart (parentSlash "/w/proj") (includePath "/w/proj" halfInclude) ∧
    Text.startsWith (includePath "/w/proj" halfInclude) ("/w/proj" ++ "/") = true ∧
    fromDirectory disk halfInclude "/w/proj" "/w/proj" = halfInclude ∧
    parentSlash "/w/proj" ++ halfInclude ≠ includePath "/w/proj" halfInclude := by
  decide +kernel

end Sample

end CodeAtlas
