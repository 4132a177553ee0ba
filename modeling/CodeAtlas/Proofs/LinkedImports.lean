import CodeAtlas.Proofs.Effects
import CodeAtlas.Proofs.Maps
import CodeAtlas.Proofs.Words
import CodeAtlas.Scan.Scanner

/-!
# Imports that are linked to files

After all files of Java have been scanned, a dotted name among their imports stands for a path, its
dots being slashes. It is replaced by the first file of the analysis whose name occurs in this path,
and stays as it is if there is none (`Scanner.linked_iff`). Names and number of the imports of a
file keep their order, and nothing else changes (`Scanner.linkFiles_linked`). A file whose name is
longer than the path, because it ends with the path below some directory, does not occur in it; so
the name of a class is not replaced by the file in which the class is (`Sample.linkFiles_below`).
-/

namespace CodeAtlas

open Effect

namespace Scanner

variable {files : List String} {d e f : String}

def packagePath (d : String) : String := Text.replace d "." "/" ++ ".java"

/-- Whether the name of a file occurs in the path that a dotted name stands for. -/
def OccursIn (f d : String) : Prop := f.toList <:+: (packagePath d).toList

/-- Whether the name of a file ends with the path that a dotted name stands for, below some
directory. -/
def LiesAt (f d : String) : Prop := ("/" ++ packagePath d).toList <:+ f.toList

/-- What becomes of a dotted name. -/
inductive Linked (files : List String) (d : String) : String → Prop
  /-- The first file that occurs in the path takes its place. -/
  | file {before after : List String} {f : String} : files = before ++ f :: after → OccursIn f d →
      (∀ g ∈ before, ¬ OccursIn g d) → Linked files d f
  /-- It stays if no file occurs in the path. -/
  | stays : (∀ g ∈ files, ¬ OccursIn g d) → Linked files d d

theorem contains_packagePath : Text.contains (packagePath d) f = true ↔ OccursIn f d := by
  rw [Text.contains, Chars.contains_iff_infix, OccursIn]

theorem linked_iff : Linked files d e ↔ knownFile files d = e := by
  have hnot : ∀ g, ¬ OccursIn g d ↔ Text.contains (packagePath d) g = false := fun g => by
    rw [← contains_packagePath, Bool.not_eq_true]
  constructor
  · intro h
    cases h with
    | @file before after f hfiles hf hbefore =>
      have hfind : files.find? (fun key => Text.contains (packagePath d) key) = some e := by
        refine List.find?_eq_some_iff_append.mpr
          ⟨contains_packagePath.mpr hf, before, after, hfiles, fun g hg => ?_⟩
        rw [(hnot g).mp (hbefore g hg)]
        rfl
      show (files.find? fun key => Text.contains (packagePath d) key).getD d = e
      rw [hfind]
      rfl
    | stays h =>
      have hfind : files.find? (fun key => Text.contains (packagePath d) key) = none := by
        refine List.find?_eq_none.mpr fun g hg => ?_
        rw [contains_packagePath]
        exact h g hg
      show (files.find? fun key => Text.contains (packagePath d) key).getD d = d
      rw [hfind]
      rfl
  · rintro rfl
    show Linked files d ((files.find? fun key => Text.contains (packagePath d) key).getD d)
    cases hfind : files.find? fun key => Text.contains (packagePath d) key with
    | none =>
      refine .stays fun g hg hocc => ?_
      exact List.find?_eq_none.mp hfind g hg (contains_packagePath.mpr hocc)
    | some f =>
      obtain ⟨hf, before, after, hfiles, hbefore⟩ := List.find?_eq_some_iff_append.mp hfind
      refine .file hfiles (contains_packagePath.mp hf) fun g hg => ?_
      exact (hnot g).mpr (by simpa using hbefore g hg)

/-! ### Files in packages -/

theorem toList_packagePath (d : String) :
    (packagePath d).toList = (d.toList.map fun c => if c = '.' then '/' else c) ++
      ".java".toList := by
  have hmap : (d.toList.flatMap fun c => if c = '.' then ['/'] else [c]) =
      d.toList.map fun c => if c = '.' then '/' else c := by
    rw [List.map_eq_flatMap]
    refine List.flatMap_congr fun c _ => ?_
    split_ifs <;> rfl
  rw [packagePath, String.toList_append, Text.replace, String.toList_ofList]
  exact congrArg (· ++ ".java".toList) ((Chars.replace_singleton '.' ['/'] d.toList).trans hmap)

theorem LiesAt.length_lt (h : LiesAt f d) :
    (packagePath d).length < f.length ∧ d.length < f.length := by
  have hle := h.length_le
  have hpath := congrArg List.length (toList_packagePath d)
  simp only [String.toList_append, List.length_append, List.length_map,
    String.length_toList] at hle hpath
  have hslash : "/".length = 1 := rfl
  omega

/-- A dotted name is not replaced by a file that lies at its path. -/
theorem Linked.ne_of_liesAt (h : Linked files d e) (hf : LiesAt f d) : e ≠ f := by
  rintro rfl
  obtain ⟨hpath, hname⟩ := hf.length_lt
  cases h with
  | file _ hocc _ =>
    have hle := hocc.length_le
    rw [String.length_toList, String.length_toList] at hle
    omega
  | stays => omega

/-- The only dot of a path is that of its extension, so a file with the extension occurs at its
end. -/
theorem occursIn_iff_suffix (hf : ".java".toList <:+ f.toList) :
    OccursIn f d ↔ f.toList <:+ (packagePath d).toList := by
  refine ⟨fun h => ?_, List.IsSuffix.isInfix⟩
  obtain ⟨name, hname⟩ := hf
  obtain ⟨as, bs, hpath⟩ := h
  have hdot : '.' ∉ d.toList.map fun c => if c = '.' then '/' else c := by
    intro hmem
    obtain ⟨c, -, hc⟩ := List.mem_map.mp hmem
    split_ifs at hc with hcdot
    · cases hc
    · exact hcdot hc
  have hsplit : (as ++ name) ++ '.' :: ("java".toList ++ bs) =
      (d.toList.map fun c => if c = '.' then '/' else c) ++ '.' :: "java".toList := by
    have hjava : ".java".toList = '.' :: "java".toList := rfl
    rw [toList_packagePath, ← hname, hjava] at hpath
    simpa using hpath
  have hbs : bs = [] := by
    rcases List.append_eq_append_iff.mp hsplit with ⟨more, hmore, hrest⟩ | ⟨more, hmore, hrest⟩
    · cases more with
      | nil => simpa using hrest
      | cons c more =>
        obtain ⟨rfl, -⟩ := List.cons.inj hrest
        exact absurd (hmore ▸ by simp) hdot
    · cases more with
      | nil => simpa using hrest
      | cons c more =>
        have hmem : '.' ∈ "java".toList := by
          rw [(List.cons.inj hrest).2]
          simp
        exact absurd hmem (by decide)
  exact ⟨as, by rw [← hpath, hbs, List.append_nil]⟩

/-! ### All files -/

def IsOwn (ctx : ScanContext) (r : ScanResult) : Prop := r.analysis = ctx.analysis ∧ r.isFile = true

/-- After all files have been scanned, each import of a file of the analysis is replaced by the
first file of the analysis whose name occurs in its path, and stays if there is none. So it is not
replaced by any file that lies at its path below some directory, also if there is just one. The
names of files with the extension of the language occur at the end of a path only. -/
theorem linkFiles_linked (ctx : ScanContext) (t : ScanState) (hjava : t.scanner.language = .java) :
    ∃ t', linkFiles ctx t = .ok () t' ∧ t'.statistics = t.statistics ∧ t'.scanner.language = .java ∧
      t'.scanner.results.keys = t.scanner.results.keys ∧
      (∀ key r, t.scanner.results.get? key = some r → ¬ IsOwn ctx r →
        t'.scanner.results.get? key = some r) ∧
      (∀ key r, t.scanner.results.get? key = some r → IsOwn ctx r → ∃ imports,
        t'.scanner.results.get? key = some { r with imports := imports } ∧
        List.Forall₂ (fun d e => Linked (ownFiles t.scanner.results ctx.analysis).keys d e ∧
          ∀ f, LiesAt f d → e ≠ f)
          r.imports imports) ∧
      ∀ d f, ".java".toList <:+ f.toList →
        (OccursIn f d ↔ f.toList <:+ (packagePath d).toList) := by
  refine ⟨{ t with scanner := { t.scanner with results := t.scanner.results.mapValues fun _ r =>
    if r.analysis == ctx.analysis && r.isFile then
      { r with imports := r.imports.map (knownFile (ownFiles t.scanner.results ctx.analysis).keys) }
    else r } }, ?_, rfl, hjava, OrderedMap.keys_mapValues _ _, fun key r hr hown => ?_,
    fun key r hr hown => ?_, fun d f => occursIn_iff_suffix⟩
  · rw [linkFiles, get_bind, if_pos hjava]
    rfl
  · have hcond : ¬ (r.analysis == ctx.analysis && r.isFile) = true := by
      rwa [Bool.and_eq_true, beq_iff_eq]
    rw [OrderedMap.get?_mapValues, hr, Option.map_some, if_neg hcond]
  · have hcond : (r.analysis == ctx.analysis && r.isFile) = true := by
      rwa [Bool.and_eq_true, beq_iff_eq]
    refine ⟨_, by rw [OrderedMap.get?_mapValues, hr, Option.map_some, if_pos hcond], ?_⟩
    rw [List.forall₂_map_right_iff, List.forall₂_same]
    intro d _
    have hlinked : Linked (ownFiles t.scanner.results ctx.analysis).keys d
        (knownFile (ownFiles t.scanner.results ctx.analysis).keys d) := linked_iff.mpr rfl
    exact ⟨hlinked, fun f => hlinked.ne_of_liesAt⟩

end Scanner

namespace Sample

def packagedFile (name : String) (imports : List String) : ScanResult where
  analysis := 0
  uniqueName := name
  fileName := Path.name name
  absoluteName := "/w/" ++ name
  displayName := Path.name name
  moduleName := "a"
  scannedBy := Language.java.scannerName
  language := some .java
  words := []
  imports := imports
  details := .file default

/-- Two files of the package `a` of a project. One imports the other, by its name in the package and
by a name that has that of the project in it. -/
def packagedScanner : ScanState where
  scanner := { language := .java, results := .ofList [
    ("proj/a/A.java", packagedFile "proj/a/A.java" ["a.B", "org.proj.a.B"]),
    ("proj/a/B.java", packagedFile "proj/a/B.java" [])] }
  statistics := .empty

/-- The path of the second name is longer than the name of the file. -/
theorem linkFiles_linked_sample : packagedScanner.scanner.language = .java ∧
    ∃ t', Scanner.linkFiles default packagedScanner = .ok () t' ∧
      (t'.scanner.results.get? "proj/a/A.java").map ScanResult.imports =
        some ["a.B", "proj/a/B.java"] := by
  obtain ⟨t', hlink, -, -, -, -, hown, -⟩ := Scanner.linkFiles_linked default packagedScanner rfl
  obtain ⟨imports, hget, hlinked⟩ := hown "proj/a/A.java" _ rfl ⟨rfl, rfl⟩
  refine ⟨rfl, t', hlink, ?_⟩
  rw [hget]
  obtain ⟨e, es, ⟨he, -⟩, hes, rfl⟩ := List.forall₂_cons_left_iff.mp hlinked
  obtain ⟨e', es', ⟨he', -⟩, hes', rfl⟩ := List.forall₂_cons_left_iff.mp hes
  obtain rfl := List.forall₂_nil_left_iff.mp hes'
  rw [← Scanner.linked_iff.mp he, ← Scanner.linked_iff.mp he']
  rfl

/-- The import `a.B` stays, although just one file lies at its path. -/
theorem linkFiles_below :
    (∃! f, f ∈ (Scanner.ownFiles packagedScanner.scanner.results 0).keys ∧ Scanner.LiesAt f "a.B") ∧
    ∃ t', Scanner.linkFiles default packagedScanner = .ok () t' ∧
      (t'.scanner.results.get? "proj/a/A.java").map ScanResult.imports =
        some ["a.B", "proj/a/B.java"] := by
  have hkeys : (Scanner.ownFiles packagedScanner.scanner.results 0).keys =
      ["proj/a/A.java", "proj/a/B.java"] := rfl
  have hother : ¬ Scanner.LiesAt "proj/a/A.java" "a.B" := by
    rw [Scanner.LiesAt]
    decide
  refine ⟨⟨"proj/a/B.java", ⟨by rw [hkeys]; simp, by rw [Scanner.LiesAt]; decide⟩, ?_⟩, _, rfl, rfl⟩
  rintro f ⟨hf, hlies⟩
  rw [hkeys] at hf
  simp only [List.mem_cons, List.not_mem_nil, or_false] at hf
  rcases hf with rfl | rfl
  · exact absurd hlies hother
  · rfl

end Sample

end CodeAtlas
