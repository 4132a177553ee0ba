import CodeAtlas.Proofs.Entities
import CodeAtlas.Proofs.Lines

/-!
# Source lines of a class and of its file

From the words of a file to the words of a class in it there are several steps: comments are
removed, then empty pairs of braces, what is left is cut into words once more, and the words from
the keyword to the closing brace are taken. No step adds a line, and the first one keeps no line
that the file does not count. So a class has at most as many source lines as its file
(`Scanner.scanEntities_sourceLines_le`), however its comments and braces are mixed up.
-/

namespace CodeAtlas

open Chars Effect

theorem CommentMarks.codeLinesFrom_sublist (m : CommentMarks) (inBlock : Bool)
    (ls : List (List Char)) : (m.codeLinesFrom inBlock ls).Sublist ls := by
  induction ls generalizing inBlock with
  | nil => exact List.Sublist.refl _
  | cons line rest ih =>
    rw [codeLinesFrom]
    split
    · exact (ih true).cons line
    · exact (ih false).cons line
    · exact (ih inBlock).cons line
    · split
      · exact (ih inBlock).cons line
      · exact (ih inBlock).cons_cons line

theorem CommentMarks.filled_strip (m : CommentMarks) (words : List String) :
    filled (m.strip words).toList = (m.codeLines words).countP isFilled := by
  rw [strip, String.toList_ofList]
  refine filled_join_newline fun line hline c hc => ?_
  exact not_isLineBreak_of_mem_lines ((m.codeLinesFrom_sublist false _).subset hline) hc

theorem Text.filled_replace_le (text part : String) (hne : part ≠ "") :
    filled (replace text part "").toList ≤ filled text.toList := by
  rw [replace, String.toList_ofList, String.toList_empty]
  exact filled_sublist (replace_nil_sublist (fun hnil => hne (String.toList_eq_nil_iff.mp hnil)) _)

/-- Whatever is taken of the words in which classes are looked for, it has at most as many source
lines as the file. -/
theorem SourceLines.count_le_of_sublist {words part : List String} (m : CommentMarks)
    (h : part.Sublist (Entities.scopeWords words)) : count m part ≤ count .cStyle words := by
  let text := CommentMarks.cStyle.strip words
  calc count m part
      ≤ (lines (joinWords part).toList).countP isFilled := countFrom_le_countP m false _
    _ = filled (joinWords part).toList := (filled_eq_countP_lines _).symm
    _ ≤ filled (joinWords (Entities.scopeWords words)).toList := filled_joinWords_sublist h
    _ ≤ filled (Text.replace (Text.replace text "\x7b\x7d" "") "\x7b \x7d" "").toList :=
        filled_joinWords_words Spacing.plainMarks _
    _ ≤ filled (Text.replace text "\x7b\x7d" "").toList := Text.filled_replace_le _ _ (by decide)
    _ ≤ filled text.toList := Text.filled_replace_le _ _ (by decide)
    _ = (CommentMarks.cStyle.codeLines words).countP isFilled :=
  CommentMarks.cStyle.filled_strip words
    _ ≤ count .cStyle words := countP_codeLinesFrom_le .cStyle id _

namespace Scanner

variable {ctx : ScanContext} {files : List SourceFile} {t t' : ScanState} {file e : ScanResult}

theorem EntityIn.sourceLinesOf_le (h : EntityIn file e) (hlanguage : file.language = some .java) :
    ∃ m n, Work.sourceLinesOf e = .ok m ∧ Work.sourceLinesOf file = .ok n ∧ m ≤ n := by
  obtain ⟨name, part, inherits, hpart, rfl⟩ := h
  have hentity : (Entities.entityOf file name part inherits).language = some .java := hlanguage
  refine ⟨SourceLines.count .cStyle part, SourceLines.count .cStyle file.words, ?_, ?_,
    SourceLines.count_le_of_sublist .cStyle hpart⟩
  · rw [Work.sourceLinesOf, hentity]
    rfl
  · rw [Work.sourceLinesOf, hlanguage]
    rfl

theorem of_forM_scanFile (hempty : t.scanner.results = ∅)
    (h : files.forM (fun file => discard (scanFile ctx file)) t = .ok () t') :
    ∀ key r, t'.scanner.results.get? key = some r →
      r.uniqueName = key ∧ r.isFile = true ∧ r.language = some t.scanner.language := by
  have hrun := forM_induction (I := fun _ u => u.scanner.language = t.scanner.language ∧
    ∀ key r, u.scanner.results.get? key = some r →
      r.uniqueName = key ∧ r.isFile = true ∧ r.language = some t.scanner.language) [] ?_
    ⟨rfl, fun key r hget => by simp [hempty] at hget⟩ h
  · exact hrun.2
  rintro - file - u u' ⟨hlanguage, hu⟩ hstep
  obtain ⟨r, u₁, hscan, hdiscard⟩ :=
    bind_eq_ok.mp (show (scanFile ctx file >>= fun _ => pure ()) u = .ok () u' from hstep)
  obtain ⟨-, rfl⟩ := EStateM.Result.ok.inj hdiscard
  obtain ⟨⟨source, package, imports, hr⟩, hscanner⟩ := exists_of_scanFile hscan
  rw [hscanner]
  refine ⟨hlanguage, fun key r' hget => ?_⟩
  dsimp only at hget
  rw [OrderedMap.get?_insert] at hget
  split_ifs at hget with hkey
  · obtain rfl := Option.some.inj hget
    exact ⟨hkey, by rw [hr]; rfl, by rw [hr, ← hlanguage]; rfl⟩
  · exact hu key r' hget

/-- When the files of a project have been scanned and the classes in them found, no class has more
source lines than the file that it comes from. -/
theorem scanEntities_sourceLines_le (ctx : ScanContext) (files : List SourceFile)
    (t t₁ t₂ : ScanState) (hlanguage : t.scanner.language = .java) (hempty : t.scanner.results = ∅)
    (hfiles : files.forM (fun file => discard (scanFile ctx file)) t = .ok () t₁)
    (hentities : scanEntities ctx t₁ = .ok () t₂) (key : String) (e : ScanResult)
    (hget : t₂.scanner.results.get? key = some e) (hentity : e.isEntity = true) :
    ∃ file m n, t₁.scanner.results.get? file.uniqueName = some file ∧ file.isFile = true ∧
      e.entity?.bind EntityDetails.parent = some file.uniqueName ∧
      Work.sourceLinesOf e = .ok m ∧ Work.sourceLinesOf file = .ok n ∧ m ≤ n := by
  have hscanned := of_forM_scanFile hempty hfiles
  rcases (of_scanEntities hentities).2 key e hget with hold | ⟨file, hown, hin⟩
  · have hfile := (hscanned key e hold).2.1
    simp [ScanResult.isEntity, hfile] at hentity
  · obtain ⟨name, hname⟩ := OrderedMap.mem_values_iff.mp hown
    obtain ⟨hfile, -⟩ := OrderedMap.get?_filter_eq_some_iff.mp hname
    obtain ⟨rfl, hisFile, hjava⟩ := hscanned name file hfile
    obtain ⟨m, n, hm, hn, hle⟩ := hin.sourceLinesOf_le (hlanguage ▸ hjava)
    refine ⟨file, m, n, hfile, hisFile, ?_, hm, hn, hle⟩
    obtain ⟨name, part, inherits, -, rfl⟩ := hin
    rfl

end Scanner

namespace Sample

/-- A class with an empty pair of braces in it, after a line that is a comment in part. -/
def classFile : Scanner.SourceFile where
  name := "A.java"
  path := "/w/proj/A.java"
  content := "/**/\n*/\nclass A\x7b\nx\x7b\x7d\n\x7d"

def classContext : ScanContext :=
  ⟨0, { source := .text "/w/proj" }, { tree := .dir [], cwd := [] }, []⟩

def javaScanner : ScanState := ⟨{ language := .java }, .empty⟩

def classScan? (ctx : ScanContext) (files : List Scanner.SourceFile) (t : ScanState) :
    Option (ScanState × ScanState) :=
  match files.forM (fun file => discard (Scanner.scanFile ctx file)) t with
  | .ok _ t₁ =>
    match Scanner.scanEntities ctx t₁ with
    | .ok _ t₂ => some (t₁, t₂)
    | .error _ _ => none
  | .error _ _ => none

theorem of_classScan? {ctx : ScanContext} {files : List Scanner.SourceFile} {t t₁ t₂ : ScanState}
    (h : classScan? ctx files t = some (t₁, t₂)) :
    files.forM (fun file => discard (Scanner.scanFile ctx file)) t = .ok () t₁ ∧
      Scanner.scanEntities ctx t₁ = .ok () t₂ := by
  rw [classScan?] at h
  split at h
  · next hfiles =>
    split at h
    · next hentities =>
      obtain ⟨rfl, rfl⟩ := Prod.mk.inj (Option.some.inj h)
      exact ⟨hfiles, hentities⟩
    · cases h
  · cases h

theorem scanEntities_sourceLines_le_sample :
    ∃ t₁ t₂ e file m n,
      [classFile].forM (fun file => discard (Scanner.scanFile classContext file)) javaScanner =
        .ok () t₁ ∧
      Scanner.scanEntities classContext t₁ = .ok () t₂ ∧ t₂.scanner.results.get? "A" = some e ∧
      e.isEntity = true ∧ t₁.scanner.results.get? file.uniqueName = some file ∧
      Work.sourceLinesOf e = .ok m ∧ Work.sourceLinesOf file = .ok n ∧ m ≤ n := by
  have hfound : ((classScan? classContext [classFile] javaScanner).bind
      fun t => t.2.scanner.results.get? "A").map ScanResult.isEntity = some true := by
    decide +kernel
  obtain ⟨e, hget, hentity⟩ := Option.map_eq_some_iff.mp hfound
  obtain ⟨⟨t₁, t₂⟩, hscan, hget⟩ := Option.bind_eq_some_iff.mp hget
  obtain ⟨hfiles, hentities⟩ := of_classScan? hscan
  obtain ⟨file, m, n, hfile, -, -, hm, hn, hle⟩ :=
    Scanner.scanEntities_sourceLines_le classContext [classFile]
    javaScanner t₁ t₂ rfl rfl hfiles hentities "A" e hget hentity
  exact ⟨t₁, t₂, e, file, m, n, hfiles, hentities, hget, hentity, hfile, hm, hn, hle⟩

end Sample

end CodeAtlas
