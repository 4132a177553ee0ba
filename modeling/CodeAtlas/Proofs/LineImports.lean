import CodeAtlas.Proofs.CodeLines
import CodeAtlas.Proofs.ScanFaults

/-!
# Imports that are written one to a line

The imports of a file are what its different lines of code yield, in their order, the last line left
out (`Scanner.exists_scanFile_lines`). So an import in the last line is lost, and code after it
brings it back (`Scanner.scanFile_lastLine`). A line `import a, b` yields the first of its names
only (`Scanner.scanFile_importList`).
-/

namespace CodeAtlas

open Chars Effect Spacing
open Text (isBlank)

variable {marks part : List Char} {ws : List String}

/-! ### Parts of a line -/

theorem infix_joinWords_iff (hne : part ≠ []) (hspace : ' ' ∉ part) :
    part <:+: (joinWords ws).toList ↔ ∃ w ∈ ws, part <:+: w.toList := by
  constructor
  · intro h
    cases ws with
    | nil => exact absurd (List.eq_nil_of_infix_nil h) hne
    | cons w ws =>
      rw [toList_joinWords_cons] at h
      rcases CommentMarks.exists_of_infix_spreadWords hne hspace h with h | ⟨v, hv, h⟩
      · exact ⟨w, List.mem_cons_self, h⟩
      · exact ⟨v, List.mem_cons_of_mem w hv, h⟩
  · rintro ⟨w, hw, h⟩
    obtain ⟨us, vs, rfl⟩ := List.append_of_mem hw
    refine h.trans ?_
    cases us with
    | nil =>
      rw [List.nil_append, toList_joinWords_cons]
      exact (List.prefix_append _ _).isInfix
    | cons u us =>
      rw [toList_joinWords_append (by simp), spreadWords_cons]
      exact ⟨(joinWords (u :: us)).toList ++ [' '], spreadWords vs, by simp⟩

theorem contains_joinWords {part : String} (hne : part ≠ "") (hspace : ' ' ∉ part.toList)
    (ws : List String) :
    Text.contains (joinWords ws) part = ws.any fun w => Text.contains w part := by
  rw [Bool.eq_iff_iff, Text.contains, contains_iff_infix,
    infix_joinWords_iff (mt String.toList_eq_nil_iff.mp hne) hspace, List.any_eq_true]
  simp only [Text.contains, contains_iff_infix]

theorem mem_of_infix_joinWords {v : String} (hws : Pieces marks ws) (hv : ' ' ∉ v.toList)
    (h : ' ' :: (v.toList ++ [' ']) <:+: (joinWords ws).toList) : v ∈ ws := by
  obtain ⟨before, after, heq⟩ := h
  have hne : ws.map String.toList ≠ [] := by
    intro hnil
    rw [toList_joinWords, hnil] at heq
    simp [join] at heq
  have hspace : ∀ cs ∈ ws.map String.toList, ' ' ∉ cs := by
    refine List.forall_mem_map.mpr fun w hw hmem => ?_
    rcases (hws w hw).ink with hnewline | hink
    · rw [hnewline] at hmem
      exact absurd hmem (by decide)
    · exact absurd (hink ' ' hmem) (by decide)
  have hsplit := splitOn_join hne hspace
  rw [← toList_joinWords, ← heq, List.append_assoc, List.cons_append, List.append_assoc,
    splitOn_append, List.singleton_append, splitOn_append_sep hv] at hsplit
  have hmem : v.toList ∈ ws.map String.toList := by
    rw [← hsplit]
    simp
  obtain ⟨w, hw, hwv⟩ := List.mem_map.mp hmem
  rwa [← String.toList_inj.mp hwv]

namespace Imports

open Tallied

variable {ctx : ScanContext} {here : Place} {line d : String} {ls : List String}

/-! ### Different lines -/

def mayImport (line : String) : Bool := Text.contains line "import" && !Text.contains line ">"

theorem mayImport_joinWords (himport : "import" ∈ ws) (hangle : ∀ w ∈ ws, '>' ∉ w.toList) :
    mayImport (joinWords ws) = true := by
  rw [mayImport, contains_joinWords (by decide) (by decide),
    contains_joinWords (by decide) (by decide), Bool.and_eq_true, List.any_eq_true,
    Bool.not_eq_true', List.any_eq_false]
  refine ⟨⟨"import", himport, by decide⟩, fun w hw hmem => hangle w hw ?_⟩
  have hi : ">".toList <:+: w.toList := contains_iff_infix.mp hmem
  exact hi.subset (by decide)

def importingLines (ls : List String) : List String :=
  ls.foldl (fun acc line => if mayImport line then addLine acc line else acc) []

theorem importLines_eq (words : List String) :
    importLines words = importingLines ((endedLines words).map joinWords) := rfl

theorem importingLines_concat (ls : List String) (line : String) : importingLines (ls ++ [line]) =
    if mayImport line then addLine (importingLines ls) line else importingLines ls := by
  simp [importingLines]

theorem mem_addLine {x : String} : x ∈ addLine ls line ↔ x ∈ ls ∨ x = line := by
  unfold addLine
  split
  · next hmem =>
    have hline : line ∈ ls := by simpa using hmem
    constructor
    · exact Or.inl
    · rintro (hx | rfl)
      · exact hx
      · exact hline
  · simp

theorem mem_importingLines : line ∈ importingLines ls ↔ line ∈ ls ∧ mayImport line = true := by
  -- a line is compared with the ones before it, so the induction takes lines off at the end
  induction ls using List.reverseRecOn with
  | nil => simp [importingLines]
  | append_singleton ls last ih =>
    rw [importingLines_concat]
    split
    · next hlast =>
      rw [mem_addLine, ih]
      constructor
      · rintro (⟨hmem, hline⟩ | rfl)
        · exact ⟨List.mem_append_left _ hmem, hline⟩
        · exact ⟨by simp, hlast⟩
      · rintro ⟨hmem, hline⟩
        rcases List.mem_append.mp hmem with hmem | hmem
        · exact .inl ⟨hmem, hline⟩
        · exact .inr (List.mem_singleton.mp hmem)
    · next hlast =>
      rw [ih, List.mem_append, List.mem_singleton]
      constructor
      · exact fun ⟨hmem, hline⟩ => ⟨.inl hmem, hline⟩
      · rintro ⟨hmem | rfl, hline⟩
        · exact ⟨hmem, hline⟩
        · exact absurd hline hlast

/-! ### What a line yields -/

def meantNames (ctx : ScanContext) (here : Place) (i : LineImport) : List String :=
  match resolveLine ctx here i with
  | .ok ds => ds.filter fun d => !isIgnored ctx d
  | .error _ => []

def lineNames (ctx : ScanContext) (here : Place) (line : String) : List String :=
  if mayImport line then (lineImport? line).elim [] (meantNames ctx here) else []

/-- What some lines yield, each as often as it is there first. -/
def linesNames (ctx : ScanContext) (here : Place) (ls : List String) : List String :=
  (importingLines ls).flatMap (lineNames ctx here)

theorem mem_linesNames : d ∈ linesNames ctx here ls ↔ ∃ line ∈ ls, d ∈ lineNames ctx here line := by
  rw [linesNames, List.mem_flatMap]
  constructor
  · rintro ⟨line, hline, hd⟩
    exact ⟨line, (mem_importingLines.mp hline).1, hd⟩
  · rintro ⟨line, hline, hd⟩
    refine ⟨line, mem_importingLines.mpr ⟨hline, ?_⟩, hd⟩
    by_contra hnot
    simp [lineNames, hnot] at hd

theorem linesNames_concat (ls : List String) (line : String) : linesNames ctx here (ls ++ [line]) =
    linesNames ctx here ls ++ if line ∈ ls then [] else lineNames ctx here line := by
  rw [linesNames, importingLines_concat]
  by_cases hline : mayImport line = true
  · have hmem : (importingLines ls).contains line = true ↔ line ∈ ls := by
      rw [List.contains_iff_mem, mem_importingLines]
      simp [hline]
    rw [if_pos hline, addLine]
    by_cases hold : line ∈ ls
    · rw [if_pos (hmem.mpr hold), if_pos hold, List.append_nil, linesNames]
    · rw [if_neg (mt hmem.mp hold), if_neg hold, List.flatMap_append]
      simp [linesNames]
  · rw [if_neg hline]
    simp [lineNames, hline, linesNames]

theorem keepUnignored_eq (h : ctx.settings.Textual) (ds : List String) :
    keepUnignored ctx ds = pure (ds.filter fun d => !isIgnored ctx d) := by
  induction ds with
  | nil => rfl
  | cons d ds ih =>
    rw [keepUnignored, unlessIgnored_eq (h.exists_ignoresDependency d), ih]
    cases hd : isIgnored ctx d <;> simp [hd]

theorem byLine_eq (h : ctx.settings.Textual) (here : Place) (words : List String) : ∃ ms,
    byLine ctx here words = Tallied.script ms
      (.ok (linesNames ctx here ((endedLines words).map joinWords))) := by
  have hstep : (fun i => do keepUnignored ctx (← lift (resolveLine ctx here i))) =
      fun i => (pure (meantNames ctx here i) : Tallied (List String)) := by
    funext i
    obtain ⟨ds, hds⟩ : ∃ ds, resolveLine ctx here i = .ok ds := h.exists_resolveLine i
    rw [meantNames, hds]
    exact keepUnignored_eq h ds
  have hfound : ∀ ls : List String, (∀ line ∈ ls, mayImport line = true) →
      ((ls.map fun line => Mention.ofOption (lineImport? line)).filterMap Mention.found?).flatMap
        (meantNames ctx here) = ls.flatMap (lineNames ctx here) := by
    intro ls hls
    induction ls with
    | nil => rfl
    | cons line ls ih =>
      obtain ⟨hline, hls⟩ := List.forall_mem_cons.mp hls
      rw [List.flatMap_cons, ← ih hls, lineNames, if_pos hline, List.map_cons]
      cases lineImport? line <;> rfl
  rw [byLine, hstep, collect_pure, importLines_eq,
    hfound _ fun line hline => (mem_importingLines.mp hline).2]
  exact ⟨_, rfl⟩

end Imports

/-! ### Files -/

namespace Imports

def fileLines (content : String) : List String :=
  codeTexts (Language.python.fileSpacing.words content)

theorem fileWords_eq (content : String) :
    Language.python.fileSpacing.words content = (cut quoteMarks content.toList).map String.ofList :=
  words_withQuotes content

theorem pieces_fileWords_python (content : String) :
    Pieces quoteMarks (Language.python.fileSpacing.words content) := by
  rw [fileWords_eq]
  exact pieces_cut _ _

theorem fileWords_append_newline (text rest : String) :
    Language.python.fileSpacing.words (text ++ "\n" ++ rest) =
    Language.python.fileSpacing.words text ++ "\n" :: Language.python.fileSpacing.words rest := by
  have htext : (text ++ "\n" ++ rest).toList = text.toList ++ '\n' :: rest.toList := by simp
  rw [fileWords_eq, fileWords_eq, fileWords_eq, htext, cut_append _ (isBreak_newline _),
    cut_newline, List.map_append, List.map_cons]

theorem fileLines_append {pre : String} (hpre : EndsLine pre.toList) (rest : String) :
    fileLines (pre ++ rest) = fileLines pre ++ fileLines rest := by
  have hends : Language.python.fileSpacing.words pre = [] ∨
      (Language.python.fileSpacing.words pre).getLast? = some "\n" := by
    rw [fileWords_eq, List.map_eq_nil_iff, List.getLast?_map]
    exact hpre.getLast?_cut.imp_right fun hlast => by rw [hlast]; rfl
  have hwords : Language.python.fileSpacing.words (pre ++ rest) =
      Language.python.fileSpacing.words pre ++ Language.python.fileSpacing.words rest := by
    rw [fileWords_eq, fileWords_eq, fileWords_eq, String.toList_append, hpre.cut_append,
      List.map_append]
  rw [fileLines, hwords, codeTexts_append hends]
  rfl

theorem fileLines_line {line : String} (hnewline : "\n" ∉ Language.python.fileSpacing.words line)
    (hcode : isRemark (Language.python.fileSpacing.words line) = false) (post : String) :
    fileLines (line ++ "\n" ++ post) =
      joinWords (Language.python.fileSpacing.words line) :: fileLines post := by
  rw [fileLines, fileWords_append_newline, codeTexts_line hnewline hcode]
  rfl

end Imports

namespace Scanner

open Imports

variable {ctx : ScanContext} {t : ScanState} {source : String}

theorem filePlace_eq (language : Language) (ctx : ScanContext) (source : String)
    (file : SourceFile) :
    filePlace language ctx source file =
      ⟨source, Path.normalize (Path.parent source ++ "/" ++ Path.parent file.path),
      Path.parent (Resolve.relativeName source file.path)⟩ := rfl

/-- A file is always scanned, and its imports are what its lines of code yield without the last
one. -/
theorem exists_scanFile_lines (file : SourceFile) (hsource : ctx.settings.source = .text source)
    (hsettings : ctx.settings.Textual) (hlanguage : t.scanner.language = .python)
    (hcount : t.statistics.Countable) : ∃ r t', scanFile ctx file t = .ok r t' ∧
      r.imports = linesNames ctx (filePlace .python ctx source file)
        (fileLines file.content).dropLast := by
  obtain ⟨ms, hlines⟩ := byLine_eq hsettings (filePlace .python ctx source file)
    (codeWords .python (Language.python.fileSpacing.words file.content))
  rw [endedLines_codeWords (pieces_fileWords_python file.content)] at hlines
  obtain ⟨st, hst, -⟩ := hcount.script ms
    (linesNames ctx (filePlace .python ctx source file) (fileLines file.content).dropLast)
  have himports : ofFile t.scanner.language ctx (filePlace t.scanner.language ctx source file)
      (t.scanner.language.fileSpacing.words file.content) t.statistics =
        .ok (linesNames ctx (filePlace .python ctx source file) (fileLines file.content).dropLast)
          st := by
    rw [hlanguage]
    exact (congrFun hlines t.statistics).trans hst
  obtain ⟨r, hscan, hr, -⟩ :=
    exists_scanFile_of_imports hsource (by rw [hlanguage]; decide) himports
  exact ⟨r, _, hscan, hr⟩

/-- A line adds what it yields to the imports of a file, wherever it stands, if a line of code
follows it. -/
theorem exists_scanFile_line {file : SourceFile} {pre line post : String}
    (hsource : ctx.settings.source = .text source) (hsettings : ctx.settings.Textual)
    (hlanguage : t.scanner.language = .python) (hcount : t.statistics.Countable)
    (hcontent : file.content = pre ++ line ++ "\n" ++ post) (hpre : EndsLine pre.toList)
    (hnewline : "\n" ∉ Language.python.fileSpacing.words line)
    (hcode : isRemark (Language.python.fileSpacing.words line) = false) :
    ∃ r t', scanFile ctx file t = .ok r t' ∧ ∀ d, d ∈ r.imports ↔
      (fileLines post ≠ [] ∧
        d ∈ lineNames ctx (filePlace .python ctx source file)
          (joinWords (Language.python.fileSpacing.words line))) ∨
      ∃ other ∈ fileLines pre ++ (fileLines post).dropLast,
        d ∈ lineNames ctx (filePlace .python ctx source file) other := by
  obtain ⟨r, t', hscan, hr⟩ := exists_scanFile_lines file hsource hsettings hlanguage hcount
  refine ⟨r, t', hscan, fun d => ?_⟩
  have hlines : fileLines file.content =
      fileLines pre ++ joinWords (Language.python.fileSpacing.words line) :: fileLines post := by
    have htext : file.content = pre ++ (line ++ "\n" ++ post) := by
      rw [hcontent]
      simp only [String.append_assoc]
    rw [htext, fileLines_append hpre, fileLines_line hnewline hcode]
  rw [hr, hlines, mem_linesNames]
  cases hpost : fileLines post with
  | nil => simp
  | cons next rest =>
    rw [List.dropLast_append_of_ne_nil (by simp), List.dropLast_cons_of_ne_nil (by simp)]
    simp only [List.mem_append, List.mem_cons, ne_eq, reduceCtorEq, not_false_eq_true, true_and]
    constructor
    · rintro ⟨other, hother | rfl | hother, hd⟩
      · exact .inr ⟨other, .inl hother, hd⟩
      · exact .inl hd
      · exact .inr ⟨other, .inr hother, hd⟩
    · rintro (hd | ⟨other, hother | hother, hd⟩)
      · exact ⟨_, .inr (.inl rfl), hd⟩
      · exact ⟨other, .inl hother, hd⟩
      · exact ⟨other, .inr (.inr hother), hd⟩

end Scanner

/-! ### The last line -/

namespace Imports

variable {ctx : ScanContext} {here : Place}

/-- What the last of some lines adds to what those before it yield. -/
def closingNames (ctx : ScanContext) (here : Place) (ls : List String) : List String :=
  match ls.getLast? with
  | none => []
  | some line => if line ∈ ls.dropLast then [] else lineNames ctx here line

theorem linesNames_eq_append_closingNames (ls : List String) :
    linesNames ctx here ls = linesNames ctx here ls.dropLast ++ closingNames ctx here ls := by
  rcases List.eq_nil_or_concat ls with rfl | ⟨init, line, rfl⟩
  · rfl
  · rw [List.concat_eq_append, linesNames_concat, closingNames]
    simp

theorem linesNames_followed (content : String) :
    linesNames ctx here (fileLines (content ++ "\nx = 1\n")).dropLast =
      linesNames ctx here (fileLines content) := by
  obtain ⟨gap, hgap, hlines⟩ :=
    exists_codeTexts_append_newline (Language.python.fileSpacing.words content)
  have hcode : codeTexts (Language.python.fileSpacing.words "x = 1\n") = ["x = 1"] := by
    decide +kernel
  have htext : content ++ "\nx = 1\n" = content ++ "\n" ++ "x = 1\n" := by
    rw [String.append_assoc]; rfl
  rw [fileLines, htext, fileWords_append_newline, hlines, hcode, ← List.append_assoc,
    List.dropLast_concat]
  rcases hgap with rfl | rfl
  · rw [List.append_nil]
    rfl
  · have hempty : lineNames ctx here "" = [] := rfl
    rw [linesNames_concat, hempty, ite_self, List.append_nil]
    rfl

end Imports

namespace Scanner

open Imports

/-- Code after the end of a file adds to its imports what its last line of code yields, unless it is
there before. So the imports stay the same exactly if that is nothing. -/
theorem scanFile_lastLine (ctx : ScanContext) (file : SourceFile) (t t' : ScanState)
    (source : String) (hsource : ctx.settings.source = .text source)
    (hsettings : ctx.settings.Textual) (hlanguage : t.scanner.language = .python)
    (hlanguage' : t'.scanner.language = .python) (hcount : t.statistics.Countable)
    (hcount' : t'.statistics.Countable) : ∃ r r' s s', scanFile ctx file t = .ok r s ∧
      scanFile ctx { file with content := file.content ++ "\nx = 1\n" } t' = .ok r' s' ∧
      r'.imports = r.imports ++ closingNames ctx (filePlace .python ctx source file)
        (fileLines file.content) ∧
      (r'.imports = r.imports ↔ closingNames ctx (filePlace .python ctx source file)
        (fileLines file.content) = []) := by
  obtain ⟨r, s, hscan, hr⟩ := exists_scanFile_lines file hsource hsettings hlanguage hcount
  obtain ⟨r', s', hscan', hr'⟩ :=
    exists_scanFile_lines { file with content := file.content ++ "\nx = 1\n" } hsource hsettings
      hlanguage' hcount'
  have hplace : filePlace .python ctx source { file with content := file.content ++ "\nx = 1\n" } =
      filePlace .python ctx source file := by
    rw [filePlace_eq, filePlace_eq]
  have himports : r'.imports = r.imports ++ closingNames ctx (filePlace .python ctx source file)
      (fileLines file.content) := by
    rw [hr', hr, hplace, linesNames_followed, ← linesNames_eq_append_closingNames]
  refine ⟨r, r', s, s', hscan, hscan', himports, ?_⟩
  rw [himports, List.append_right_eq_self]

end Scanner

namespace Sample

def pythonScanner : ScanState := ⟨{ language := .python }, .empty⟩

theorem countable_pythonScanner : pythonScanner.statistics.Countable :=
  Statistics.countable_of_count? (h := 0) (m := 0) rfl rfl

theorem textual_plain : ({ source := .text "/w/proj" } : Settings).Textual where
  ignored := ⟨[], rfl⟩
  patterns := by simp
  aliases := fun h => by cases h
  resolve := fun _ => ⟨false, rfl⟩
  keep := fun _ => ⟨false, rfl⟩

def pythonFile (content : String) : Scanner.SourceFile := ⟨"a.py", "/w/proj/a.py", content⟩

/-- The comment at the end does not count as code. -/
theorem scanFile_lastLine_sample : ∃ r r' s s',
    Scanner.scanFile classContext (pythonFile "import os\nimport re\n# end") pythonScanner =
      .ok r s ∧
    Scanner.scanFile classContext (pythonFile "import os\nimport re\n# end\nx = 1\n")
      pythonScanner = .ok r' s' ∧
    r'.imports = r.imports ++ ["re"] ∧ r'.imports ≠ r.imports := by
  obtain ⟨r, r', s, s', hscan, hscan', himports, hsame⟩ := Scanner.scanFile_lastLine classContext
    (pythonFile "import os\nimport re\n# end") pythonScanner pythonScanner "/w/proj" rfl
      textual_plain rfl rfl
    countable_pythonScanner countable_pythonScanner
  have hclosing : Imports.closingNames classContext
      (Scanner.filePlace .python classContext "/w/proj" (pythonFile "import os\nimport re\n# end"))
      (Imports.fileLines "import os\nimport re\n# end") = ["re"] := by decide +kernel
  refine ⟨r, r', s, s', hscan, hscan', himports.trans (congrArg (r.imports ++ ·) hclosing),
    fun heq => ?_⟩
  cases hclosing.symm.trans (hsame.mp heq)

theorem exists_scanFile_pythonFile (content : String) : ∃ r s,
    Scanner.scanFile classContext (pythonFile content) pythonScanner = .ok r s ∧
    r.imports = Imports.linesNames classContext
      (Scanner.filePlace .python classContext "/w/proj" (pythonFile content))
      (Imports.fileLines content).dropLast :=
  Scanner.exists_scanFile_lines _ rfl textual_plain rfl countable_pythonScanner

/-- An import in the only line of a file is not found, but it is found if code follows. -/
theorem scanFile_onlyImport : ∃ r r' s s',
    Scanner.scanFile classContext (pythonFile "import os") pythonScanner = .ok r s ∧
    Scanner.scanFile classContext (pythonFile "import os\nx = 1\n") pythonScanner = .ok r' s' ∧
    r.imports = [] ∧ r'.imports = ["os"] := by
  obtain ⟨r, s, hscan, hr⟩ := exists_scanFile_pythonFile "import os"
  obtain ⟨r', s', hscan', hr'⟩ := exists_scanFile_pythonFile "import os\nx = 1\n"
  refine ⟨r, r', s, s', hscan, hscan', hr.trans ?_, hr'.trans ?_⟩ <;> decide +kernel

end Sample

/-! ### Lists of modules -/

namespace Imports

variable {ctx : ScanContext} {here : Place} {name n : String} {names : List String}

structure Identifier (s : String) : Prop where
  ne_empty : s ≠ ""
  chars : ∀ c ∈ s.toList, Text.asciiAlnum c = true ∨ c = '_'

namespace Identifier

theorem isBreak_eq_false (h : Identifier n) : ∀ c ∈ n.toList, isBreak quoteMarks c = false := by
  intro c hc
  rcases h.chars c hc with hc | rfl
  · exact isBreak_of_asciiAlnum hc
  · decide

theorem piece (h : Identifier n) : Piece quoteMarks n.toList :=
  .of_run (mt String.toList_eq_nil_iff.mp h.ne_empty) h.isBreak_eq_false

theorem nameChar (h : Identifier n) :
    ∀ c ∈ n.toList, Phrase.nameChar Phrase.moduleChars c = true := by
  intro c hc
  rcases h.chars c hc with hc | rfl
  · simp [Phrase.nameChar, hc]
  · decide

theorem not_mem (h : Identifier n) {c : Char} (hc : Text.asciiAlnum c = false) (hc' : c ≠ '_') :
    c ∉ n.toList := by
  intro hmem
  rcases h.chars c hmem with hmem | hmem
  · rw [hmem] at hc
    cases hc
  · exact hc' hmem

end Identifier

def importList (names : List String) : String := "import " ++ Text.join ", " names

def listWords (names : List String) : List String := "import" :: names.intersperse ","

theorem cut_join_names (h : ∀ n ∈ names, Identifier n) :
    cut quoteMarks (join [',', ' '] (names.map String.toList)) =
      (names.intersperse ",").map String.toList := by
  induction names with
  | nil => rfl
  | cons n names ih =>
    obtain ⟨hn, hnames⟩ := List.forall_mem_cons.mp h
    cases names with
    | nil => exact hn.piece.cut_eq
    | cons n' names =>
      rw [List.map_cons, join_cons _ _ (by simp), List.append_assoc,
        hn.piece.cut_append (by simp [isBreak, quoteMarks, plainMarks]), List.cons_append,
        cut_mark (by decide) (by decide), List.singleton_append,
        cut_blank _ (by decide) (by decide), ih hnames]
      rfl

theorem fileWords_importList (h : ∀ n ∈ names, Identifier n) :
    Language.python.fileSpacing.words (importList names) = listWords names := by
  have hkey : Piece quoteMarks "import".toList := .of_run (by decide) (by decide)
  have htext : (importList names).toList =
      "import".toList ++ ' ' :: join [',', ' '] (names.map String.toList) := by
    simp [importList, Text.join]
  rw [fileWords_eq, htext, hkey.cut_append (by simp [isBreak, show isBlank ' ' = true by decide]),
    cut_blank _ (by decide) (by decide), cut_join_names h, listWords]
  simp

theorem mem_intersperse_comma {w : String} (hw : w ≠ ",") :
    w ∈ names.intersperse "," ↔ w ∈ names := by
  induction names with
  | nil => rfl
  | cons n names ih =>
    cases names with
    | nil => rfl
    | cons n' names =>
      rw [List.intersperse_cons_cons, List.mem_cons, List.mem_cons, ih, List.mem_cons]
      simp [hw]

theorem of_mem_listWords {w : String} (h : w ∈ listWords names) :
    w = "import" ∨ w = "," ∨ w ∈ names := by
  by_cases hw : w = ","
  · exact .inr (.inl hw)
  · exact (List.mem_cons.mp h).imp_right fun h => .inr ((mem_intersperse_comma hw).mp h)

theorem pieces_listWords (h : ∀ n ∈ names, Identifier n) : Pieces quoteMarks (listWords names) := by
  intro w hw
  rcases of_mem_listWords hw with rfl | rfl | hw
  · exact .of_run (by decide) (by decide)
  · exact piece_of_mem_cut (show [','] ∈ cut quoteMarks [','] by decide)
  · exact (h w hw).piece

theorem contains_listWords (part : String) (hne : part ≠ "") (hspace : ' ' ∉ part.toList)
    (himport : Text.contains "import" part = false) (hcomma : Text.contains "," part = false)
    (names : List String) :
    Text.contains (joinWords (listWords names)) part = names.any fun n => Text.contains n part := by
  rw [contains_joinWords hne hspace, Bool.eq_iff_iff, List.any_eq_true, List.any_eq_true]
  constructor
  · rintro ⟨w, hw, hpart⟩
    rcases of_mem_listWords hw with rfl | rfl | hw
    · rw [himport] at hpart
      cases hpart
    · rw [hcomma] at hpart
      cases hpart
    · exact ⟨w, hw, hpart⟩
  · rintro ⟨n, hn, hpart⟩
    refine ⟨n, List.mem_cons_of_mem _ ((mem_intersperse_comma ?_).mpr hn), hpart⟩
    rintro rfl
    rw [hcomma] at hpart
    cases hpart

theorem contains_from_dots (dots : String) (hws : Pieces marks ws) (hdots : ' ' ∉ dots.toList)
    (hnot : dots ∉ ws) : Text.contains (joinWords ws) ("from " ++ dots ++ " ") = false := by
  rw [Text.contains, contains_eq_false_iff]
  intro hi
  refine hnot (mem_of_infix_joinWords hws hdots (List.IsInfix.trans ?_ hi))
  exact ⟨['f', 'r', 'o', 'm'], [], by simp⟩

theorem lineImport?_joinWords (hws : Pieces marks ws) (hone : "." ∉ ws) (htwo : ".." ∉ ws) :
    lineImport? (joinWords ws) =
    (Phrase.importedModule? (joinWords ws)).map
      fun name => .single name (Text.contains (joinWords ws) "from") := by
  have hdot : Text.contains (joinWords ws) "from . " = false :=
    contains_from_dots "." hws (by decide) hone
  have hdots : Text.contains (joinWords ws) "from .. " = false :=
    contains_from_dots ".." hws (by decide) htwo
  rw [lineImport?, hdot, hdots]
  rfl

theorem importedModule?_import {rest : List String}
    (hname : ∀ c ∈ name.toList, Phrase.nameChar Phrase.moduleChars c = true)
    (hws : Pieces quoteMarks (name :: rest)) (hne : name ≠ "\n") :
    Phrase.importedModule? (joinWords ("import" :: name :: rest)) = some name := by
  have hkey : Piece quoteMarks "import".toList := .of_run (by decide) (by decide)
  obtain ⟨s, hkeyword, hs⟩ := Spot.exists_keyword?_start hkey (by decide) (name :: rest)
  have htake := List.takeWhile_eq_self_iff.mpr hname
  obtain ⟨t, hword, -⟩ :=
    Spot.word?_of_code (p := Phrase.nameChar Phrase.moduleChars) (by decide) hws hs
    (pastNewlines_cons hne rest) (by rw [htake]; exact (hws name List.mem_cons_self).ne_nil)
  rw [Phrase.importedModule?, hkeyword, Option.some_or]
  simp only [Option.bind_eq_bind, Option.bind_some, hword, htake, String.ofList_toList]
  rfl

/-- Only the first name of the line counts. Whether it is taken for one of the project depends on
all of them. -/
theorem lineImport?_listWords (h : ∀ n ∈ name :: names, Identifier n) :
    lineImport? (joinWords (listWords (name :: names))) =
    some (.single name ((name :: names).any fun n => Text.contains n "from")) := by
  obtain ⟨rest, hrest⟩ : ∃ rest, listWords (name :: names) = "import" :: name :: rest := by
    cases names <;> exact ⟨_, rfl⟩
  have hname := h name List.mem_cons_self
  have hpieces := pieces_listWords h
  have hdots : ∀ dots, '.' ∈ dots.toList → dots ∉ listWords (name :: names) := by
    intro dots hdot hmem
    rcases of_mem_listWords hmem with rfl | rfl | hmem
    · exact absurd hdot (by decide)
    · exact absurd hdot (by decide)
    · exact (h dots hmem).not_mem (by decide) (by decide) hdot
  have hfrom :=
    contains_listWords "from" (by decide) (by decide) (by decide) (by decide) (name :: names)
  have hmodule : Phrase.importedModule? (joinWords (listWords (name :: names))) = some name := by
    rw [hrest]
    refine importedModule?_import hname.nameChar (fun w hw => ?_) ?_
    · exact hpieces w (by rw [hrest]; exact List.mem_cons_of_mem _ hw)
    · rintro rfl
      exact hname.not_mem (by decide) (by decide) (show '\n' ∈ "\n".toList by decide)
  rw [lineImport?_joinWords hpieces (hdots "." (by decide)) (hdots ".." (by decide)),
    hmodule, hfrom]
  rfl

theorem mayImport_listWords (h : ∀ n ∈ names, Identifier n) :
    mayImport (joinWords (listWords names)) = true := by
  refine mayImport_joinWords List.mem_cons_self fun w hw => ?_
  rcases of_mem_listWords hw with rfl | rfl | hw
  · decide
  · decide
  · exact (h w hw).not_mem (by decide) (by decide)

theorem resolveName_of_not_mem (hdot : '.' ∉ name.toList) (foreign : Bool) :
    resolveName ctx here name foreign =
      if foreign then name else fromSource ctx.disk here.source name := by
  have hcontains : ∀ part : String, '.' ∈ part.toList →
      Text.contains name part = false := fun part hpart =>
    contains_eq_false_iff.mpr fun hi => hdot (hi.subset hpart)
  have habove := hcontains ".." (by decide)
  have hclimbs := hcontains "../" (by decide)
  have hsibling : startsWithOneDot name = false := by
    rw [startsWithOneDot]
    split
    · next c cs heq => exact absurd (by rw [heq]; simp) hdot
    · rfl
  rw [resolveName]
  cases foreign <;> simp [habove, hclimbs, hsibling]

/-- The one name that is found in a line that imports some modules: the first one, or the path of
its module if a name has `from` in it and the first one is no module from elsewhere. -/
def listedName (ctx : ScanContext) (source name : String) (names : List String) : String :=
  if (name :: names).any (fun n =>
    Text.contains n "from") && !affirms (isForeign ctx.settings.resolution ctx.knownModules name)
  then fromSource ctx.disk source name else name

theorem lineNames_listWords (hsettings : ctx.settings.Textual)
    (h : ∀ n ∈ name :: names, Identifier n) :
    lineNames ctx here (joinWords (listWords (name :: names))) =
      [listedName ctx here.source name names].filter fun d => !isIgnored ctx d := by
  obtain ⟨foreign, hforeign⟩ := hsettings.exists_isForeign ctx.knownModules name
  have hdot : '.' ∉ name.toList := (h name List.mem_cons_self).not_mem (by decide) (by decide)
  have hline : resolveLine ctx here
      (.single name ((name :: names).any fun n => Text.contains n "from")) =
      .ok [listedName ctx here.source name names] := by
    rw [resolveLine, resolveSingle, hforeign, listedName, hforeign]
    simp only [resolveName_of_not_mem hdot]
    cases (name :: names).any fun n => Text.contains n "from" <;> cases foreign <;> rfl
  rw [lineNames, if_pos (mayImport_listWords h), lineImport?_listWords h, Option.elim_some,
    meantNames, hline]

end Imports

namespace Scanner

open Imports

/-- Of the modules that a line `import a, b, c` names, only the one that is found in it is among the
imports of its file, and only if a line of code follows. The others are there only if other lines
yield them. -/
theorem scanFile_importList (ctx : ScanContext) (file : SourceFile) (t : ScanState)
    (source pre name post : String) (names : List String)
    (hsource : ctx.settings.source = .text source) (hsettings : ctx.settings.Textual)
    (hlanguage : t.scanner.language = .python) (hcount : t.statistics.Countable)
    (hcontent : file.content = pre ++ importList (name :: names) ++ "\n" ++ post)
    (hpre : EndsLine pre.toList) (hnames : ∀ n ∈ name :: names, Identifier n)
    (hkept : ∀ n ∈ name :: names, isIgnored ctx n = false) :
    ∃ r t', scanFile ctx file t = .ok r t' ∧ ∀ n ∈ name :: names, n ∈ r.imports ↔
      (fileLines post ≠ [] ∧ n = listedName ctx source name names) ∨
      ∃ other ∈ fileLines pre ++ (fileLines post).dropLast,
        n ∈ lineNames ctx (filePlace .python ctx source file) other := by
  have hwords := fileWords_importList hnames
  have hnewline : "\n" ∉ listWords (name :: names) := by
    intro hmem
    rcases of_mem_listWords hmem with h | h | h
    · exact absurd h (by decide)
    · exact absurd h (by decide)
    · exact (hnames _ h).not_mem (by decide) (by decide) (show '\n' ∈ "\n".toList by decide)
  obtain ⟨r, t', hscan, hr⟩ :=
    exists_scanFile_line hsource hsettings hlanguage hcount hcontent hpre (by rwa [hwords])
    (by rw [hwords]; rfl)
  refine ⟨r, t', hscan, fun n hn => ?_⟩
  have hline : n ∈ lineNames ctx (filePlace .python ctx source file)
      (joinWords (listWords (name :: names))) ↔ n = listedName ctx source name names := by
    rw [lineNames_listWords hsettings hnames, List.mem_filter, List.mem_singleton, hkept n hn]
    exact and_iff_left rfl
  rw [hr, hwords, hline]

end Scanner

namespace Sample

/-- The second name of the list is found in another line only. -/
theorem scanFile_importList_sample : ∃ r s,
    Scanner.scanFile classContext (pythonFile "import re\nimport os, sys, re\n\nx = 1\n")
      pythonScanner = .ok r s ∧
    "os" ∈ r.imports ∧ "sys" ∉ r.imports ∧ "re" ∈ r.imports := by
  have hnames : ∀ n ∈ ["os", "sys", "re"], Imports.Identifier n := by
    intro n hn
    simp only [List.mem_cons, List.not_mem_nil, or_false] at hn
    rcases hn with rfl | rfl | rfl <;> exact ⟨by decide, by decide⟩
  obtain ⟨r, s, hscan, hr⟩ := Scanner.scanFile_importList classContext
    (pythonFile "import re\nimport os, sys, re\n\nx = 1\n") pythonScanner "/w/proj" "import re\n"
      "os" "\nx = 1\n" ["sys", "re"]
    rfl textual_plain rfl countable_pythonScanner (by decide) (.inr (by decide)) hnames
      (by decide +kernel)
  refine ⟨r, s, hscan, (hr "os" (by decide)).mpr ?_, mt (hr "sys" (by decide)).mp ?_,
    (hr "re" (by decide)).mpr ?_⟩ <;>
    decide +kernel

/-- Of two modules in one line, the second is not found. -/
theorem scanFile_twoImports : ∃ r s,
    Scanner.scanFile classContext (pythonFile "import os, sys\nx = 1\n") pythonScanner = .ok r s ∧
    r.imports = ["os"] := by
  obtain ⟨r, s, hscan, hr⟩ := exists_scanFile_pythonFile "import os, sys\nx = 1\n"
  refine ⟨r, s, hscan, hr.trans ?_⟩
  decide +kernel

end Sample

end CodeAtlas
