import CodeAtlas.Proofs.ImportStatements

/-!
# Includes of a file

After `#include`, newlines, brackets and quotes are skipped, however many there are and on whichever
line. The start of the first other word, as far as it is made of the characters of a name, is what
is included (`Phrase.includedName?_joinWords`). The imports of a file are these names in their
order, each as it is resolved, without those to be ignored; an include with a name counts as a hit
and one without as a miss (`Scanner.scanFile_includes`).
-/

namespace CodeAtlas

open Chars Effect Imports Phrase Spacing

variable {ws : List String} {w : String} {s : Spot}

/-! ### The name after the keyword -/

/-- A word that does not count before the name of an included file. -/
def isPadding (w : String) : Bool := ["\n", "<", ">", "\""].contains w

/-- The name with which the first word that counts starts. -/
def Phrase.includedIn? (p : Char → Bool) (ws : List String) : Option String :=
  match ws.find? fun w => !isPadding w with
  | none => none
  | some w => if leading p w = "" then none else some (leading p w)

theorem leading_congr {p q : Char → Bool} (h : ∀ c ∈ w.toList, p c = q c) :
    leading p w = leading q w := by
  have htake : ∀ cs : List Char, (∀ c ∈ cs, p c = q c) → cs.takeWhile p = cs.takeWhile q := by
    intro cs hcs
    induction cs with
    | nil => rfl
    | cons c cs ih =>
      obtain ⟨hc, hcs⟩ := List.forall_mem_cons.mp hcs
      rw [List.takeWhile_cons, List.takeWhile_cons, hc, ih hcs]
  rw [leading, leading, htake _ h]

theorem dropWhile_isPadding (ws : List String) :
    ws.dropWhile isPadding = (pastNewlines ws).dropWhile isPadding := by
  induction ws with
  | nil => rfl
  | cons w ws ih =>
    by_cases hw : w = "\n"
    · rw [hw, pastNewlines_newline, List.dropWhile_cons_of_pos (by decide), ih]
    · rw [pastNewlines_cons hw]

theorem find?_not_isPadding (ws : List String) :
    ws.find? (fun w => !isPadding w) = (ws.dropWhile isPadding).head? := by
  induction ws with
  | nil => rfl
  | cons w ws ih =>
    cases hw : isPadding w with
    | true => simp [hw, ih]
    | false => simp [hw]

theorem length_le_spreadWords (ws : List String) : ws.length ≤ (spreadWords ws).length := by
  induction ws with
  | nil => exact Nat.zero_le _
  | cons w ws ih =>
    rw [spreadWords_cons, List.length_cons, List.length_append, List.length_cons]
    omega

/-- Skipping marks skips the words that do not count; what is left starts with the first one that
does, up to newlines. -/
theorem Spot.exists_skipMarks {fuel : Nat} (hws : Pieces quoteMarks ws)
    (hs : s.rest = spreadWords ws) (hfuel : ws.length ≤ fuel) :
    ∃ us, Pieces quoteMarks us ∧ pastNewlines us = ws.dropWhile isPadding ∧
      (s.skipMarks ['<', '>', '"'] fuel).rest = spreadWords us := by
  -- each round skips one mark, so the words left bound the rounds
  induction fuel generalizing s ws with
  | zero =>
    obtain rfl := List.length_eq_zero_iff.mp (Nat.le_zero.mp hfuel)
    exact ⟨[], hws, rfl, hs⟩
  | succ fuel ih =>
    rw [skipMarks, dropWhile_isPadding]
    cases hcode : pastNewlines ws with
    | nil =>
      have hrest : s.skipGaps.rest = [] := by
        rw [rest_skipGaps, hs, dropWhile_isGap_spreadWords hws, hcode]
        rfl
      simp only [hrest]
      exact ⟨ws, hws, hcode, hs⟩
    | cons w after =>
      obtain ⟨hw, hne, hafter⟩ := hws.of_pastNewlines hcode
      obtain ⟨c, cs, hc⟩ := List.exists_cons_of_ne_nil hw.ne_nil
      have hrest : s.skipGaps.rest = c :: (cs ++ spreadWords after) := by
        rw [rest_skipGaps_of_code hws hs hcode, hc, List.cons_append]
      simp only [hrest]
      split_ifs with hmark
      · have hmem : c ∈ ['<', '>', '"'] := by simpa using hmark
        have halone : w.toList = [c] := by
          refine hw.alone c (hc ▸ List.mem_cons_self) ?_
          exact (by decide : ∀ c ∈ ['<', '>', '"'], c ∈ quoteMarks) c hmem
        obtain rfl : cs = [] := (List.cons.inj (hc.symm.trans halone)).2
        have hpad : isPadding w = true := by
          rw [← String.ofList_toList (s := w), halone]
          exact (by decide : ∀ c ∈ ['<', '>', '"'], isPadding (String.ofList [c]) = true) c hmem
        have hlen : after.length ≤ fuel := by
          have hsub : (pastNewlines ws).length ≤ ws.length := (List.dropWhile_sublist _).length_le
          rw [hcode, List.length_cons] at hsub
          omega
        have hnext : (s.skipGaps.advance 1).rest = spreadWords after := by
          rw [rest_advance, hrest]
          rfl
        obtain ⟨us, hus, hpast, hskip⟩ := ih hafter hnext hlen
        exact ⟨us, hus, by rw [hpast, List.dropWhile_cons_of_pos hpad], hskip⟩
      · refine ⟨ws, hws, ?_, hs⟩
        have hpad : ¬ isPadding w = true := by
          intro hpad
          have hfirst : ∀ v ∈ ["\n", "<", ">", "\""], v ≠ "\n" →
              ∀ d ∈ v.toList.head?, ['<', '>', '"'].contains d = true := by
            simp
          exact hmark (hfirst w (by simpa [isPadding] using hpad) hne c (by rw [hc]; rfl))
        rw [List.dropWhile_cons_of_neg hpad, hcode]

namespace Phrase

variable {extra : List Char}

theorem nameChar_space (h : ' ' ∉ extra) : nameChar extra ' ' = false := by
  simp [nameChar, h, show Text.asciiAlnum ' ' = false by decide]

theorem includedName?_joinWords (hspace : ' ' ∉ extra) (hws : Pieces Spacing.quoteMarks ws) :
    includedName? extra (joinWords ("#include" :: ws)) = includedIn? (nameChar extra) ws := by
  have hkey : Piece quoteMarks "#include".toList := .of_run (by decide) (by decide)
  obtain ⟨s, hkeyword, hs⟩ := Spot.exists_keyword?_start hkey (by decide) ws
  have hfuel : ws.length ≤ s.rest.length := hs ▸ length_le_spreadWords ws
  obtain ⟨us, hus, hpast, hskip⟩ := Spot.exists_skipMarks hws hs hfuel
  rw [includedName?, hkeyword, includedIn?, find?_not_isPadding]
  simp only [Option.bind_eq_bind, Option.bind_some]
  cases hcode : ws.dropWhile isPadding with
  | nil =>
    rw [Spot.word?_eq_none (nameChar_space hspace) hus hskip (by simp [hpast, hcode])]
    rfl
  | cons w after =>
    have hnext : pastNewlines us = w :: after := hpast.trans hcode
    by_cases hname : leading (nameChar extra) w = ""
    · have hnone : ∀ v more, pastNewlines us = v :: more →
          v.toList.takeWhile (nameChar extra) = [] := by
        intro v more heq
        rw [← (List.cons.inj (hnext.symm.trans heq)).1]
        exact leading_eq_empty.mp hname
      rw [Spot.word?_eq_none (nameChar_space hspace) hus hskip hnone]
      simp [hname]
    · obtain ⟨t, hword, -⟩ :=
        Spot.word?_of_code (nameChar_space hspace) hus hskip hnext
          fun hnil => hname (leading_eq_empty.mpr hnil)
      rw [hword]
      simp only [Option.bind_some, List.head?_cons, if_neg hname]
      rfl

end Phrase

namespace Imports

def Includes (language : Language) : Prop := language = .c ∨ language = .cpp

def nameMarks : Language → List Char
  | .c => ['.', '/', '_', '-']
  | _ => ['.', '/', '_']

/-- The name of the file that is included at a place: the start of the next word of the code that is
neither a newline nor a bracket or quote. -/
def includeAt? (language : Language) (ws : List String) (i : Nat) : Option String :=
  Phrase.includedIn? (Phrase.nameChar (nameMarks language)) (ws.drop (i + 1))

variable {language : Language} {ctx : ScanContext} {st : Statistics} {h m : Int} {here : Place}

theorem nameChar_includeChars {c : Char} (hc : c ≠ '"') :
    nameChar (includeChars language) c = nameChar (nameMarks language) c := by
  cases language <;> simp [nameChar, includeChars, nameMarks, hc]

/-- A quote is a word of its own, so it makes no difference that it may be part of a name. -/
theorem includedIn?_includeChars (hws : Pieces quoteMarks ws) :
    includedIn? (nameChar (includeChars language)) ws =
      includedIn? (nameChar (nameMarks language)) ws := by
  rw [includedIn?, includedIn?]
  cases hfind : ws.find? fun w => !isPadding w with
  | none => rfl
  | some w =>
    have hquote : '"' ∉ w.toList := by
      intro hmem
      have halone := (hws w (List.mem_of_find?_eq_some hfind)).alone '"' hmem (by decide)
      have hpad := List.find?_some hfind
      rw [← String.ofList_toList (s := w), halone] at hpad
      cases hpad
    have hsame : leading (nameChar (includeChars language)) w =
        leading (nameChar (nameMarks language)) w := by
      refine leading_congr ?_
      intro c hc
      exact nameChar_includeChars fun heq => hquote (heq ▸ hc)
    simp only [hsame]

theorem pieces_codeWords_quotes (hlanguage : Includes language) (words : List String) :
    Pieces quoteMarks (codeWords language words) := by
  have hspacing : language.importSpacing = .withQuotes := by
    rcases hlanguage with rfl | rfl <;> rfl
  rw [codeWords, hspacing, words_withQuotes]
  exact pieces_cut _ _

theorem includeMentions_eq (language : Language) (hws : Pieces quoteMarks ws)
    (hne : ws ≠ ["#include"]) :
    includeMentions language ws = .ok
      ((places "#include" ws).map fun i => .ofOption (includeAt? language ws i)) := by
  have hspace : ' ' ∉ includeChars language := by cases language <;> decide
  have hphrase : ∀ rest, Pieces quoteMarks rest →
      includedName? (includeChars language) (joinWords ("#include" :: rest)) =
        includedIn? (nameChar (nameMarks language)) rest := by
    intro rest hrest
    rw [includedName?_joinWords hspace hrest, includedIn?_includeChars hrest]
  refine Mention.all_eq _ hne (fun rest hsub => hphrase rest fun w hw => hws w (hsub w hw)) rfl ?_
  have hkey : Piece quoteMarks "#include".toList := .of_run (by decide) (by decide)
  rw [hphrase ["#include"] (by simpa [Pieces] using hkey)]
  cases language <;> decide

theorem flatMap_resolved (p : String → Bool) (f : String → String) (ds : List String) :
    (ds.flatMap fun d => if p (f d) then [] else [f d]) = (ds.map f).filter fun d => !p d := by
  rw [← flatMap_unless, List.flatMap_map]

/-- The names of the included files are resolved, and those to be ignored are left out. -/
theorem exists_included (ctx : ScanContext) (here : Place) (hh : st.count? .parsingHits = some h)
    (hm : st.count? .parsingMisses = some m) (is : List Nat) (name? : Nat → Option String)
    (hignore : ∀ i ∈ is, ∀ d, name? i = some d →
      ∃ b, ctx.settings.filters.ignoresDependency (resolveIncluded ctx here d) = .ok b) :
    ∃ st', included ctx here (is.map fun i => .ofOption (name? i)) st =
        .ok (((is.filterMap name?).map (resolveIncluded ctx here)).filter fun d => !isIgnored ctx d)
          st' ∧
      st'.count? .parsingHits = some (h + is.countP fun i => (name? i).isSome) ∧
      st'.count? .parsingMisses = some (m + is.countP fun i => (name? i).isNone) := by
  obtain ⟨st', hst', hcounts⟩ :=
    Tallied.exists_collect (fun d => unlessIgnored ctx (resolveIncluded ctx here d)) hh hm is name?
    fun i hi d hd => unlessIgnored_eq (hignore i hi d hd)
  rw [flatMap_resolved] at hst'
  exact ⟨st', hst', hcounts⟩

theorem ofFile_includes (hlanguage : Includes language) (ctx : ScanContext) (here : Place)
    (words : List String) : ofFile language ctx here words =
      (do included ctx here (← Tallied.lift
        (includeMentions language (codeWords language words)))) := by
  rcases hlanguage with rfl | rfl <;> rfl

end Imports

namespace Scanner

variable {ctx : ScanContext} {file : SourceFile} {t : ScanState} {source : String}

def filePlace (language : Language) (ctx : ScanContext) (source : String) (file : SourceFile) :
    Place :=
  placeOf source (blankResult language ctx source file)

theorem exists_scanFile_of_imports {imports : List String} {st : Statistics}
    (hsource : ctx.settings.source = .text source) (hlanguage : t.scanner.language ≠ .java)
    (himports : ofFile t.scanner.language ctx
      (filePlace t.scanner.language ctx source file)
        (t.scanner.language.fileSpacing.words file.content) t.statistics =
        .ok imports st) :
    ∃ r, scanFile ctx file t = .ok r
      ⟨{ t.scanner with results := t.scanner.results.insert r.uniqueName r }, st⟩ ∧
      r.imports = imports ∧ placeOf source r = filePlace t.scanner.language ctx source file := by
  have hpath : ctx.settings.sourcePath = .ok source := by rw [Settings.sourcePath, hsource]
  have hlift : Tallied.lift (.ok source) t.statistics = .ok source t.statistics := rfl
  have hresult : fileResult t.scanner.language ctx file t.statistics =
      .ok
        { blankResult t.scanner.language ctx source file with moduleName := "", imports := imports }
          st := by
    rw [fileResult, hpath, bind_of_ok hlift, if_neg hlanguage]
    exact bind_eq_ok.mpr ⟨"", t.statistics, rfl, bind_eq_ok.mpr ⟨imports, st, himports, rfl⟩⟩
  refine ⟨{ blankResult t.scanner.language ctx source file with
    moduleName := "", imports := imports }, ?_, rfl, rfl⟩
  rw [scanFile, get_bind]
  exact bind_eq_ok.mpr ⟨_, _, tallied_eq_ok_iff.mpr ⟨st, hresult, rfl⟩, rfl⟩

theorem resolveImport_eq_resolveIncluded {language : Language}
    (hlanguage : Imports.Includes language) (hsource : ctx.settings.source = .text source)
    (r : ScanResult) (d : String) :
    resolveImport language ctx r d = .ok (resolveIncluded ctx (placeOf source r) d) := by
  have hpath : ctx.settings.sourcePath = .ok source := by rw [Settings.sourcePath, hsource]
  rw [resolveImport, hpath]
  rcases hlanguage with rfl | rfl <;> rfl

/-- A file of C or C++ whose code has two words or more is scanned, and its imports are the names of
the files that it includes, each as it is resolved from the result, without those to be ignored. A
hit is counted for each include with a name and a miss for each without. -/
theorem scanFile_includes (ctx : ScanContext) (file : SourceFile) (t : ScanState) (source : String)
    (language : Language) (ws : List String) (h m : Int)
    (hsource : ctx.settings.source = .text source) (hlanguage : t.scanner.language = language)
    (hincludes : Imports.Includes language) (hh : t.statistics.count? .parsingHits = some h)
    (hm : t.statistics.count? .parsingMisses = some m)
    (hws : codeWords language (language.fileSpacing.words file.content) = ws) (htwo : 2 ≤ ws.length)
    (hignore : ∀ i ∈ places "#include" ws, ∀ d, includeAt? language ws i = some d → ∃ b,
      ctx.settings.filters.ignoresDependency
        (resolveIncluded ctx (filePlace language ctx source file) d) = .ok b) :
    ∃ (r : ScanResult) (t' : ScanState),
      scanFile ctx file t = .ok r t' ∧ t'.scanner.results.get? r.uniqueName = some r ∧
      (∀ d, resolveImport language ctx r d =
        .ok (resolveIncluded ctx (filePlace language ctx source file) d)) ∧
      r.imports = (((places "#include" ws).filterMap (includeAt? language ws)).map
        (resolveIncluded ctx (filePlace language ctx source file))).filter
          (fun d => !isIgnored ctx d) ∧
      t'.statistics.count? .parsingHits =
        some (h + (places "#include" ws).countP fun i => (includeAt? language ws i).isSome) ∧
      t'.statistics.count? .parsingMisses =
        some (m + (places "#include" ws).countP fun i => (includeAt? language ws i).isNone) := by
  subst hlanguage
  have hjava : t.scanner.language ≠ .java := by
    rcases hincludes with hl | hl <;> rw [hl] <;> decide
  have hne : ws ≠ ["#include"] := by
    rintro rfl
    exact absurd htwo (by decide)
  have hmentions :=
    includeMentions_eq t.scanner.language (hws ▸ pieces_codeWords_quotes hincludes _) hne
  obtain ⟨st, hst, hhits, hmisses⟩ := exists_included ctx _ hh hm (places "#include" ws)
    (includeAt? t.scanner.language ws) hignore
  have hfile := ofFile_includes hincludes ctx (filePlace t.scanner.language ctx source file)
    (t.scanner.language.fileSpacing.words file.content)
  rw [hws, hmentions] at hfile
  obtain ⟨r, hscan, himports, hplace⟩ :=
    exists_scanFile_of_imports hsource hjava ((congrFun hfile t.statistics).trans hst)
  refine ⟨r, _, hscan, ?_, fun d => ?_, himports, hhits, hmisses⟩
  · exact (OrderedMap.get?_insert _ _ _ _).trans (if_pos rfl)
  · rw [resolveImport_eq_resolveIncluded hincludes hsource, hplace]

end Scanner

namespace Sample

def includingFile : Scanner.SourceFile where
  name := "a.c"
  path := "proj/a.c"
  content := "#include \"b-c.h+\"\n#include\n+ x\n#include <java>"

def cScanner : ScanState := ⟨{ language := .c }, .empty⟩

def includingWords : List String :=
  ["#include", "\"", "b-c.h+", "\"", "\n", "#include", "\n", "+", "x", "\n", "#include", "<",
    "java", ">"]

/-- The second name is ignored, but counts as a hit. -/
theorem scanFile_includes_sample :
    codeWords .c (Language.c.fileSpacing.words includingFile.content) = includingWords ∧
    ∃ (r : ScanResult) (t' : ScanState),
      Scanner.scanFile ignoringContext includingFile cScanner = .ok r t' ∧ r.imports = ["b-c.h"] ∧
      t'.statistics.count? .parsingHits = some 2 ∧
      t'.statistics.count? .parsingMisses = some 1 := by
  have hwords : codeWords .c (Language.c.fileSpacing.words includingFile.content) =
      includingWords := by decide +kernel
  obtain ⟨hnames, hhits, hmisses⟩ :
      (places "#include" includingWords).filterMap (includeAt? .c includingWords) =
        ["b-c.h", "java"] ∧
      ((places "#include" includingWords).countP fun i => (includeAt? .c includingWords i).isSome) =
        2 ∧
      ((places "#include" includingWords).countP fun i => (includeAt? .c includingWords i).isNone) =
        1 := by decide +kernel
  obtain ⟨hkept, hignored⟩ : ignoringContext.settings.filters.ignoresDependency "b-c.h" =
    .ok false ∧
      ignoringContext.settings.filters.ignoresDependency "java" = .ok true := ⟨by rfl, by rfl⟩
  -- there is nothing on the disk, so every name stays as it is
  have hsame : ∀ d ∈ ["b-c.h", "java"],
      resolveIncluded ignoringContext
        (Scanner.filePlace .c ignoringContext "/w/proj" includingFile) d = d := by
    decide +kernel
  have hignore : ∀ d ∈ ["b-c.h", "java"], ∃ b,
      ignoringContext.settings.filters.ignoresDependency (resolveIncluded ignoringContext
        (Scanner.filePlace .c ignoringContext "/w/proj" includingFile) d) = .ok b := by
    intro d hd
    rw [hsame d hd]
    simp only [List.mem_cons, List.not_mem_nil, or_false] at hd
    rcases hd with rfl | rfl
    · exact ⟨false, hkept⟩
    · exact ⟨true, hignored⟩
  obtain ⟨r, t', hscan, -, -, himports, hh, hm⟩ :=
    Scanner.scanFile_includes ignoringContext includingFile cScanner "/w/proj" .c
    includingWords 0 0 rfl rfl (.inl rfl) rfl rfl hwords (by decide) fun i hi d hd =>
      hignore d (hnames ▸ List.mem_filterMap.mpr ⟨i, hi, hd⟩)
  rw [hnames, List.map_congr_left hsame, List.map_id'] at himports
  rw [hhits] at hh
  rw [hmisses] at hm
  refine ⟨hwords, r, t', hscan, ?_, hh, hm⟩
  rw [himports]
  simp [isIgnored, hkept, hignored, affirms]

end Sample

end CodeAtlas
