import CodeAtlas.Proofs.EntityLines
import CodeAtlas.Proofs.Sightings

/-!
# Packages and imports of a file

A statement `package name ;` or `import name ;` is told by the two words of the code after its
keyword (`Phrase.terminatedAt?`). The imports of a file are the names in its import statements, in
their order, without those to be ignored; a statement counts as a hit, also if its name is ignored,
and a keyword without a statement as a miss (`Scanner.scanFile_imports`).
-/

namespace CodeAtlas

open Effect Imports Phrase Spacing

/-- The name in the statement that starts with the keyword at a place: the next word of the code, if
it is made of letters, digits and some more characters and a semicolon is the word after it. -/
def Phrase.terminatedAt? (extra : List Char) (ws : List String) (i : Nat) :
    Option String := terminatedIn? extra (ws.drop (i + 1))

theorem Mention.all_terminated {k : String} {extra : List Char} {ws : List String}
    (hk : ∀ c ∈ k.toList, Chars.isBreak plainMarks c = false) (hk' : k ≠ "")
    (hextra : ∀ c ∈ extra, Text.isBlank c = false) (hmark : ';' ∉ extra)
    (hws : Pieces plainMarks ws) (hne : ws ≠ [k]) : all (· == k) (fun _ => terminated? k extra) ws =
      .ok ((places k ws).map fun i => .ofOption (terminatedAt? extra ws i)) := by
  have hpiece : Chars.Piece plainMarks k.toList :=
    .of_run (fun h => hk' (String.toList_eq_nil_iff.mp h)) hk
  have hline : k ≠ "\n" := fun h => absurd (hk '\n' (by rw [h]; decide)) (by decide)
  have hphrase : ∀ rest, Pieces plainMarks rest →
      terminated? k extra (joinWords (k :: rest)) = terminatedIn? extra rest := fun rest hrest =>
    terminated?_joinWords hpiece hline hextra hmark hrest
  refine all_eq _ hne (fun rest hsub => hphrase rest fun w hw => hws w (hsub w hw)) rfl ?_
  rw [hphrase [k] (by simpa [Pieces] using hpiece), terminatedIn?,
    List.filter_cons_of_pos (by simpa using hline)]
  rfl

namespace Imports

variable {ctx : ScanContext} {st : Statistics} {h m : Int} {ws : List String}

def importAt? (ws : List String) (i : Nat) : Option String := terminatedAt? ['.', '*'] ws i

def isIgnored (ctx : ScanContext) (d : String) : Bool :=
  affirms (ctx.settings.filters.ignoresDependency d)

theorem unlessIgnored_eq {d : String} (h : ∃ b, ctx.settings.filters.ignoresDependency d = .ok b) :
    unlessIgnored ctx d = pure (if isIgnored ctx d then [] else [d]) := by
  obtain ⟨b, hb⟩ := h
  rw [unlessIgnored, isIgnored, hb]
  cases b <;> rfl

theorem flatMap_unless (p : String → Bool) (ds : List String) :
    (ds.flatMap fun d => if p d then [] else [d]) = ds.filter fun d => !p d := by
  induction ds with
  | nil => rfl
  | cons d ds ih => cases hd : p d <;> simp [hd, ih]

theorem exists_java (ctx : ScanContext) (hne : ws ≠ ["import"]) (hws : Pieces plainMarks ws)
    (hh : st.count? .parsingHits = some h) (hm : st.count? .parsingMisses = some m)
    (hignore : ∀ i ∈ places "import" ws, ∀ d, importAt? ws i = some d →
      ∃ b, ctx.settings.filters.ignoresDependency d = .ok b) :
    ∃ st', java ctx ws st = .ok (((places "import" ws).filterMap (importAt? ws)).filter
      fun d => !isIgnored ctx d) st' ∧
      st'.count? .parsingHits = some
        (h + (places "import" ws).countP fun i => (importAt? ws i).isSome) ∧
      st'.count? .parsingMisses = some
        (m + (places "import" ws).countP fun i => (importAt? ws i).isNone) := by
  have hall : Mention.all (· == "import") (fun _ => importedName?) ws =
      .ok ((places "import" ws).map fun i => .ofOption (importAt? ws i)) :=
    Mention.all_terminated (by decide) (by decide) (by decide) (by decide) hws hne
  obtain ⟨st', hst', hcounts⟩ :=
    Tallied.exists_collect (unlessIgnored ctx) hh hm (places "import" ws) (importAt? ws)
    fun i hi d hd => unlessIgnored_eq (hignore i hi d hd)
  rw [flatMap_unless] at hst'
  refine ⟨st', ?_, hcounts⟩
  rw [java, hall]
  exact hst'

end Imports

namespace Scanner

variable {ctx : ScanContext} {file : SourceFile} {t : ScanState} {st : Statistics} {h m : Int}
  {ws : List String}

def packageAt? (ws : List String) (i : Nat) : Option String := terminatedAt? ['.'] ws i

/-- The last package statement counts. -/
theorem exists_packageOf (hne : ws ≠ ["package"]) (hws : Pieces plainMarks ws)
    (hh : st.count? .parsingHits = some h) (hm : st.count? .parsingMisses = some m) :
    ∃ st', packageOf ws st =
      .ok (((places "package" ws).filterMap (packageAt? ws)).getLast?.getD "") st' ∧
      st'.count? .parsingHits = some
        (h + (places "package" ws).countP fun i => (packageAt? ws i).isSome) ∧
      st'.count? .parsingMisses = some
        (m + (places "package" ws).countP fun i => (packageAt? ws i).isNone) := by
  have hall : Mention.all (· == "package") (fun _ => packageName?) ws =
      .ok ((places "package" ws).map fun i => .ofOption (packageAt? ws i)) :=
    Mention.all_terminated (by decide) (by decide) (by decide) (by decide) hws hne
  obtain ⟨st', hst', hcounts⟩ :=
    Tallied.exists_collect (fun name => pure [name]) hh hm (places "package" ws)
    (packageAt? ws) fun _ _ _ _ => rfl
  rw [List.flatMap_singleton'] at hst'
  refine ⟨st', ?_, hcounts⟩
  rw [packageOf, hall]
  exact bind_eq_ok.mpr ⟨_, st, rfl, bind_eq_ok.mpr ⟨_, st', hst', rfl⟩⟩

theorem pieces_fileWords (content : String) :
    Pieces plainMarks (Language.java.fileSpacing.words content) := by
  have hwords : Language.java.fileSpacing.words content = _ := words_withQuotes content
  rw [hwords]
  exact fun w hw => (pieces_cut _ _ w hw).mono (List.subset_append_left _ _)

theorem pieces_codeWords (words : List String) : Pieces plainMarks (codeWords .java words) := by
  intro w hw
  rw [codeWords] at hw
  exact piece_of_mem_words hw

/-- A file is scanned for its package first, then for its imports. -/
theorem exists_scanFile_of_passes {source package : String} {words imports : List String}
    {st' : Statistics} (hsource : ctx.settings.source = .text source)
    (hlanguage : t.scanner.language = .java)
    (hwords : Language.java.fileSpacing.words file.content = words)
    (hpackage : packageOf words t.statistics = .ok package st)
    (himports : java ctx (codeWords .java words) st = .ok imports st') :
    ∃ r, scanFile ctx file t = .ok r
      ⟨{ t.scanner with results := t.scanner.results.insert r.uniqueName r }, st'⟩ ∧
      r.moduleName = package ∧ r.imports = imports ∧ r.words = words := by
  have hresult : ∃ r, fileResult .java ctx file t.statistics = .ok r st' ∧ r.moduleName = package ∧
      r.imports = imports ∧ r.words = words := by
    have hblank : (blankResult .java ctx source file).words = words := by rw [← hwords, blankResult]
    have hpath : ctx.settings.sourcePath = .ok source := by rw [Settings.sourcePath, hsource]
    have hlift : Tallied.lift (.ok source) t.statistics = .ok source t.statistics := rfl
    rw [fileResult, hpath, bind_of_ok hlift, if_pos rfl]
    -- what else the blank result holds does not matter
    generalize blankResult .java ctx source file = blank at hblank
    subst hblank
    exact ⟨_, bind_eq_ok.mpr ⟨package, st, hpackage, bind_eq_ok.mpr ⟨imports, st', himports, rfl⟩⟩,
      rfl, rfl, rfl⟩
  obtain ⟨r, hr, hfields⟩ := hresult
  refine ⟨r, ?_, hfields⟩
  rw [scanFile, get_bind, hlanguage]
  exact bind_eq_ok.mpr ⟨r, _, tallied_eq_ok_iff.mpr ⟨st', hr, rfl⟩, rfl⟩

theorem ne_keyword_of_two_le {words : List String} (h : 2 ≤ (codeWords .java words).length) :
    words ≠ ["package"] ∧ codeWords .java words ≠ ["import"] := by
  have hone : (codeWords .java ["package"]).length = 1 := by decide +kernel
  refine ⟨fun heq => ?_, fun heq => ?_⟩
  · rw [heq, hone] at h
    omega
  · rw [heq] at h
    exact absurd h (by decide)

/-- A file whose code has two words or more is scanned, and its imports are the names in its import
statements without those to be ignored. Looking for them counts a hit for each statement and a miss
for each keyword without one. -/
theorem scanFile_imports (ctx : ScanContext) (file : SourceFile) (t : ScanState) (source : String)
    (words ws : List String) (h m : Int) (hsource : ctx.settings.source = .text source)
    (hlanguage : t.scanner.language = .java) (hh : t.statistics.count? .parsingHits = some h)
    (hm : t.statistics.count? .parsingMisses = some m)
    (hwords : Language.java.fileSpacing.words file.content = words)
    (hws : codeWords .java words = ws) (htwo : 2 ≤ ws.length)
    (hignore : ∀ i ∈ places "import" ws, ∀ d, importAt? ws i = some d →
      ∃ b, ctx.settings.filters.ignoresDependency d = .ok b) :
    ∃ (r : ScanResult) (t' : ScanState) (st : Statistics) (h' m' : Int),
      packageOf words t.statistics = .ok r.moduleName st ∧
      st.count? .parsingHits = some h' ∧ st.count? .parsingMisses = some m' ∧
      scanFile ctx file t = .ok r t' ∧ t'.scanner.results.get? r.uniqueName = some r ∧
      r.imports = ((places "import" ws).filterMap (importAt? ws)).filter
        (fun d => !isIgnored ctx d) ∧
      t'.statistics.count? .parsingHits =
        some (h' + (places "import" ws).countP fun i => (importAt? ws i).isSome) ∧
      t'.statistics.count? .parsingMisses =
        some (m' + (places "import" ws).countP fun i => (importAt? ws i).isNone) := by
  have hpieces : Pieces plainMarks words := hwords ▸ pieces_fileWords file.content
  subst hws
  obtain ⟨hpackage, himport⟩ := ne_keyword_of_two_le htwo
  obtain ⟨st, hst, hh', hm'⟩ := exists_packageOf hpackage hpieces hh hm
  obtain ⟨st', hst', hhits, hmisses⟩ :=
    exists_java ctx himport (pieces_codeWords words) hh' hm' hignore
  obtain ⟨r, hscan, hmodule, himports, -⟩ :=
    exists_scanFile_of_passes hsource hlanguage hwords hst hst'
  refine ⟨r, _, st, _, _, hmodule ▸ hst, hh', hm', hscan, ?_, himports, hhits, hmisses⟩
  exact (OrderedMap.get?_insert _ _ _ _).trans (if_pos rfl)

end Scanner

namespace Sample

def importingFile : Scanner.SourceFile where
  name := "A.java"
  path := "/w/proj/A.java"
  content :=
    "package p;\nimport a.B;\nimport java.\n util.*;\nimport java.util.*;\nclass A \x7b \x7d"

def ignoringContext : ScanContext :=
  { classContext with
    settings := { classContext.settings with
      filters := { ignoredDependencies := .list [.text "java"] } } }

def importingWords : List String :=
  codeWords .java (Language.java.fileSpacing.words importingFile.content)

theorem scanFile_imports_sample :
    2 ≤ importingWords.length ∧ ∃ (r : ScanResult) (t' : ScanState) (st : Statistics) (h' m' : Int),
    Scanner.packageOf (Language.java.fileSpacing.words importingFile.content)
      javaScanner.statistics = .ok r.moduleName st ∧
    st.count? .parsingHits = some h' ∧ st.count? .parsingMisses = some m' ∧
    Scanner.scanFile ignoringContext importingFile javaScanner = .ok r t' ∧ r.imports = ["a.B"] ∧
    t'.statistics.count? .parsingHits = some (h' + 2) ∧
    t'.statistics.count? .parsingMisses = some (m' + 1) := by
  obtain ⟨htwo, hnames, hhits, hmisses⟩ : 2 ≤ importingWords.length ∧
      ((places "import" importingWords).filterMap (importAt? importingWords)).filter
        (fun d => !isIgnored ignoringContext d) = ["a.B"] ∧
      ((places "import" importingWords).countP fun i => (importAt? importingWords i).isSome) = 2 ∧
      ((places "import" importingWords).countP fun i => (importAt? importingWords i).isNone) =
        1 := by decide +kernel
  have hignore : ∀ d, ∃ b, ignoringContext.settings.filters.ignoresDependency d = .ok b := by
    intro d
    have hread : ignoringContext.settings.filters.ignoresDependency d =
        (do
          if ← Filters.occursIgnoringCase d.toList [.text "java"] then return true
          else return false) := rfl
    rw [hread, Filters.occursIgnoringCase]
    split
    · exact ⟨true, rfl⟩
    · exact ⟨false, rfl⟩
  obtain ⟨r, t', st, h', m', hst, hh, hm, hscan, -, himports, hh', hm'⟩ :=
    Scanner.scanFile_imports ignoringContext importingFile
    javaScanner "/w/proj" _ importingWords 0 0 rfl rfl rfl rfl rfl rfl htwo fun _ _ d _ => hignore d
  rw [hhits] at hh'
  rw [hmisses] at hm'
  exact ⟨htwo, r, t', st, h', m', hst, hh, hm, hscan, himports.trans hnames, hh', hm'⟩

end Sample

end CodeAtlas
