import CodeAtlas.Proofs.IncludeStatements

/-!
# Files that cannot be scanned

Looking at a keyword means looking at what follows it, and where a keyword is the only word there
is, nothing does (`Mention.all_lone`). If the settings are texts where texts are read
(`Settings.Textual`), nothing else stops a scanner: every step ends well whatever has been counted
before (`Tallied.Ends`). So a file cannot be scanned exactly if a keyword is all of its code, or
`package` all of a file of Java, and then no result is touched (`Scanner.scanFile_fails_iff`).
-/

namespace CodeAtlas

open Effect Imports

/-! ### Settings -/

/-- What scanning reads of the settings, besides the source directory, is of the right kind: the
parts of names to be ignored are texts, patterns are made for texts, aliases lead from texts to
texts, and names can be looked for among those that are to be resolved or kept. -/
structure Settings.Textual (s : Settings) : Prop where
  ignored : ∃ parts : List String, s.filters.ignoredDependencies.membersIfAny =
    .ok (parts.map .text)
  patterns : ∀ m ∈ s.filters.ignoredDependencyPatterns, m.forBytes = false
  aliases : s.resolution.aliasesActive = true →
    ∃ es : List (String × String),
      s.resolution.aliases = .map (es.map fun e => (.text e.1, .text e.2))
  resolve : ∀ name, ∃ b, s.resolution.resolve.hasText name = .ok b
  keep : ∀ name, ∃ b, s.resolution.keep.hasText name = .ok b

theorem Filters.exists_occursIgnoringCase (s : List Char) (parts : List String) :
    ∃ b, occursIgnoringCase s (parts.map .text) = .ok b := by
  induction parts with
  | nil => exact ⟨false, rfl⟩
  | cons part parts ih =>
    rw [List.map_cons, occursIgnoringCase]
    split
    · exact ⟨true, rfl⟩
    · exact ih

theorem Matcher.exists_anyM_accepts {ms : List Matcher} (h : ∀ m ∈ ms, m.forBytes = false)
    (s : String) : ∃ b, (ms.anyM fun m => m.accepts s) = .ok b := by
  induction ms with
  | nil => exact ⟨false, rfl⟩
  | cons m ms ih =>
    obtain ⟨hm, hms⟩ := List.forall_mem_cons.mp h
    have haccepts : m.accepts s = .ok (m.node.matchesStart s.toList) := by
      rw [accepts, hm]
      rfl
    rw [List.anyM, haccepts]
    cases m.node.matchesStart s.toList with
    | true => exact ⟨true, rfl⟩
    | false => exact ih hms

theorem Resolve.exists_replaceAlias (s : String) (es : List (String × String)) :
    ∃ d, replaceAlias s (.map (es.map fun e => (.text e.1, .text e.2))) = .ok d := by
  have hfirst : firstAlias? s (es.map fun e => (.text e.1, .text e.2)) = .ok none ∨
      ∃ key new, firstAlias? s (es.map fun e => (.text e.1, .text e.2)) =
        .ok (some (key, .text new)) := by
    induction es with
    | nil => exact .inl rfl
    | cons e es ih =>
      rw [List.map_cons, firstAlias?]
      split
      · exact .inr ⟨e.1, e.2, rfl⟩
      · exact ih
  rw [replaceAlias]
  rcases hfirst with hnone | ⟨key, new, hsome⟩
  · rw [hnone]
    exact ⟨s, rfl⟩
  · rw [hsome]
    exact ⟨Text.replace s key new, rfl⟩

namespace Settings.Textual

variable {ctx : ScanContext} {here : Place}

theorem exists_ignoresDependency {s : Settings} (h : s.Textual) (d : String) :
    ∃ b, s.filters.ignoresDependency d = .ok b := by
  obtain ⟨parts, hparts⟩ := h.ignored
  obtain ⟨b, hb⟩ := Filters.exists_occursIgnoringCase d.toList parts
  rw [Filters.ignoresDependency, hparts]
  simp only [bind, Except.bind, hb]
  cases b with
  | true => exact ⟨true, rfl⟩
  | false => exact Matcher.exists_anyM_accepts h.patterns d

theorem exists_resolveScript (h : ctx.settings.Textual) (d : String) :
    ∃ e, resolveScript ctx here d = .ok e := by
  rw [resolveScript, Resolve.script]
  cases hactive : ctx.settings.resolution.aliasesActive with
  | false => exact ⟨_, rfl⟩
  | true =>
    obtain ⟨es, hes⟩ := h.aliases hactive
    obtain ⟨e, he⟩ := Resolve.exists_replaceAlias d es
    rw [if_pos rfl, hes, he]
    exact ⟨_, rfl⟩

theorem exists_isForeign (h : ctx.settings.Textual) (known : List String) (name : String) :
    ∃ b, isForeign ctx.settings.resolution known name = .ok b := by
  obtain ⟨resolve, hresolve⟩ := h.resolve name
  obtain ⟨keep, hkeep⟩ := h.keep name
  rw [isForeign, hresolve, hkeep]
  exact ⟨_, rfl⟩

theorem exists_resolveLine (h : ctx.settings.Textual) (i : Imports.LineImport) :
    ∃ ds, resolveLine ctx here i = .ok ds := by
  cases i with
  | siblings names => exact ⟨_, rfl⟩
  | uncles names => exact ⟨_, rfl⟩
  | single name isFrom =>
    obtain ⟨b, hb⟩ := h.exists_isForeign ctx.knownModules name
    rw [resolveLine, resolveSingle, hb]
    exact ⟨_, rfl⟩

end Settings.Textual

/-! ### Steps that end well -/

namespace Tallied

variable {α β : Type}

/-- Whatever has been counted before, the computation ends well, and counting can go on. -/
def Ends (x : Tallied α) : Prop :=
  ∀ st : Statistics, st.Countable → Reaches x st fun _ st' => st'.Countable

theorem ends_pure (a : α) : Ends (pure a) := fun st hst => ⟨a, st, rfl, hst⟩

theorem ends_lift {r : Except Fault α} (h : ∃ a, r = .ok a) : Ends (lift r) := by
  obtain ⟨a, rfl⟩ := h
  exact ends_pure a

theorem ends_tally (m : Mention α) : Ends (tally m) := by
  intro st hst
  obtain ⟨st', htally, hst'⟩ := hst.tally m.bare
  rw [tally_bare] at htally
  exact ⟨(), st', htally, hst'⟩

theorem Ends.bind {x : Tallied α} {f : α → Tallied β} (hx : Ends x) (hf : ∀ a, Ends (f a)) :
    Ends (x >>= f) :=
  fun st hst => (hx st hst).bind fun a st' hst' => hf a st' hst'

theorem ends_collect {step : α → Tallied (List β)} (hstep : ∀ a, Ends (step a))
    (ms : List (Mention α)) : Ends (collect step ms) := by
  induction ms with
  | nil => exact ends_pure []
  | cons m ms ih =>
    have hrest : ∀ here, Ends (do return here ++ (← collect step ms)) :=
      fun here => ih.bind fun _ => ends_pure _
    refine (ends_tally m).bind fun _ => ?_
    cases m with
    | hit a => exact (hstep a).bind hrest
    | miss => exact (ends_pure []).bind hrest

end Tallied

/-! ### Keywords with nothing after them -/

namespace Mention

variable {α : Type} {isKeyword : String → Bool} {ws : List String} {k : String}

theorem all_lone (phrase : String → String → Option α) (h : isKeyword k = true) :
    all isKeyword phrase [k] = .error .wrongKind := by
  have hseen : sightings isKeyword [k] = .error .wrongKind := by
    simp [sightings, Window.readAhead, h]
  rw [all, hseen]
  rfl

theorem exists_all (phrase : String → String → Option α) (h : ∀ k, isKeyword k = true → ws ≠ [k]) :
    ∃ ms, all isKeyword phrase ws = .ok ms := by
  obtain ⟨seen, hseen⟩ := exists_sightings fun w hw => Bool.eq_false_iff.mpr fun hk => h w hk hw
  rw [all, hseen]
  exact ⟨_, rfl⟩

end Mention

namespace Imports

open Tallied

variable {language : Language} {ctx : ScanContext} {here : Place} {words : List String} {k : String}

/-- The words at which the imports of a file are looked for. Where imports are read line by line
there are none. -/
def keywords : Language → List String
  | .java => ["import"]
  | .c | .cpp => ["#include"]
  | .objc => ["#import"]
  | .javascript => ["import", "require"]
  | .python => []

theorem ends_unlessIgnored (h : ctx.settings.Textual) (d : String) :
    Ends (unlessIgnored ctx d) := by
  rw [unlessIgnored_eq (h.exists_ignoresDependency d)]
  exact ends_pure _

theorem ends_keepUnignored (h : ctx.settings.Textual) (ds : List String) :
    Ends (keepUnignored ctx ds) := by
  induction ds with
  | nil => exact ends_pure []
  | cons d ds ih => exact (ends_unlessIgnored h d).bind fun _ => ih.bind fun _ => ends_pure _

/-- Outside of line by line reading, the imports of a file are what is collected at the keywords of
its code. -/
theorem exists_ofFile_eq_collect (hlanguage : language ≠ .python) (ctx : ScanContext) (here : Place)
    (words : List String) :
    ∃ (isKeyword : String → Bool) (phrase : String → String → Option String) (step : String →
      Tallied (List String)),
      (∀ k, isKeyword k = true ↔ k ∈ keywords language) ∧
      (ctx.settings.Textual → ∀ d, Ends (step d)) ∧
      ofFile language ctx here words =
        lift (Mention.all isKeyword phrase (codeWords language words)) >>= collect step := by
  cases language with
  | java => exact ⟨_, _, _, by simp [keywords], ends_unlessIgnored, rfl⟩
  | objc => exact ⟨_, _, _, by simp [keywords], fun h d => ends_unlessIgnored h _, rfl⟩
  | javascript =>
    exact ⟨_, _, _, by simp [keywords],
      fun h d => (ends_lift (h.exists_resolveScript d)).bind fun _ => ends_unlessIgnored h _, rfl⟩
  | c => exact ⟨_, _, _, by simp [keywords], fun h d => ends_unlessIgnored h _, rfl⟩
  | cpp => exact ⟨_, _, _, by simp [keywords], fun h d => ends_unlessIgnored h _, rfl⟩
  | python => exact absurd rfl hlanguage

theorem ofFile_lone (hk : k ∈ keywords language) (hcode : codeWords language words = [k]) :
    ofFile language ctx here words = throw .wrongKind := by
  have hlanguage : language ≠ .python := by
    rintro rfl
    cases hk
  obtain ⟨isKeyword, phrase, step, hkeyword, -, heq⟩ :=
    exists_ofFile_eq_collect hlanguage ctx here words
  rw [heq, hcode, Mention.all_lone phrase ((hkeyword k).mpr hk)]
  rfl

theorem ends_ofFile (hsettings : ctx.settings.Textual)
    (h : ∀ k ∈ keywords language, codeWords language words ≠ [k]) :
    Ends (ofFile language ctx here words) := by
  by_cases hlanguage : language = .python
  · subst hlanguage
    exact ends_collect (fun i => (ends_lift (hsettings.exists_resolveLine i)).bind
      (ends_keepUnignored hsettings)) _
  · obtain ⟨isKeyword, phrase, step, hkeyword, hstep, heq⟩ :=
      exists_ofFile_eq_collect hlanguage ctx here words
    rw [heq]
    refine (ends_lift (Mention.exists_all phrase fun k hk => h k ((hkeyword k).mp hk))).bind
      fun ms => ?_
    exact ends_collect (hstep hsettings) ms

end Imports

namespace Scanner

open Tallied

variable {language : Language} {ctx : ScanContext} {file : SourceFile} {source : String}
  {words : List String} {st : Statistics}

/-- A keyword is all that there is to be scanned: of the code where imports are looked for, or of
the whole file where its package is. -/
def LoneKeyword (language : Language) (words : List String) : Prop :=
  (∃ k ∈ keywords language, codeWords language words = [k]) ∨ language = .java ∧ words = ["package"]

theorem packageOf_lone : packageOf ["package"] = throw .wrongKind := by
  rw [packageOf, Mention.all_lone _ (by decide)]
  rfl

theorem ends_packageOf (h : words ≠ ["package"]) : Ends (packageOf words) := by
  have hmentions : ∃ ms, Mention.all (· == "package") (fun _ => Phrase.packageName?) words =
      .ok ms := by
    refine Mention.exists_all _ fun k hk => ?_
    rwa [beq_iff_eq.mp hk]
  refine (ends_lift hmentions).bind fun ms => ?_
  exact (ends_collect (fun name => ends_pure [name]) ms).bind fun _ => ends_pure _

def packageStep (language : Language) (words : List String) : Tallied String :=
  if language = .java then packageOf words else pure ""

theorem fileResult_eq (hsource : ctx.settings.source = .text source) :
    fileResult language ctx file = do
    let package ← packageStep language (language.fileSpacing.words file.content)
    let imports ← ofFile language ctx (filePlace language ctx source file)
      (language.fileSpacing.words file.content)
    return { blankResult language ctx source file with
      moduleName := package, imports := imports } := by
  have hpath : ctx.settings.sourcePath = .ok source := by rw [Settings.sourcePath, hsource]
  rw [fileResult, hpath, packageStep]
  by_cases hjava : language = .java
  · rw [if_pos hjava]
    exact congrArg _ (funext fun _ => if_pos hjava)
  · rw [if_neg hjava]
    exact congrArg _ (funext fun _ => if_neg hjava)

theorem ends_packageStep (h : ¬ (language = .java ∧ words = ["package"])) :
    Ends (packageStep language words) := by
  rw [packageStep]
  split
  · next hjava => exact ends_packageOf fun hwords => h ⟨hjava, hwords⟩
  · exact ends_pure ""

theorem ends_fileResult (hsettings : ctx.settings.Textual)
    (hsource : ctx.settings.source = .text source)
    (h : ¬ LoneKeyword language (language.fileSpacing.words file.content)) :
    Ends (fileResult language ctx file) := by
  obtain ⟨hcode, hpackage⟩ := not_or.mp h
  rw [fileResult_eq hsource]
  refine (ends_packageStep hpackage).bind fun package => ?_
  exact (ends_ofFile hsettings fun k hk heq => hcode ⟨k, hk, heq⟩).bind fun _ => ends_pure _

theorem fileResult_lone (hsource : ctx.settings.source = .text source) (hst : st.Countable)
    (h : LoneKeyword language (language.fileSpacing.words file.content)) :
    ∃ st', fileResult language ctx file st = .error .wrongKind st' := by
  rw [fileResult_eq hsource]
  by_cases hpackage : language = .java ∧ language.fileSpacing.words file.content = ["package"]
  · rw [packageStep, if_pos hpackage.1, hpackage.2, packageOf_lone]
    exact ⟨st, rfl⟩
  · -- the package has been looked for when the keyword is met
    obtain ⟨k, hk, hcode⟩ := h.resolve_right hpackage
    obtain ⟨package, st', hst', -⟩ := ends_packageStep hpackage st hst
    rw [bind_of_ok hst', ofFile_lone hk hcode]
    exact ⟨st', rfl⟩

theorem scanFile_eq_error_iff {t t' : ScanState} {e : Fault} : scanFile ctx file t = .error e t' ↔
    ∃ st, fileResult t.scanner.language ctx file t.statistics = .error e st ∧
      t' = { t with statistics := st } := by
  rw [scanFile, get_bind]
  cases hr : fileResult t.scanner.language ctx file t.statistics with
  | ok r st =>
    rw [bind_of_ok (tallied_eq_ok_iff.mpr ⟨st, hr, rfl⟩)]
    constructor
    · intro h
      cases h
    · rintro ⟨st', h, -⟩
      cases h
  | error e' st =>
    have htallied : ScanM.tallied (fileResult t.scanner.language ctx file) t =
        .error e' { t with statistics := st } := by
      rw [ScanM.tallied, hr]
    rw [bind_of_error htallied, EStateM.Result.error.injEq]
    constructor
    · rintro ⟨rfl, rfl⟩
      exact ⟨st, rfl, rfl⟩
    · rintro ⟨st', h, rfl⟩
      obtain ⟨rfl, rfl⟩ := EStateM.Result.error.inj h
      exact ⟨rfl, rfl⟩

/-- Scanning a file fails exactly if a keyword is all there is, and then no result is changed.
Otherwise the result of the file is filed under its name, in the place of one that has been there or
after all others, and no other is changed. -/
theorem scanFile_fails_iff (ctx : ScanContext) (file : SourceFile) (t : ScanState) (source : String)
    (hsource : ctx.settings.source = .text source) (hsettings : ctx.settings.Textual)
    (hcount : t.statistics.Countable) : ((∃ e t', scanFile ctx file t = .error e t') ↔
      LoneKeyword t.scanner.language (t.scanner.language.fileSpacing.words file.content)) ∧
    (∀ e t', scanFile ctx file t = .error e t' → e = .wrongKind ∧ t'.scanner = t.scanner) ∧
    ∀ r t', scanFile ctx file t = .ok r t' → r.uniqueName = Resolve.relativeName source file.path ∧
      t'.scanner.language = t.scanner.language ∧ t'.scanner.results.get? r.uniqueName = some r ∧
      (∀ key, key ≠ r.uniqueName → t'.scanner.results.get? key = t.scanner.results.get? key) ∧
      t'.scanner.results.keys = if r.uniqueName ∈ t.scanner.results.keys then t.scanner.results.keys
        else t.scanner.results.keys ++ [r.uniqueName] := by
  have hlone : LoneKeyword t.scanner.language (t.scanner.language.fileSpacing.words file.content) →
      ∃ t', scanFile ctx file t = .error .wrongKind t' := by
    intro h
    obtain ⟨st, hst⟩ := fileResult_lone hsource hcount h
    exact ⟨_, scanFile_eq_error_iff.mpr ⟨st, hst, rfl⟩⟩
  have hfails : ∀ e t', scanFile ctx file t = .error e t' →
      LoneKeyword t.scanner.language (t.scanner.language.fileSpacing.words file.content) := by
    intro e t' h
    by_contra hnot
    obtain ⟨st, hst, -⟩ := scanFile_eq_error_iff.mp h
    obtain ⟨r, st', hr, -⟩ := ends_fileResult hsettings hsource hnot t.statistics hcount
    cases hst.symm.trans hr
  refine ⟨⟨fun ⟨e, t', h⟩ => hfails e t' h, fun h => ⟨_, hlone h⟩⟩, fun e t' h => ?_,
    fun r t' h => ?_⟩
  · obtain ⟨t'', hwrong⟩ := hlone (hfails e t' h)
    obtain ⟨rfl, rfl⟩ := EStateM.Result.error.inj (h.symm.trans hwrong)
    obtain ⟨st, -, rfl⟩ := scanFile_eq_error_iff.mp h
    exact ⟨rfl, rfl⟩
  · obtain ⟨⟨package, imports, hr⟩, hscanner⟩ := of_scanFile hsource h
    refine ⟨by rw [hr]; rfl, by rw [hscanner], ?_, fun key hkey => ?_, ?_⟩
    · rw [hscanner, OrderedMap.get?_insert, if_pos rfl]
    · rw [hscanner, OrderedMap.get?_insert, if_neg (Ne.symm hkey)]
    · rw [hscanner, OrderedMap.keys_insert]

end Scanner

namespace Sample

def loneInclude : Scanner.SourceFile := ⟨"a.c", "/w/proj/a.c", "// x\n#include"⟩

theorem textual_ignoringContext : ignoringContext.settings.Textual where
  ignored := ⟨["java"], rfl⟩
  patterns := by simp [ignoringContext, classContext]
  aliases := fun h => by cases h
  resolve := fun _ => ⟨false, rfl⟩
  keep := fun _ => ⟨false, rfl⟩

theorem scanFile_fails_iff_loneInclude :
    (∃ e t', Scanner.scanFile ignoringContext loneInclude cScanner = .error e t') ∧
    (∀ e t', Scanner.scanFile ignoringContext loneInclude cScanner = .error e t' → e = .wrongKind ∧
      t'.scanner = cScanner.scanner) ∧
    ∀ r t', Scanner.scanFile ignoringContext includingFile cScanner = .ok r t' →
      t'.scanner.results.keys = ["proj/a.c"] := by
  have hcount : cScanner.statistics.Countable :=
    Statistics.countable_of_count? (h := 0) (m := 0) rfl rfl
  have hlone : Scanner.LoneKeyword .c (Language.c.fileSpacing.words loneInclude.content) :=
    .inl ⟨"#include", by decide, by decide +kernel⟩
  obtain ⟨hfails, hkept, -⟩ :=
    Scanner.scanFile_fails_iff ignoringContext loneInclude cScanner "/w/proj" rfl
      textual_ignoringContext hcount
  obtain ⟨-, -, hfiled⟩ :=
    Scanner.scanFile_fails_iff ignoringContext includingFile cScanner "/w/proj" rfl
      textual_ignoringContext hcount
  refine ⟨hfails.mpr hlone, hkept, fun r t' h => ?_⟩
  obtain ⟨hname, -, -, -, hkeys⟩ := hfiled r t' h
  rw [hkeys, hname]
  decide +kernel

end Sample

end CodeAtlas
