import CodeAtlas.Proofs.ScanFaults

/-!
# Imports that are ignored

Every import is held against the lists of what is ignored in the spelling in which it is recorded.
So a scan finds what it would find without these lists, less what they name
(`Scanner.scanFile_unignored`).
-/

namespace CodeAtlas

open Effect

/-! ### What passes -/

/-- Whether a name passes the lists of ignored dependencies: none of the parts stands in it,
whatever the case of letters, and none of the patterns matches at its start. -/
def Filters.Passes (f : Filters) (d : String) : Prop :=
  (∃ parts : List String, f.ignoredDependencies.membersIfAny = .ok (parts.map .text) ∧
    ∀ part ∈ parts, Chars.contains (Text.lower part.toList) (Text.lower d.toList) = false) ∧
  ∀ m ∈ f.ignoredDependencyPatterns, m.forBytes = false ∧ m.node.matchesStart d.toList = false

theorem Filters.of_occursIgnoringCase {s : List Char} {vs : List Value}
    (h : occursIgnoringCase s vs = .ok false) : ∃ parts : List String, vs = parts.map .text ∧
      ∀ part ∈ parts, Chars.contains (Text.lower part.toList) (Text.lower s) = false := by
  fun_induction occursIgnoringCase s vs with
  | case1 => exact ⟨[], rfl, by simp⟩
  | case2 => cases h
  | case3 part rest hpart ih =>
    obtain ⟨parts, rfl, hparts⟩ := ih h
    exact ⟨part :: parts, rfl, List.forall_mem_cons.mpr ⟨by simpa using hpart, hparts⟩⟩
  | case4 => cases h
  | case5 => cases h

theorem Matcher.of_anyM_accepts {ms : List Matcher} {s : String}
    (h : (ms.anyM fun m => m.accepts s) = .ok false) :
    ∀ m ∈ ms, m.forBytes = false ∧ m.node.matchesStart s.toList = false := by
  induction ms with
  | nil => simp
  | cons m ms ih =>
    rw [List.anyM] at h
    obtain ⟨b, hb, hrest⟩ := except_bind_eq_ok.mp h
    cases b with
    | true => cases hrest
    | false =>
      refine List.forall_mem_cons.mpr ⟨?_, ih hrest⟩
      rw [accepts] at hb
      split at hb
      · cases hb
      · next hbytes => exact ⟨by simpa using hbytes, Except.ok.inj hb⟩

theorem Filters.passes_of_ignoresDependency {f : Filters} {d : String}
    (h : f.ignoresDependency d = .ok false) : f.Passes d := by
  obtain ⟨vs, hvs, hoccurs⟩ := except_bind_eq_ok.mp h
  obtain ⟨b, hb, hmatches⟩ := except_bind_eq_ok.mp hoccurs
  cases b with
  | true => cases hmatches
  | false =>
    obtain ⟨parts, rfl, hparts⟩ := of_occursIgnoringCase hb
    exact ⟨⟨parts, hvs, hparts⟩, Matcher.of_anyM_accepts hmatches⟩

/-! ### Scans side by side -/

/-- Whenever the one ends well, so does the other, in the same state and with a value that is
related. -/
def Effect.Relates {ε σ α β : Type} (R : α → β → Prop) (x : EStateM ε σ α) (y : EStateM ε σ β) :
    Prop :=
  ∀ s a s', x s = .ok a s' → ∃ b, y s = .ok b s' ∧ R a b

namespace Effect.Relates

variable {ε σ α β γ δ : Type} {R : α → β → Prop} {Q : γ → δ → Prop} {x : EStateM ε σ α}
  {y : EStateM ε σ β} {f : α → EStateM ε σ γ}

theorem pure {a : α} {b : β} (h : R a b) :
    Relates (ε := ε) (σ := σ) R (Pure.pure a) (Pure.pure b) := by
  intro s a' s' ha
  obtain ⟨rfl, rfl⟩ := EStateM.Result.ok.inj ha
  exact ⟨b, rfl, h⟩

theorem bind {g : β → EStateM ε σ δ} (h : Relates R x y)
    (hfg : ∀ a b, R a b → Relates Q (f a) (g b)) : Relates Q (x >>= f) (y >>= g) := by
  intro s c s' hc
  obtain ⟨a, t, hx, hf⟩ := bind_eq_ok.mp hc
  obtain ⟨b, hy, hab⟩ := h s a t hx
  obtain ⟨d, hg, hcd⟩ := hfg a b hab t c s' hf
  exact ⟨d, (bind_of_ok hy).trans hg, hcd⟩

theorem bind_same {g : α → EStateM ε σ δ} (hfg : ∀ a, Relates Q (f a) (g a)) :
    Relates Q (x >>= f) (x >>= g) :=
  bind (R := Eq) (fun _ a _ h => ⟨a, h, rfl⟩) fun a _ h => h ▸ hfg a

end Effect.Relates

def ScanContext.unfiltered (ctx : ScanContext) : ScanContext :=
  { ctx with settings := { ctx.settings with filters :=
    { ctx.settings.filters with
      ignoredDependencies := .list [], ignoredDependencyPatterns := [] } } }

namespace Imports

variable {ctx : ScanContext}

/-- The first names are those of the second that are not ignored. -/
def Sifted (ctx : ScanContext) (ds all : List String) : Prop :=
  ds = all.filter (fun d => !isIgnored ctx d) ∧
    ∀ d ∈ ds, ctx.settings.filters.ignoresDependency d = .ok false

theorem Sifted.append {ds ds' all all' : List String} (h : Sifted ctx ds all)
    (h' : Sifted ctx ds' all') : Sifted ctx (ds ++ ds') (all ++ all') :=
  ⟨by rw [List.filter_append, ← h.1,
    ← h'.1], fun d hd => (List.mem_append.mp hd).elim (h.2 d) (h'.2 d)⟩

theorem sifted_nil : Sifted ctx [] [] := ⟨rfl, by simp⟩

theorem relates_unlessIgnored (d : String) :
    Relates (Sifted ctx) (unlessIgnored ctx d) (unlessIgnored ctx.unfiltered d) := by
  intro st ds st' hds
  obtain ⟨b, t, hb, -⟩ := bind_eq_ok.mp hds
  have hb := Scanner.of_lift hb
  have hignored : isIgnored ctx d = b := congrArg affirms hb
  rw [unlessIgnored_eq ⟨b, hb⟩, hignored] at hds
  obtain ⟨rfl, rfl⟩ := EStateM.Result.ok.inj hds
  refine ⟨[d], rfl, ?_⟩
  cases b <;> simp [Sifted, hignored, hb]

theorem relates_keepUnignored (ds : List String) :
    Relates (Sifted ctx) (keepUnignored ctx ds) (keepUnignored ctx.unfiltered ds) := by
  induction ds with
  | nil => exact .pure sifted_nil
  | cons d ds ih =>
    exact (relates_unlessIgnored d).bind fun _ _ h => ih.bind fun _ _ h' => .pure (h.append h')

theorem relates_collect {α : Type} {step step' : α → Tallied (List String)}
    (h : ∀ a, Relates (Sifted ctx) (step a) (step' a)) (ms : List (Mention α)) :
    Relates (Sifted ctx) (Tallied.collect step ms) (Tallied.collect step' ms) := by
  induction ms with
  | nil => exact .pure sifted_nil
  | cons m ms ih =>
    have hrest : ∀ ds all, Sifted ctx ds all →
      Relates (Sifted ctx) (do return ds ++ (← Tallied.collect step ms))
        (do return all ++ (← Tallied.collect step' ms)) :=
      fun _ _ hds => ih.bind fun _ _ hmore => .pure (hds.append hmore)
    cases m with
    | hit a => exact .bind_same fun _ => (h a).bind hrest
    | miss => exact .bind_same fun _ => hrest [] [] sifted_nil

/-- In every language what is imported is held against the lists in the end. -/
theorem relates_ofFile (language : Language) (ctx : ScanContext) (here : Place)
    (words : List String) :
    Relates (Sifted ctx) (ofFile language ctx here words)
      (ofFile language ctx.unfiltered here words) := by
  cases language with
  | java => exact .bind_same fun ms => relates_collect relates_unlessIgnored ms
  | objc => exact .bind_same fun ms => relates_collect (fun d => relates_unlessIgnored _) ms
  | javascript =>
    exact .bind_same fun ms => relates_collect
      (fun d => .bind_same fun e => relates_unlessIgnored e) ms
  | c => exact .bind_same fun ms => relates_collect (fun d => relates_unlessIgnored _) ms
  | cpp => exact .bind_same fun ms => relates_collect (fun d => relates_unlessIgnored _) ms
  | python => exact relates_collect (fun i => .bind_same fun ds => relates_keepUnignored ds) _

end Imports

namespace Scanner

variable {ctx : ScanContext} {file : SourceFile} {source : String} {t t' : ScanState}
  {r : ScanResult}

theorem relates_fileResult (hsource : ctx.settings.source = .text source) (language : Language)
    (file : SourceFile) :
    Relates (fun r all : ScanResult => r = { all with imports := r.imports } ∧
      Imports.Sifted ctx r.imports all.imports)
      (fileResult language ctx file) (fileResult language ctx.unfiltered file) := by
  have hplace : filePlace language ctx.unfiltered source file =
      filePlace language ctx source file := rfl
  have hblank : blankResult language ctx.unfiltered source file =
      blankResult language ctx source file := rfl
  rw [fileResult_eq hsource, fileResult_eq
    (show ctx.unfiltered.settings.source = .text source from hsource), hplace, hblank]
  exact .bind_same fun _ => Relates.bind (Imports.relates_ofFile language ctx _ _)
    fun _ _ h => .pure ⟨rfl, h⟩

/-- A scan of a file records no import that is ignored, and all others that it would record without
the lists of ignored dependencies. -/
theorem scanFile_unignored (h : scanFile ctx file t = .ok r t') :
    t'.scanner.results.get? r.uniqueName = some r ∧
    (∀ d ∈ r.imports, ctx.settings.filters.Passes d) ∧
    ∃ all t₀, scanFile ctx.unfiltered file t = .ok all t₀ ∧
      r = { all with imports := all.imports.filter fun d => !Imports.isIgnored ctx d } := by
  obtain ⟨source, hsource⟩ := exists_source_of_scanFile h
  obtain ⟨-, hscanner⟩ := of_scanFile hsource h
  rw [scanFile, get_bind] at h
  obtain ⟨r', t₁, htallied, hend⟩ := bind_eq_ok.mp h
  obtain ⟨rfl, -⟩ := EStateM.Result.ok.inj hend
  obtain ⟨st, hr, -⟩ := tallied_eq_ok_iff.mp htallied
  obtain ⟨all, hall, heq, hsifted, hpasses⟩ := relates_fileResult hsource _ file _ _ _ hr
  have hscan : scanFile ctx.unfiltered file t = (do
      ScanM.modifyResults fun rs => rs.insert all.uniqueName all
      return all : ScanM ScanResult) { t with statistics := st } := by
    rw [scanFile, get_bind, bind_of_ok (tallied_eq_ok_iff.mpr ⟨st, hall, rfl⟩)]
  refine ⟨?_, fun d hd => Filters.passes_of_ignoresDependency (hpasses d hd), all, _, hscan, ?_⟩
  · rw [hscanner, OrderedMap.get?_insert, if_pos rfl]
  · rw [← hsifted, ← heq]

end Scanner

namespace Sample

def twoImports : Scanner.SourceFile := ⟨"A.java", "/w/proj/A.java", "import a;import java;"⟩

theorem scanFile_unignored_twoImports :
    ∃ r t' all t₀, Scanner.scanFile ignoringContext twoImports javaScanner = .ok r t' ∧
    Scanner.scanFile ignoringContext.unfiltered twoImports javaScanner = .ok all t₀ ∧
    r.imports = ["a"] ∧
    (∀ d ∈ r.imports, ignoringContext.settings.filters.Passes d) ∧
    r.imports = all.imports.filter fun d => !Imports.isIgnored ignoringContext d := by
  have hends : (final? (Scanner.scanFile ignoringContext twoImports) javaScanner).map
      (fun t' => t'.scanner.results.values.map ScanResult.imports) = some [["a"]] := by
    decide +kernel
  obtain ⟨t', ht', hvalues⟩ := Option.map_eq_some_iff.mp hends
  obtain ⟨r, h⟩ := exists_of_final? ht'
  obtain ⟨hget, hpasses, all, t₀, hall, hr⟩ := Scanner.scanFile_unignored h
  have hmem : r.imports ∈ t'.scanner.results.values.map ScanResult.imports :=
    List.mem_map_of_mem (OrderedMap.mem_values_iff.mpr ⟨_, hget⟩)
  rw [hvalues] at hmem
  exact ⟨r, t', all, t₀, h, hall, List.mem_singleton.mp hmem, hpasses,
    congrArg ScanResult.imports hr⟩

end Sample

end CodeAtlas
