import CodeAtlas.Proofs.Entities
import CodeAtlas.Proofs.Ownership

/-!
# Analyses do not get each other's results

All analyses share the scanners, and each takes over whatever a scanner holds. While an analysis is
carried out, everything in the scanners was made for it (`Apart`), and before the next one starts
the scanners are emptied (`Settled`). So every analysis ends with results that were made for it
(`Run.analyzeAll_results`).
-/

namespace CodeAtlas

open Effect

/-! ### What scanners hold -/

namespace Scanner

variable {ctx : ScanContext} {t t' : ScanState} {id : Nat}

theorem madeFor_of_scanFile {file : SourceFile} {r : ScanResult}
    (h : scanFile ctx file t = .ok r t') (ht : t.scanner.results.MadeFor ctx.analysis) :
    t'.scanner.results.MadeFor ctx.analysis := by
  obtain ⟨⟨source, package, imports, rfl⟩, ht'⟩ := exists_of_scanFile h
  rw [ht']
  exact ht.insert rfl _

theorem madeFor_of_linkFiles (h : linkFiles ctx t = .ok () t') (ht : t.scanner.results.MadeFor id) :
    t'.scanner.results.MadeFor id := by
  rw [linkFiles, get_bind] at h
  split at h
  · obtain ⟨-, rfl⟩ := EStateM.Result.ok.inj h
    refine ht.mapValues fun key r => ?_
    split_ifs <;> rfl
  · obtain ⟨-, rfl⟩ := EStateM.Result.ok.inj h
    exact ht

theorem madeFor_of_scanEntities (h : scanEntities ctx t = .ok () t')
    (ht : t.scanner.results.MadeFor id) : t'.scanner.results.MadeFor id := by
  intro key e hget
  rcases (of_scanEntities h).2 key e hget with hget | ⟨file, hfile, name, part, inherits, -, rfl⟩
  · exact ht key e hget
  -- an entity is made for the analysis of its file
  · obtain ⟨key', hkey⟩ := OrderedMap.mem_values_iff.mp hfile
    exact ht key' file (OrderedMap.get?_filter_eq_some_iff.mp hkey).1

end Scanner

/-! ### While an analysis is carried out -/

/-- The numbers of the analyses and the languages of the scanners, which no analysis changes. -/
structure Cast where
  ids : List Nat
  languages : List Language

/-- All analyses have only results of their own, and the scanners only results for the analysis of a
number. -/
structure Apart (C : Cast) (id : Nat) (p : Program) : Prop where
  ids_eq : p.configuration.analyses.map Analysis.id = C.ids
  languages_eq : p.scanners.map Scanner.language = C.languages
  own : ∀ a ∈ p.configuration.analyses, a.results.MadeFor a.id
  scanners : ∀ s ∈ p.scanners, s.results.MadeFor id

namespace Apart

variable {C : Cast} {id i : Nat} {p : Program} {a : Analysis} {j : Job}

theorem id_eq (h : Apart C id p) (hid : C.ids[i]? = some id)
    (ha : p.configuration.analyses[i]? = some a) : a.id = id := by
  rw [← h.ids_eq, List.getElem?_map, ha] at hid
  exact Option.some.inj hid

theorem own_at (h : Apart C id p) (hid : C.ids[i]? = some id)
    (ha : p.configuration.analyses[i]? = some a) : a.Own id := by
  have heq := h.id_eq hid ha
  exact ⟨heq, heq ▸ h.own a (List.mem_of_getElem? ha)⟩

theorem keep (h : Apart C id p) (hid : C.ids[i]? = some id) (hj : j.analysis.Own id) :
    Apart C id (Run.keep p i j) where
  ids_eq := by
    obtain ⟨hlt, hget⟩ := List.getElem?_eq_some_iff.mp hid
    change (p.configuration.analyses.set i j.analysis).map Analysis.id = C.ids
    rw [List.map_set, h.ids_eq, hj.id_eq, ← hget, List.set_getElem_self]
  languages_eq := h.languages_eq
  own := by
    intro b hb
    rcases List.mem_or_eq_of_mem_set hb with hb | rfl
    · exact h.own b hb
    · exact hj.id_eq.symm ▸ hj.results
  scanners := h.scanners

theorem putScanner (h : Apart C id p) {s : Scanner} (hs : s.results.MadeFor id) :
    Apart C id (Run.putScanner p s) where
  ids_eq := h.ids_eq
  languages_eq := (Run.languages_putScanner s).trans h.languages_eq
  own := h.own
  scanners := by
    intro t ht
    rcases Run.mem_putScanner ht with rfl | ⟨ht, -⟩
    · exact hs
    · exact h.scanners t ht

end Apart

namespace Run

variable {C : Cast} {id i : Nat} {α : Type}

theorem ensures_onAnalysis (hid : C.ids[i]? = some id) {w : Work α} {Q : α → Prop}
    (hw : Ensures (fun j => j.analysis.Own id) Q w) : Ensures (Apart C id) Q (onAnalysis i w) := by
  intro p x p' hp hok
  cases ha : p.configuration.analyses[i]? with
  | none =>
    rw [onAnalysis, ha] at hok
    cases hok
  | some a =>
    obtain ⟨j, hj, rfl⟩ := (onAnalysis_eq_ok ha).mp hok
    obtain ⟨hown, hQ⟩ := hw _ _ _ (hp.own_at hid ha) hj
    exact ⟨hp.keep hid hown, hQ⟩

abbrev KeepsApart (C : Cast) (id : Nat) (x : Run α) : Prop := Keeps (Apart C id) x

theorem keepsApart_onAnalysis (hid : C.ids[i]? = some id) {w : Work α} (hw : Work.KeepsOwn id w) :
    KeepsApart C id (onAnalysis i w) :=
  (ensures_onAnalysis hid (Q := fun _ => True) fun j x j' hj hok =>
    ⟨hw j x j' hj hok, trivial⟩).keeps

theorem keepsApart_modifySession (f : Session → Session) : KeepsApart C id (modifySession f) :=
  .modify fun _ hp => ⟨hp.ids_eq, hp.languages_eq, hp.own, hp.scanners⟩

theorem keepsApart_log (source : LogSource) (kind : LogKind) (message : String) :
    KeepsApart C id (log source kind message) :=
  keepsApart_modifySession _

theorem keepsApart_session : KeepsApart C id session := .bind .get fun _ => .pure _

theorem keepsApart_lift (x : Except Fault α) : KeepsApart C id (lift x) := by
  cases x with
  | ok v => exact .pure v
  | error e => exact .throw e

/-! ### Scanners at work -/

theorem ensures_context (hid : C.ids[i]? = some id) :
    Ensures (Apart C id) (fun ctx => ctx.analysis = id) (onAnalysis i Work.context) := by
  refine ensures_onAnalysis hid fun j ctx j' hj hok => ?_
  obtain ⟨rfl, rfl⟩ := EStateM.Result.ok.inj hok
  exact ⟨hj, hj.id_eq⟩

theorem ensures_scanner? (language : Language) :
    Ensures (Apart C id) (fun s? => ∀ s, s? = some s → s.results.MadeFor id)
      (scanner? language) := by
  intro p s? p' hp hok
  obtain ⟨rfl, rfl⟩ := EStateM.Result.ok.inj ((scanner?_eq language).symm.trans hok)
  exact ⟨hp, fun s hs => hp.scanners s (List.mem_of_find?_eq_some hs)⟩

/-- A scanner that is sent to work comes back with results for the same analysis. -/
theorem keepsApart_scan (hid : C.ids[i]? = some id) {scanner : Scanner} {x : ScanM α}
    (hx : ∀ st v t, x ⟨scanner, st⟩ = .ok v t → t.scanner.results.MadeFor id) :
    KeepsApart C id (scan i scanner x) := by
  intro p v p' hp hok
  cases ha : p.configuration.analyses[i]? with
  | none =>
    obtain ⟨y, p₁, hy, -⟩ := bind_eq_ok.mp hok
    rw [onAnalysis, ha] at hy
    cases hy
  | some a =>
    obtain ⟨t, ht, rfl⟩ := of_scan ha hok
    exact (hp.keep hid ((hp.own_at hid ha).congr rfl rfl)).putScanner (hx _ _ _ ht)

theorem keepsApart_addResults (hid : C.ids[i]? = some id) {rs : Results} (hrs : rs.MadeFor id) :
    KeepsApart C id (onAnalysis i (Work.modifyAnalysis fun a => a.addResults rs)) :=
  keepsApart_onAnalysis hid (Work.keepsOwn_modifyAnalysis
    fun _ ha => ⟨ha.id_eq, ha.results.update hrs⟩)

theorem keepsApart_takeImports (hid : C.ids[i]? = some id) (rs : Results) :
    KeepsApart C id (onAnalysis i (Work.takeImports rs)) := by
  refine keepsApart_onAnalysis hid (Work.keepsOwn_modifyAnalysis fun a ha => ⟨ha.id_eq, ?_⟩)
  refine ha.results.mapValues fun key r => ?_
  split <;> rfl

theorem ensures_scannerFor (hid : C.ids[i]? = some id) (node : FileNode) :
    Ensures (Apart C id) (fun s? => ∀ s, s? = some s → s.results.MadeFor id)
      (scannerFor i node) := by
  intro p s? p' hp hok
  obtain ⟨s, p₁, hs, hok⟩ := bind_eq_ok.mp hok
  obtain ⟨language?, p₂, hlanguage, hok⟩ := bind_eq_ok.mp hok
  have hp₁ := keepsApart_onAnalysis hid Work.keepsOwn_settings _ _ _ hp hs
  have hp₂ := keepsApart_lift _ _ _ _ hp₁ hlanguage
  cases language? with
  | none =>
    obtain ⟨rfl, rfl⟩ := EStateM.Result.ok.inj hok
    exact ⟨hp₂, by simp⟩
  | some language => exact ensures_scanner? language p₂ s? p' hp₂ hok

theorem keepsApart_scanNode (hid : C.ids[i]? = some id) (node : FileNode) :
    KeepsApart C id (scanNode i node) := by
  refine .ite_rest (fun _ => .pure _) (.bind_of (ensures_scannerFor hid node) fun s? hs? => ?_)
  split
  · exact .pure _
  · next scanner =>
    have hscanner := hs? scanner rfl
    split
    · exact .throw _
    · refine .bind_of (ensures_context hid) fun ctx hctx =>
        .bind (keepsApart_scan hid fun st r t ht => ?_) fun _ => ?_
      · obtain rfl := hctx
        exact Scanner.madeFor_of_scanFile ht hscanner
      · refine .bind_of (ensures_scanner? _) fun s? hs? => ?_
        split
        · next s => exact keepsApart_addResults hid (hs? s rfl)
        · exact .pure _

theorem keepsApart_eachBusy {f : Scanner → Run Unit}
    (hf : ∀ s, s.results.MadeFor id → KeepsApart C id (f s)) : KeepsApart C id (eachBusy f) := by
  refine .bind (.bind .get fun _ => .pure _) fun languages => .forM fun language _ => ?_
  refine .bind_of (ensures_scanner? language) fun s? hs? => ?_
  split
  · next s => exact hf s (hs? s rfl)
  · exact .pure _

theorem keepsApart_linkWith (hid : C.ids[i]? = some id) (s : Scanner) (hs : s.results.MadeFor id) :
    KeepsApart C id (linkWith i s) := by
  refine .bind_of (ensures_context hid) fun ctx _ => ?_
  refine .bind (keepsApart_scan hid fun st r t ht => Scanner.madeFor_of_linkFiles ht hs) fun _ => ?_
  refine .bind_of (ensures_scanner? _) fun s? hs? => ?_
  split
  · exact keepsApart_takeImports hid _
  · exact .pure _

theorem keepsApart_scanEntitiesWith (hid : C.ids[i]? = some id) (s : Scanner)
    (hs : s.results.MadeFor id) : KeepsApart C id (scanEntitiesWith i s) := by
  refine .bind_of (ensures_context hid) fun ctx _ => ?_
  refine .bind (keepsApart_scan hid fun st r t ht => Scanner.madeFor_of_scanEntities ht hs)
    fun _ => ?_
  refine .bind_of (ensures_scanner? _) fun s? hs? => ?_
  split
  · next s => exact keepsApart_addResults hid (hs? s rfl)
  · exact .pure _

theorem keepsApart_scanFiles (hid : C.ids[i]? = some id) : KeepsApart C id (scanFiles i) := by
  refine .bind (keepsApart_onAnalysis hid Work.keepsOwn_analysis)
    fun a => .bind (keepsApart_log _ _ _) fun _ => ?_
  refine .bind keepsApart_session fun _ => ?_
  dsimp only
  split
  · exact .throw_bind _ _
  · refine .bind (.forM fun node _ => keepsApart_scanNode hid node) fun _ => ?_
    refine .bind (keepsApart_eachBusy (keepsApart_linkWith hid)) fun _ => .bind keepsApart_session
      fun _ => ?_
    exact keepsApart_onAnalysis hid
      (.bind Work.keepsOwn_analysis fun _ => Work.keepsOwn_modifyStatistics _)

theorem keepsApart_scanEntities (hid : C.ids[i]? = some id) : KeepsApart C id (scanEntities i) := by
  refine .bind (keepsApart_onAnalysis hid Work.keepsOwn_settings)
    fun _ => .bind (keepsApart_log _ _ _) fun _ => ?_
  refine .bind (keepsApart_eachBusy (keepsApart_scanEntitiesWith hid)) fun _ => ?_
  exact keepsApart_onAnalysis hid
    (.bind Work.keepsOwn_analysis fun _ => Work.keepsOwn_modifyStatistics _)

theorem keepsApart_scanAll (hid : C.ids[i]? = some id) : KeepsApart C id (scanAll i) := by
  refine .bind (keepsApart_onAnalysis hid Work.keepsOwn_settings) fun _ => ?_
  refine .bind (keepsApart_lift _) fun files => .bind (keepsApart_lift _) fun entities => ?_
  refine .ite_rest (.bind (keepsApart_scanFiles hid) fun _ => ·) ?_
  split
  · exact keepsApart_scanEntities hid
  · exact .pure _

/-! ### One analysis after the other -/

theorem keepsApart_analyze (hid : C.ids[i]? = some id) : KeepsApart C id (analyze i) := by
  refine .bind keepsApart_session
    fun _ => .bind (keepsApart_onAnalysis hid Work.keepsOwn_checkSource) fun _ => ?_
  refine .bind (keepsApart_onAnalysis hid Work.keepsOwn_buildFileSystem)
    fun _ => .bind (keepsApart_log _ _ _) fun _ => ?_
  refine .bind (keepsApart_scanAll hid) fun _ => .bind (keepsApart_log _ _ _) fun _ => ?_
  refine .bind (keepsApart_onAnalysis hid Work.keepsOwn_calculateAll)
    fun _ => .bind (.modify fun p hp => ?_) fun _ => ?_
  · exact ⟨hp.ids_eq, hp.languages_eq, hp.own, hp.scanners⟩
  · exact keepsApart_onAnalysis hid (Work.keepsOwn_finish _)

end Run

/-- Between two analyses: all have only results of their own, and the scanners have none. -/
structure Settled (C : Cast) (p : Program) : Prop where
  ids_eq : p.configuration.analyses.map Analysis.id = C.ids
  languages_eq : p.scanners.map Scanner.language = C.languages
  own : ∀ a ∈ p.configuration.analyses, a.results.MadeFor a.id
  scanners : ∀ s ∈ p.scanners, s.results = ∅

namespace Settled

variable {C : Cast} {p : Program}

theorem apart (h : Settled C p) (id : Nat) : Apart C id p :=
  ⟨h.ids_eq, h.languages_eq, h.own, fun s hs => h.scanners s hs ▸ Results.madeFor_empty id⟩

/-- Results that were made for different analyses are different. -/
theorem pairwise_disjoint (h : Settled C p) (hids : C.ids.Nodup) :
    p.configuration.analyses.Pairwise fun a b => a.results.values.Disjoint b.results.values := by
  rw [← h.ids_eq, List.Nodup, List.pairwise_map] at hids
  refine hids.imp_of_mem fun {a b} ha hb hne r hra hrb => hne ?_
  obtain ⟨_, hra⟩ := OrderedMap.mem_values_iff.mp hra
  obtain ⟨_, hrb⟩ := OrderedMap.mem_values_iff.mp hrb
  exact (h.own a ha _ r hra).symm.trans (h.own b hb _ r hrb)

end Settled

namespace Run

variable {C : Cast}

theorem keepsSettled_analyzeTimed {i : Nat} (hi : i < C.ids.length) (total : Nat) :
    Keeps (Settled C) (analyzeTimed total i) := by
  intro p _ p' hp hok
  have hid : C.ids[i]? = some C.ids[i] := List.getElem?_eq_getElem hi
  obtain ⟨s, p₁, hs, hok⟩ := bind_eq_ok.mp hok
  have h₁ := keepsApart_onAnalysis hid Work.keepsOwn_settings _ _ _ (hp.apart _) hs
  obtain ⟨_, p₂, hlog, hok⟩ := bind_eq_ok.mp hok
  have h₂ := keepsApart_log _ _ _ _ _ _ h₁ hlog
  obtain ⟨_, p₃, hstart, hok⟩ := bind_eq_ok.mp hok
  have h₃ := keepsApart_onAnalysis hid Work.keepsOwn_startTimer _ _ _ h₂ hstart
  obtain ⟨_, p₄, hanalyze, hok⟩ := bind_eq_ok.mp hok
  have h₄ := keepsApart_analyze hid _ _ _ h₃ hanalyze
  obtain ⟨_, p₅, hstop, hclear⟩ := bind_eq_ok.mp hok
  have h₅ := keepsApart_onAnalysis hid Work.keepsOwn_stopTimer _ _ _ h₄ hstop
  obtain ⟨-, rfl⟩ := EStateM.Result.ok.inj hclear
  refine ⟨h₅.ids_eq, ?_, h₅.own, ?_⟩
  · rw [← h₅.languages_eq, List.map_map]
    rfl
  · intro t ht
    obtain ⟨u, -, rfl⟩ := List.mem_map.mp ht
    rfl

theorem settled_of_analyzeAll {p p' : Program} (h : Settled C p) (hok : analyzeAll p = .ok () p') :
    Settled C p' := by
  obtain ⟨c, p₁, hc, hok⟩ := bind_eq_ok.mp hok
  obtain ⟨rfl, rfl⟩ := EStateM.Result.ok.inj hc
  obtain ⟨_, p₂, hlog, hok⟩ := bind_eq_ok.mp hok
  obtain ⟨-, rfl⟩ := EStateM.Result.ok.inj hlog
  obtain ⟨names, p₃, hnames, hok⟩ := bind_eq_ok.mp hok
  obtain ⟨-, rfl⟩ := of_lift hnames
  obtain ⟨_, p₄, hlog, hok⟩ := bind_eq_ok.mp hok
  obtain ⟨-, rfl⟩ := EStateM.Result.ok.inj hlog
  have hlength : C.ids.length = p.configuration.analyses.length := by
    rw [← h.ids_eq, List.length_map]
  refine Keeps.forM (fun i hi => keepsSettled_analyzeTimed ?_ _) _ _ _ ?_ hok
  · rw [hlength]
    exact List.mem_range.mp hi
  · exact ⟨h.ids_eq, h.languages_eq, h.own, h.scanners⟩

/-- However many analyses share the scanners, each ends with results that were made for it, no two
have a result in common, and the scanners, which stay the same ones, end without any. -/
theorem analyzeAll_results (p p' : Program)
    (hids : (p.configuration.analyses.map Analysis.id).Nodup)
    (hresults : ∀ a ∈ p.configuration.analyses, a.results = ∅)
    (hscanners : ∀ s ∈ p.scanners, s.results = ∅) (hok : analyzeAll p = .ok () p') :
    p'.configuration.analyses.map Analysis.id = p.configuration.analyses.map Analysis.id ∧
    (∀ a ∈ p'.configuration.analyses, ∀ r ∈ a.results.values, r.analysis = a.id) ∧
    (p'.configuration.analyses.Pairwise fun a b => a.results.values.Disjoint b.results.values) ∧
    p'.scanners.map Scanner.language = p.scanners.map Scanner.language ∧
    ∀ s ∈ p'.scanners, s.results = ∅ := by
  let C : Cast := ⟨p.configuration.analyses.map Analysis.id, p.scanners.map Scanner.language⟩
  have hp : Settled C p :=
    ⟨rfl, rfl, fun a ha => hresults a ha ▸ Results.madeFor_empty a.id, hscanners⟩
  have hp' := settled_of_analyzeAll hp hok
  refine ⟨hp'.ids_eq, fun a ha r hr => ?_, hp'.pairwise_disjoint hids, hp'.languages_eq,
    hp'.scanners⟩
  obtain ⟨key, hget⟩ := OrderedMap.mem_values_iff.mp hr
  exact hp'.own a ha key r hget

end Run

/-! ### Two analyses of one project -/

namespace Sample

def twins : Program where
  session :=
    { disk :=
        { tree := .dir [("w", .dir [("p", .dir [("A.java", .file "class A { x }".toUTF8)])])]
          cwd := [] }
      home := "/", now := 0 }
  configuration.analyses := ["file_scan", "entity_scan"].mapIdx fun i scan =>
    { id := i
      settings :=
        { scans := .ofStrings [scan], name := .text scan, source := .text "/w/p"
          exports := { directory := .text "/w" }
          filters := { languages := .ofStrings ["java"], extensions := .ofStrings [".java"] } } }

def analyzed? (p : Program) : Option Program :=
  match Run.analyzeAll p with
  | .ok _ p' => some p'
  | .error _ _ => none

theorem of_analyzed? {p p' : Program} (h : analyzed? p = some p') :
    Run.analyzeAll p = .ok () p' := by
  rw [analyzed?] at h
  split at h
  · next hok =>
    rw [← Option.some.inj h]
    exact hok
  · cases h

theorem keys_analyzed :
    ((analyzed? twins).map fun p' => p'.configuration.analyses.map fun a => a.results.keys) =
    some [["p/A.java"], ["p/A.java", "A"]] := by
  decide +kernel

theorem analyzeAll_results_twins : ∃ p', Run.analyzeAll twins = .ok () p' ∧
    (p'.configuration.analyses.map fun a => a.results.keys) = [["p/A.java"], ["p/A.java", "A"]] ∧
    (∀ a ∈ p'.configuration.analyses, ∀ r ∈ a.results.values, r.analysis = a.id) ∧
    (p'.configuration.analyses.Pairwise fun a b => a.results.values.Disjoint b.results.values) ∧
    ∀ s ∈ p'.scanners, s.results = ∅ := by
  obtain ⟨p', hp', hkeys⟩ := Option.map_eq_some_iff.mp keys_analyzed
  have hok := of_analyzed? hp'
  have hresults : ∀ a ∈ twins.configuration.analyses, a.results = ∅ := by
    intro a ha
    obtain ⟨i, hi, rfl⟩ := List.mem_mapIdx.mp ha
    rfl
  have hscanners : ∀ s ∈ twins.scanners, s.results = ∅ := by
    intro s hs
    obtain ⟨language, -, rfl⟩ := List.mem_map.mp hs
    rfl
  obtain ⟨-, hown, hapart, -, hempty⟩ :=
    Run.analyzeAll_results twins p' (by decide) hresults hscanners hok
  exact ⟨p', hok, hkeys, hown, hapart, hempty⟩

end Sample

end CodeAtlas
