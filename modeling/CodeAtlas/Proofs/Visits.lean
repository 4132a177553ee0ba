import CodeAtlas.Proofs.Desk
import CodeAtlas.Proofs.Tallies

/-!
# Files that are visited

Each file for which there is a scanner is visited: its scanner counts some mentions and files a
result. Neither depends on the files that were visited before (`Desk.Visits`), so going through
files counts all their mentions and files all their results, in their order
(`Desk.forM_scanNode_eq_ok_iff`).
-/

namespace CodeAtlas

open Effect

/-- What comes of a file that is scanned. -/
structure Visit where
  language : Language
  mentions : List (Mention Unit)
  result : ScanResult

namespace Visit

def entry (v : Visit) : String × ScanResult := (v.result.uniqueName, v.result)

def file (v : Visit) (s : Scanner) : Scanner :=
  if s.language = v.language then
    { s with results := s.results.insert v.result.uniqueName v.result } else s

theorem language_file (v : Visit) (s : Scanner) : (v.file s).language = s.language := by
  rw [file]
  split_ifs
  · rfl
  · rfl

end Visit

namespace Scanner

variable {ctx : ScanContext} {file : SourceFile} {t t' : ScanState} {r : ScanResult}
  {ms : List (Mention Unit)}

theorem scanFile_eq_ok_iff {x : Except Fault ScanResult}
    (hscript : fileResult t.scanner.language ctx file = Tallied.script ms x) :
    scanFile ctx file t = .ok r t' ↔
      x = .ok r ∧ ∃ st, ms.forM Tallied.tally t.statistics = .ok () st ∧
        t' = ⟨{ t.scanner with results := t.scanner.results.insert r.uniqueName r }, st⟩ := by
  rw [scanFile, get_bind, hscript, bind_eq_ok]
  constructor
  · rintro ⟨r', t₁, htallied, hrest⟩
    obtain ⟨st, hok, rfl⟩ := tallied_eq_ok_iff.mp htallied
    obtain ⟨rfl, rfl⟩ := EStateM.Result.ok.inj hrest
    obtain ⟨hx, hcount⟩ := Tallied.script_eq_ok_iff.mp hok
    exact ⟨hx, st, hcount, rfl⟩
  · rintro ⟨hx, st, hcount, rfl⟩
    exact ⟨r, _, tallied_eq_ok_iff.mpr ⟨st, Tallied.script_eq_ok_iff.mpr ⟨hx, hcount⟩, rfl⟩, rfl⟩

end Scanner

theorem Settings.sourcePath_eq_ok_iff {s : Settings} {path : String} :
    s.sourcePath = .ok path ↔ s.source = .text path := by
  rw [sourcePath]
  split
  · next source heq => simp [heq]
  · next hne => exact ⟨fun h => (by cases h), fun h => absurd h (hne path)⟩

theorem Statistics.countable_empty : Statistics.empty.Countable := fun _ => ⟨_, rfl⟩

namespace Desk

variable {d d' : Desk} {ctx : ScanContext} {n : FileNode} {v : Visit}

/-! ### Scanners on the desk -/

def languages (d : Desk) : List Language := d.scanners.map Scanner.language

theorem lift_eq_ok {α : Type} {x : Except Fault α} {a : α} :
    lift x d = .ok a d' ↔ x = .ok a ∧ d' = d :=
  lifted_eq_ok (fun _ => rfl) fun _ => rfl

theorem scanner?_eq (language : Language) :
    scanner? language d = .ok (d.scanners.find? fun s => s.language = language) d := rfl

variable {language : Language}

theorem find?_eq_none_iff :
    (d.scanners.find? fun s => s.language = language) = none ↔ language ∉ d.languages := by
  simp [languages, List.find?_eq_none]

theorem exists_find? (h : language ∈ d.languages) :
    ∃ s ∈ d.scanners, s.language = language ∧
      (d.scanners.find? fun s => s.language = language) = some s := by
  cases hfind : d.scanners.find? fun s => s.language = language with
  | none => exact absurd h (find?_eq_none_iff.mp hfind)
  | some s => exact ⟨s, List.mem_of_find?_eq_some hfind, by simpa using List.find?_some hfind, rfl⟩

theorem languages_put (t : ScanState) : (d.put t).languages = d.languages := by
  rw [languages, put, List.map_map]
  refine List.map_congr_left fun s _ => ?_
  simp only [Function.comp_apply]
  split_ifs with h
  · exact h.symm
  · rfl

theorem eq_of_language {s s' : Scanner} (hnd : d.languages.Nodup) (hs : s ∈ d.scanners)
    (hs' : s' ∈ d.scanners) (h : s.language = s'.language) : s = s' :=
  List.inj_on_of_nodup_map hnd hs hs' h

theorem find?_put {t : ScanState} (h : t.scanner.language ∈ d.languages) :
    ((d.put t).scanners.find? fun s => s.language = t.scanner.language) = some t.scanner := by
  obtain ⟨s, hs, hlanguage, hfind⟩ := exists_find? (languages_put t ▸ h)
  obtain ⟨s', -, rfl⟩ := List.mem_map.mp hs
  rw [hfind]
  split_ifs at hlanguage ⊢ with heq
  · rfl
  · exact absurd hlanguage heq

variable {s : Scanner} {nodes : List FileNode}

theorem put_self (hnd : d.languages.Nodup) (hs : s ∈ d.scanners) : d.put ⟨s, d.statistics⟩ = d := by
  have hmap : d.scanners.map (fun t => if t.language = s.language then s else t) = d.scanners := by
    refine (List.map_congr_left fun t ht => ?_).trans (List.map_id _)
    split_ifs with h
    · exact (eq_of_language hnd ht hs h).symm
    · rfl
  rw [put, hmap]

theorem useResults_eq {f : Results → EStateM Fault Desk Unit}
    (h : (d.scanners.find? fun s => s.language = language) = some s) :
    useResults language f d = f s.results d := by
  rw [useResults, bind_of_ok (scanner?_eq language), h]

theorem scan_eq_ok_iff {α : Type} {x : ScanM α} {a : α} :
    scan s x d = .ok a d' ↔ ∃ t, x ⟨s, d.statistics⟩ = .ok a t ∧ d' = d.put t := by
  rw [scan]
  cases x ⟨s, d.statistics⟩ with
  | ok b t => simp [mapState, eq_comm]
  | error e t => simp [mapState]

/-! ### A file -/

/-- What comes of a node: nothing, unless it is a file for which there is a scanner. -/
inductive Visits (ctx : ScanContext) (languages : List Language) (n : FileNode) :
    Option Visit → Prop
  | directory (hdir : n.isDirectory = true) : Visits ctx languages n none
  | unknown (hfile : n.isDirectory = false)
      (hchoice : Language.ofExtension? (Path.suffix n.name) ctx.settings.filters.languages =
        .ok none) :
      Visits ctx languages n none
  | absent {l : Language} (hfile : n.isDirectory = false)
      (hchoice : Language.ofExtension? (Path.suffix n.name) ctx.settings.filters.languages =
        .ok (some l))
      (hl : l ∉ languages) : Visits ctx languages n none
  | read {l : Language} {content : String} {ms : List (Mention Unit)} {r : ScanResult}
    (hfile : n.isDirectory = false)
      (hchoice : Language.ofExtension? (Path.suffix n.name) ctx.settings.filters.languages =
        .ok (some l))
      (hl : l ∈ languages) (hcontent : n.content = some content)
      (hscript : Scanner.fileResult l ctx ⟨Path.name n.name, n.name, content⟩ =
        Tallied.script ms (.ok r)) :
      Visits ctx languages n (some ⟨l, ms, r⟩)

/-- What is known of a visit: the file, the language, and the result up to the package and the
imports. -/
theorem Visits.exists_eq {ls : List Language} (h : Visits ctx ls n (some v)) :
    n.isDirectory = false ∧ v.language ∈ ls ∧
    Language.ofExtension? (Path.suffix n.name) ctx.settings.filters.languages =
      .ok (some v.language) ∧
    ∃ source content package imports, ctx.settings.source = .text source ∧
      n.content = some content ∧
      v.result = { Scanner.blankResult v.language ctx source
        ⟨Path.name n.name, n.name, content⟩ with
        moduleName := package, imports := imports } := by
  cases h with
  | @read l content ms r hfile hchoice hl hcontent hscript =>
    obtain ⟨st, hst, -⟩ := Statistics.countable_empty.script ms r
    rw [← hscript] at hst
    obtain ⟨source, st', hlift, -⟩ := bind_eq_ok.mp hst
    have hsource := Settings.sourcePath_eq_ok_iff.mp (Tallied.lift_eq_ok.mp hlift).1
    obtain ⟨package, imports, hr⟩ := Scanner.of_fileResult hsource hst
    exact ⟨hfile, hl, hchoice, source, content, package, imports, hsource, hcontent, hr⟩

def withStatistics (d : Desk) (st : Statistics) : Desk := { d with statistics := st }

def take (d : Desk) (v : Visit) : Desk :=
  { d with
    scanners := d.scanners.map v.file
    results :=
      match d.scanners.find? fun s => s.language = v.language with
      | some s => d.results.update (v.file s).results
      | none => d.results }

theorem languages_take (v : Visit) : (d.take v).languages = d.languages := by
  rw [languages, take, List.map_map]
  exact List.map_congr_left fun s _ => v.language_file s

theorem languages_foldl_take (vs : List Visit) : (vs.foldl take d).languages = d.languages := by
  induction vs generalizing d with
  | nil => rfl
  | cons v vs ih => exact ih.trans (languages_take v)

theorem scanNode_read {content : String} (hfile : n.isDirectory = false)
    (hchoice : Language.ofExtension? (Path.suffix n.name) ctx.settings.filters.languages =
      .ok (some s.language))
    (hfind : (d.scanners.find? fun t => t.language = s.language) = some s)
    (hcontent : n.content = some content) : scanNode ctx n d = (do
      let _ ← scan s (Scanner.scanFile ctx ⟨Path.name n.name, n.name, content⟩)
      useResults s.language addResults) d := by
  have hchosen : scannerFor ctx n d = .ok (some s) d := by
    rw [scannerFor, hchoice, bind_of_ok (lift_eq_ok.mpr ⟨rfl, rfl⟩), ← hfind]
    rfl
  rw [scanNode, if_neg (by simp [hfile]), bind_of_ok hchosen, hcontent]

theorem scanNode_of_visits_none (h : Visits ctx d.languages n none) :
    scanNode ctx n d = .ok () d := by
  cases h with
  | directory hdir => rw [scanNode, if_pos hdir]; rfl
  | unknown hfile hchoice =>
    have hchosen : scannerFor ctx n d = .ok none d := by
      rw [scannerFor, hchoice, bind_of_ok (lift_eq_ok.mpr ⟨rfl, rfl⟩)]
      rfl
    rw [scanNode, if_neg (by simp [hfile]), bind_of_ok hchosen]
    rfl
  | absent hfile hchoice hl =>
    have hchosen : scannerFor ctx n d = .ok none d := by
      rw [scannerFor, hchoice, bind_of_ok (lift_eq_ok.mpr ⟨rfl, rfl⟩), ← find?_eq_none_iff.mpr hl]
      rfl
    rw [scanNode, if_neg (by simp [hfile]), bind_of_ok hchosen]
    rfl

theorem put_eq_take (hnd : d.languages.Nodup) (hs : s ∈ d.scanners)
    (hlanguage : s.language = v.language) (st : Statistics) :
    { d.put ⟨v.file s, st⟩ with results := d.results.update (v.file s).results } =
      (d.take v).withStatistics st := by
  have hmap : d.scanners.map (fun t => if t.language = (v.file s).language then v.file s else t) =
      d.scanners.map v.file := by
    refine List.map_congr_left fun t ht => ?_
    rw [v.language_file]
    split_ifs with heq
    · rw [eq_of_language hnd ht hs heq]
    · rw [Visit.file, if_neg (hlanguage ▸ heq)]
  have hfind : (d.scanners.find? fun t => t.language = v.language) = some s := by
    obtain ⟨s', hs', hlanguage', hfind⟩ :=
      exists_find? (hlanguage ▸ List.mem_map_of_mem hs : v.language ∈ d.languages)
    rw [hfind, eq_of_language hnd hs' hs (hlanguage'.trans hlanguage.symm)]
  simp only [put, take, withStatistics, hmap, hfind]

theorem scanNode_of_visits_some (hnd : d.languages.Nodup) (h : Visits ctx d.languages n (some v)) :
    scanNode ctx n d = .ok () d' ↔
      ∃ st, v.mentions.forM Tallied.tally d.statistics = .ok () st ∧
        d' = (d.take v).withStatistics st := by
  obtain ⟨l, ms, r⟩ := v
  cases h with
  | read hfile hchoice hl hcontent hscript =>
    obtain ⟨s, hs, rfl, hfind⟩ := exists_find? hl
    let v : Visit := ⟨s.language, ms, r⟩
    have hfiled : { s with results := s.results.insert r.uniqueName r } = v.file s :=
      (if_pos rfl).symm
    have hend : ∀ st, useResults s.language addResults (d.put ⟨v.file s, st⟩) =
        .ok () ((d.take v).withStatistics st) := by
      intro st
      rw [← v.language_file s, useResults_eq
        (find?_put (t := ⟨v.file s, st⟩) ((v.language_file s).symm ▸ hl)),
        ← put_eq_take (v := v) hnd hs rfl]
      rfl
    rw [scanNode_read hfile hchoice hfind hcontent, bind_eq_ok]
    constructor
    · rintro ⟨r', d₁, hscan, hrest⟩
      obtain ⟨t, hread, rfl⟩ := scan_eq_ok_iff.mp hscan
      obtain ⟨hr, st, hst, rfl⟩ :=
        (Scanner.scanFile_eq_ok_iff (t := ⟨s, d.statistics⟩) hscript).mp hread
      obtain rfl := Except.ok.inj hr
      rw [hfiled, hend] at hrest
      exact ⟨st, hst, (EStateM.Result.ok.inj hrest).2.symm⟩
    · rintro ⟨st, hst, rfl⟩
      refine ⟨r, _, scan_eq_ok_iff.mpr
        ⟨_, (Scanner.scanFile_eq_ok_iff hscript).mpr ⟨rfl, st, hst, rfl⟩, rfl⟩, ?_⟩
      rw [hfiled]
      exact hend st

/-- A node that is gone through without a failure has been visited or passed over. -/
theorem exists_visits (h : scanNode ctx n d = .ok () d') : ∃ v, Visits ctx d.languages n v := by
  cases hfile : n.isDirectory with
  | true => exact ⟨none, .directory hfile⟩
  | false =>
    rw [scanNode, if_neg (by simp [hfile])] at h
    obtain ⟨found, d₁, hfound, h⟩ := bind_eq_ok.mp h
    rw [scannerFor] at hfound
    obtain ⟨choice, d₂, hlift, hfound⟩ := bind_eq_ok.mp hfound
    obtain ⟨hchoice, rfl⟩ := lift_eq_ok.mp hlift
    cases choice with
    | none => exact ⟨none, .unknown hfile hchoice⟩
    | some l =>
      obtain ⟨rfl, rfl⟩ := EStateM.Result.ok.inj hfound
      by_cases hl : l ∈ d₂.languages
      · obtain ⟨s, -, rfl, hfind⟩ := exists_find? hl
        rw [hfind] at h
        cases hcontent : n.content with
        | none =>
          rw [hcontent] at h
          cases h
        | some content =>
          rw [hcontent] at h
          obtain ⟨r, d₃, hscan, -⟩ := bind_eq_ok.mp h
          obtain ⟨t, hread, rfl⟩ := scan_eq_ok_iff.mp hscan
          obtain ⟨ms, x, hscript⟩ :=
            Scanner.scripted_fileResult s.language ctx ⟨Path.name n.name, n.name, content⟩
          obtain ⟨rfl, -⟩ := (Scanner.scanFile_eq_ok_iff (t := ⟨s, d₂.statistics⟩) hscript).mp hread
          exact ⟨_, .read hfile hchoice hl hcontent hscript⟩
      · exact ⟨none, .absent hfile hchoice hl⟩

/-! ### All files -/

theorem take_statistics (d : Desk) (st : Statistics) (vs : List Visit) :
    vs.foldl take (d.withStatistics st) = (vs.foldl take d).withStatistics st := by
  induction vs generalizing d with
  | nil => rfl
  | cons v vs ih => exact ih (d.take v)

theorem forM_scanNode_eq_ok_iff {f : FileNode → Option Visit} (hnd : d.languages.Nodup)
    (hf : ∀ n ∈ nodes, Visits ctx d.languages n (f n)) :
    nodes.forM (scanNode ctx) d = .ok () d' ↔
      ∃ st, ((nodes.filterMap f).flatMap Visit.mentions).forM Tallied.tally d.statistics =
        .ok () st ∧
        d' = ((nodes.filterMap f).foldl take d).withStatistics st := by
  induction nodes generalizing d with
  | nil =>
    constructor
    · intro h
      obtain ⟨-, rfl⟩ := EStateM.Result.ok.inj h
      exact ⟨d.statistics, rfl, rfl⟩
    · rintro ⟨st, hst, rfl⟩
      obtain ⟨-, rfl⟩ := EStateM.Result.ok.inj hst
      rfl
  | cons n nodes ih =>
    obtain ⟨hn, hnodes⟩ := List.forall_mem_cons.mp hf
    rw [List.forM_eq_forM, List.forM_cons]
    cases hv : f n with
    | none =>
      rw [hv] at hn
      rw [bind_of_ok (scanNode_of_visits_none hn), List.filterMap_cons_none hv]
      exact ih hnd hnodes
    | some v =>
      rw [hv] at hn
      have hlanguages : ∀ st, ((d.take v).withStatistics st).languages = d.languages :=
        fun _ => languages_take v
      rw [bind_eq_ok, List.filterMap_cons_some hv, List.flatMap_cons, List.foldl_cons]
      simp only [forM_append_eq_ok]
      constructor
      · rintro ⟨⟨⟩, d₁, hstep, hrest⟩
        obtain ⟨st₁, hst₁, rfl⟩ := (scanNode_of_visits_some hnd hn).mp hstep
        obtain ⟨st, hst, rfl⟩ :=
          (ih ((hlanguages st₁).symm ▸ hnd) ((hlanguages st₁).symm ▸ hnodes)).mp hrest
        exact ⟨st, ⟨st₁, hst₁, hst⟩, by rw [take_statistics]; rfl⟩
      · rintro ⟨st, ⟨st₁, hst₁, hst⟩, rfl⟩
        refine ⟨(), _, (scanNode_of_visits_some hnd hn).mpr ⟨st₁, hst₁, rfl⟩, ?_⟩
        refine (ih ((hlanguages st₁).symm ▸ hnd) ((hlanguages st₁).symm ▸ hnodes)).mpr ⟨st, hst, ?_⟩
        rw [take_statistics]
        rfl

theorem exists_visits_of_forM (hnd : d.languages.Nodup)
    (h : nodes.forM (scanNode ctx) d = .ok () d') :
    ∃ f : FileNode → Option Visit, ∀ n ∈ nodes, Visits ctx d.languages n (f n) := by
  have hvisited : ∀ n ∈ nodes, ∃ v, Visits ctx d.languages n v := by
    induction nodes generalizing d with
    | nil => exact fun n hn => nomatch hn
    | cons n nodes ih =>
      obtain ⟨⟨⟩, d₁, hstep, hrest⟩ := bind_eq_ok.mp h
      obtain ⟨v, hv⟩ := exists_visits hstep
      have hlanguages : d₁.languages = d.languages := by
        cases v with
        | none =>
          rw [scanNode_of_visits_none hv] at hstep
          rw [(EStateM.Result.ok.inj hstep).2]
        | some v =>
          obtain ⟨st, -, rfl⟩ := (scanNode_of_visits_some hnd hv).mp hstep
          exact languages_take v
      refine List.forall_mem_cons.mpr ⟨⟨v, hv⟩, ?_⟩
      rw [← hlanguages]
      exact ih (hlanguages.symm ▸ hnd) hrest
  choose! f hf using hvisited
  exact ⟨f, hf⟩

/-! ### What scanners have in the end -/

theorem scanners_foldl_take (d : Desk) (vs : List Visit) :
    (vs.foldl take d).scanners = d.scanners.map fun s =>
      { s with
        results := s.results.insertMany
          ((vs.filter fun v => v.language = s.language).map Visit.entry) } := by
  induction vs generalizing d with
  | nil => simp
  | cons v vs ih =>
    rw [List.foldl_cons, ih, take, List.map_map]
    refine List.map_congr_left fun s _ => ?_
    simp only [Function.comp_apply, Visit.file]
    split_ifs with heq
    · rw [List.filter_cons_of_pos (by simpa using heq.symm)]
      rfl
    · rw [List.filter_cons_of_neg (by simpa using fun h => heq h.symm)]

theorem results_of_mem_scanners {vs : List Visit} (hempty : ∀ s ∈ d.scanners, s.results = ∅)
    (hs : s ∈ (vs.foldl take d).scanners) :
    s.results = OrderedMap.ofList
      ((vs.filter fun v => v.language = s.language).map Visit.entry) := by
  rw [scanners_foldl_take] at hs
  obtain ⟨s₀, hs₀, rfl⟩ := List.mem_map.mp hs
  rw [hempty s₀ hs₀]
  rfl

end Desk

end CodeAtlas
