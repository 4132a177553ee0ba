import CodeAtlas.Proofs.Scanning

/-!
# What scanners find

A scanner that has scanned a file has one more result (`Scanner.exists_of_scanFile`), and one that
has looked for entities has new results that are entities of its files (`Scanner.of_scanEntities`).
The words of an entity are some of the words in which entities are looked for
(`Entities.sublist_of_mem_found`).
-/

namespace CodeAtlas

open Effect Mention

/-! ### Looking ahead -/

theorem Window.sublist_of_mem_ahead {α : Type} {word : α} {words rest : List α}
    (h : (word, rest) ∈ ahead words) : (word :: rest).Sublist words ∨ rest = [word] := by
  fun_induction ahead words with
  | case1 => simp at h
  | case2 first =>
    obtain ⟨rfl, rfl⟩ := Prod.mk.inj (List.mem_singleton.mp h)
    exact .inr rfl
  | case3 first tail _ ih =>
    rcases List.mem_cons.mp h with heq | h
    · obtain ⟨rfl, rfl⟩ := Prod.mk.inj heq
      exact .inl (List.Sublist.refl _)
    · exact (ih h).imp_left fun hsub => hsub.cons first

theorem Window.ne_nil_of_mem_ahead {α : Type} {word : α} {words rest : List α}
    (h : (word, rest) ∈ ahead words) : rest ≠ [] := by
  fun_induction ahead words with
  | case1 => simp at h
  | case2 first =>
    obtain ⟨rfl, rfl⟩ := Prod.mk.inj (List.mem_singleton.mp h)
    simp
  | case3 first tail hne ih =>
    rcases List.mem_cons.mp h with heq | h
    · obtain ⟨rfl, rfl⟩ := Prod.mk.inj heq
      rintro rfl
      exact hne rfl
    · exact ih h

theorem Mention.of_mem_sightings {isKeyword : String → Bool} {words rest : List String}
    {word : String} {seen : List (String × List String)} (h : sightings isKeyword words = .ok seen)
    (hmem : (word, rest) ∈ seen) : isKeyword word = true ∧ (word, rest) ∈ Window.ahead words := by
  obtain ⟨⟨word', following⟩, hsight, hok⟩ := exists_of_mem_mapM h hmem
  obtain ⟨hsight, hkeyword⟩ := List.mem_filter.mp hsight
  cases following with
  | none => cases hok
  | some rest' =>
    obtain ⟨rfl, rfl⟩ := Prod.mk.inj (Except.ok.inj hok)
    refine ⟨hkeyword, ?_⟩
    unfold Window.readAhead at hsight
    split at hsight
    · simp at hsight
    · obtain ⟨⟨word'', rest''⟩, hahead, heq⟩ := List.mem_map.mp hsight
      obtain ⟨rfl, hrest⟩ := Prod.mk.inj heq
      exact Option.some.inj hrest ▸ hahead

/-- Only a text that is nothing but the keyword cannot be looked at. -/
theorem Mention.exists_sightings {isKeyword : String → Bool} {words : List String}
    (h : ∀ word, words = [word] → isKeyword word = false) :
    ∃ seen, sightings isKeyword words = .ok seen := by
  refine exists_mapM_eq_ok fun sight hsight => ?_
  obtain ⟨word, following⟩ := sight
  obtain ⟨hmem, hkeyword⟩ := List.mem_filter.mp hsight
  have hkeyword : isKeyword word = true := hkeyword
  unfold Window.readAhead at hmem
  split at hmem
  · next word' =>
    obtain ⟨rfl, -⟩ := Prod.mk.inj (List.mem_singleton.mp hmem)
    rw [h word rfl] at hkeyword
    cases hkeyword
  · obtain ⟨⟨word', rest⟩, -, heq⟩ := List.mem_map.mp hmem
    obtain ⟨-, rfl⟩ := Prod.mk.inj heq
    exact ⟨_, rfl⟩

/-! ### Entities -/

namespace Entities

variable {words part : List String} {name : String} {ms : List (Mention (String × List String))}

theorem scope_sublist (level : Int) (words : List String) : (scope level words).Sublist words := by
  fun_induction scope level words with
  | case1 => exact List.Sublist.refl _
  | case2 level word rest _ ih => exact ih.cons_cons word
  | case3 level word rest _ _ _ => exact List.nil_sublist _
  | case4 level word rest _ _ _ ih => exact ih.cons_cons word
  | case5 level word rest _ _ ih => exact ih.cons_cons word

theorem exists_of_mem_found (h : declarations words = .ok ms)
    (hmem : (name, part) ∈ (found ms).entries) :
    ∃ rest, ("class", rest) ∈ Window.ahead words ∧ declared? "class" rest = some (name, part) ∧
      part = scope 0 ("class" :: rest) := by
  obtain ⟨seen, hseen, rfl⟩ : ∃ seen, sightings (· == "class") words = .ok seen ∧
      ms = seen.map fun sight => .ofOption (declared? sight.1 sight.2) := by
    rw [declarations] at h
    cases hseen : sightings (· == "class") words with
    | error e => simp [hseen, bind, Except.bind] at h
    | ok seen =>
      exact ⟨seen, rfl, (by simpa [hseen, bind, Except.bind, pure, Except.pure] using h.symm)⟩
  obtain ⟨mention, hmention, hfound⟩ := List.mem_filterMap.mp (OrderedMap.mem_of_mem_ofList hmem)
  obtain ⟨⟨word, rest⟩, hsight, rfl⟩ := List.mem_map.mp hmention
  obtain ⟨hkeyword, hahead⟩ := of_mem_sightings hseen hsight
  obtain rfl : word = "class" := by simpa using hkeyword
  cases hdeclared : declared? "class" rest with
  | none => simp [hdeclared, ofOption, found?] at hfound
  | some found =>
    obtain rfl : found = (name, part) := by simpa [hdeclared, ofOption, found?] using hfound
    refine ⟨rest, hahead, hdeclared, ?_⟩
    rw [declared?, Option.map_eq_some_iff] at hdeclared
    obtain ⟨header, -, heq⟩ := hdeclared
    exact (Prod.mk.inj heq).2.symm

theorem sublist_of_mem_found (h : declarations words = .ok ms)
    (hmem : (name, part) ∈ (found ms).entries) : part.Sublist words := by
  obtain ⟨rest, hahead, hdeclared, rfl⟩ := exists_of_mem_found h hmem
  rcases Window.sublist_of_mem_ahead hahead with hsub | rfl
  · exact (scope_sublist 0 _).trans hsub
  -- a keyword that comes last has no brace after it, so it declares nothing
  · have hnone : declared? "class" ["class"] = none := by decide +kernel
    simp [hnone] at hdeclared

end Entities

/-! ### Scanners -/

namespace Scanner

variable {ctx : ScanContext} {file : SourceFile} {t t' : ScanState} {r : ScanResult}

theorem of_lift {α : Type} {x : Except Fault α} {v : α} {st st' : Statistics}
    (h : Tallied.lift x st = .ok v st') : x = .ok v := by
  cases x with
  | ok u => rw [(EStateM.Result.ok.inj h).1]
  | error e => cases h

theorem exists_source_of_scanFile (h : scanFile ctx file t = .ok r t') :
    ∃ source, ctx.settings.source = .text source := by
  rw [scanFile, get_bind] at h
  obtain ⟨r', t₁, htallied, -⟩ := bind_eq_ok.mp h
  obtain ⟨st, hr, -⟩ := tallied_eq_ok_iff.mp htallied
  obtain ⟨source, st₁, hlift, -⟩ := bind_eq_ok.mp hr
  rw [Settings.sourcePath] at hlift
  split at hlift
  · next path hpath => exact ⟨path, hpath⟩
  · cases hlift

theorem exists_of_scanFile (h : scanFile ctx file t = .ok r t') :
    (∃ source package imports, r =
      { blankResult t.scanner.language ctx source file with
        moduleName := package, imports := imports }) ∧
    t'.scanner = { t.scanner with results := t.scanner.results.insert r.uniqueName r } := by
  obtain ⟨source, hsource⟩ := exists_source_of_scanFile h
  obtain ⟨⟨package, imports, hr⟩, ht'⟩ := of_scanFile hsource h
  exact ⟨⟨source, package, imports, hr⟩, ht'⟩

def EntityIn (file e : ScanResult) : Prop :=
  ∃ name part inherits, part.Sublist (Entities.scopeWords file.words) ∧
    e = Entities.entityOf file name part inherits

theorem of_scanClasses {file : ScanResult} (h : scanClasses file t = .ok () t') :
    t'.scanner.language = t.scanner.language ∧
      ∀ key e, t'.scanner.results.get? key = some e → t.scanner.results.get? key = some e ∨
        EntityIn file e := by
  obtain ⟨ms, t₁, hms, h⟩ := bind_eq_ok.mp h
  obtain ⟨st, hlift, rfl⟩ := tallied_eq_ok_iff.mp hms
  have hdeclarations := of_lift hlift
  obtain ⟨_, t₂, hcount, h⟩ := bind_eq_ok.mp h
  obtain ⟨st', -, rfl⟩ := tallied_eq_ok_iff.mp hcount
  refine forM_induction (I := fun _ u => u.scanner.language = t.scanner.language ∧ ∀ key e,
    u.scanner.results.get? key = some e → t.scanner.results.get? key = some e ∨ EntityIn file e)
      [] ?_
    ⟨rfl, fun key e hget => .inl hget⟩ h
  rintro - ⟨name, part⟩ hmem u u' ⟨hlanguage, hu⟩ hstep
  obtain ⟨parents, u₁, hparents, hstep⟩ := bind_eq_ok.mp hstep
  obtain ⟨st₁, -, rfl⟩ := tallied_eq_ok_iff.mp hparents
  obtain ⟨inherits, u₂, hinherits, hstep⟩ := bind_eq_ok.mp hstep
  obtain ⟨st₂, -, rfl⟩ := tallied_eq_ok_iff.mp hinherits
  obtain ⟨-, rfl⟩ := EStateM.Result.ok.inj hstep
  refine ⟨hlanguage, fun key e hget => ?_⟩
  dsimp only at hget
  rw [OrderedMap.get?_insert] at hget
  split_ifs at hget
  · exact .inr ⟨name, part, inherits, Entities.sublist_of_mem_found hdeclarations hmem,
      (Option.some.inj hget).symm⟩
  · exact hu key e hget

theorem of_scanEntities (h : scanEntities ctx t = .ok () t') :
    t'.scanner.language = t.scanner.language ∧
    ∀ key e, t'.scanner.results.get? key = some e → t.scanner.results.get? key = some e ∨
      ∃ file ∈ (ownFiles t.scanner.results ctx.analysis).values, EntityIn file e := by
  rw [scanEntities, get_bind] at h
  split at h
  · refine forM_induction (I := fun _ u => u.scanner.language = t.scanner.language ∧ ∀ key e,
      u.scanner.results.get? key = some e → t.scanner.results.get? key = some e ∨
        ∃ file ∈ (ownFiles t.scanner.results ctx.analysis).values, EntityIn file e) [] ?_
      ⟨rfl, fun key e hget => .inl hget⟩ h
    rintro - file hfile u u' ⟨hlanguage, hu⟩ hstep
    obtain ⟨hlanguage', hu'⟩ := of_scanClasses hstep
    refine ⟨hlanguage'.trans hlanguage, fun key e hget => ?_⟩
    rcases hu' key e hget with hget | hentity
    · exact hu key e hget
    · exact .inr ⟨file, hfile, hentity⟩
  · cases h

end Scanner

end CodeAtlas
