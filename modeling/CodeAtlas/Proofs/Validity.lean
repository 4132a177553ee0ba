import CodeAtlas.Configuration.Validity
import CodeAtlas.Proofs.Entries

/-!
# Which documents are accepted

`Configuration.Configures` says without reference to the checks what a document has to hold, and
`Configuration.isValid_iff` that exactly these documents are accepted. The checks ask a document for
its names. `Configuration.Shaped` documents can always be asked, so that the checks end with an
answer (`Configuration.Shaped.exists_isValid`).
-/

namespace CodeAtlas

open Effect

theorem Effect.allM_eq_ok_true_iff {ε α : Type} {p : α → Except ε Bool} {xs : List α} :
    xs.allM p = .ok true ↔ ∀ x ∈ xs, p x = .ok true := by
  induction xs with
  | nil => simp [List.allM, pure, Except.pure]
  | cons x xs ih =>
    rw [List.allM, List.forall_mem_cons, ← ih]
    cases p x with
    | error e => simp [bind, Except.bind]
    | ok b => cases b <;> simp [bind, Except.bind, pure, Except.pure]

theorem Effect.exists_allM {ε α : Type} {p : α → Except ε Bool} {xs : List α}
    (h : ∀ x ∈ xs, ∃ b, p x = .ok b) : ∃ b, xs.allM p = .ok b := by
  induction xs with
  | nil => exact ⟨true, rfl⟩
  | cons x xs ih =>
    obtain ⟨⟨b, hb⟩, hxs⟩ := List.forall_mem_cons.mp h
    rw [List.allM, hb]
    cases b with
    | false => exact ⟨false, rfl⟩
    | true => exact ih hxs

namespace Value

theorem hasText_map (es : List (Value × Value)) (s : String) :
    (map es).hasText s = .ok ((map es).field? s).isSome := by
  rw [hasText, hasMember, if_pos (by rfl), field?, lookup, Option.isSome_map, List.isSome_find?]

variable {name : String}

theorem at?_map {es : List (Value × Value)} {v : Value} :
    (map es).at? name = .ok v ↔ (map es).field? name = some v := by
  rw [at?, field?]
  cases lookup (.text name) es <;> simp

variable {v w : Value}

theorem at?_eq_ok_iff : v.at? name = .ok w ↔ v.field? name = some w := by
  cases v with
  | map es => exact at?_map
  | _ => exact iff_of_false (fun h => nomatch h) fun h => nomatch h

theorem exists_map_of_field? (h : v.field? name = some w) : ∃ es, v = map es := by
  cases v with
  | map es => exact ⟨es, rfl⟩
  | _ => cases h

theorem hasText_of_field? (h : v.field? name = some w) : v.hasText name = .ok true := by
  obtain ⟨es, rfl⟩ := exists_map_of_field? h
  rw [hasText_map, h]
  rfl

end Value

namespace Configuration

variable {document entry : Value} {entries : List Value} {es : List (Value × Value)}
  {vs : List Value}

/-! ### Accepted documents -/

/-- An entry has a name and a source directory, which are texts, and something to scan for. -/
structure Describing (entry : Value) : Prop where
  name : ∃ s, entry.field? "analysis_name" = some (.text s)
  source : ∃ s, entry.field? "source_directory" = some (.text s)
  scan : ∃ scope, (entry.field? (scanKey scope)).isSome = true

/-- A document has known keys only, names the project, and has a list of entries for analyses that
is not empty. -/
structure Configures (document : Value) (entries : List Value) : Prop where
  keys : ∃ es, document = .map es ∧ ∀ e ∈ es, ∃ key, e.1 = .text key ∧
    Level.project.allows key = true
  project : (document.field? "project_name").isSome = true
  analyses : document.field? "analyses" = some (.list entries)
  ne_nil : entries ≠ []
  each : ∀ entry ∈ entries, Describing entry

theorem keysKnown_eq_true_iff :
    keysKnown vs = .ok true ↔ ∀ v ∈ vs, ∃ key, v = .text key ∧ Level.project.allows key = true := by
  induction vs with
  | nil => simp [keysKnown]
  | cons v vs ih =>
    rw [List.forall_mem_cons, ← ih]
    cases v with
    | text key =>
      rw [keysKnown]
      split_ifs with hkey
      · simp [hkey]
      · simp [hkey]
    | atom a =>
      refine iff_of_false (fun h => ?_) fun ⟨⟨key, hkey, _⟩, _⟩ => nomatch hkey
      cases a <;> cases h
    | _ => exact iff_of_false (fun h => nomatch h) fun ⟨⟨key, hkey, _⟩, _⟩ => nomatch hkey

theorem hasTextAt_eq_true_iff {name : String} :
    hasTextAt entry name = .ok true ↔ ∃ s, entry.field? name = some (.text s) := by
  rw [hasTextAt, except_bind_eq_ok]
  constructor
  · rintro ⟨v, hv, htext⟩
    cases v with
    | text s => exact ⟨s, Value.at?_eq_ok_iff.mp hv⟩
    | _ => cases htext
  · rintro ⟨s, hs⟩
    exact ⟨.text s, Value.at?_eq_ok_iff.mpr hs, rfl⟩

theorem hasScan_map :
    hasScan (.map es) = .ok (((Value.map es).field? "file_scan").isSome ||
      ((Value.map es).field? "entity_scan").isSome) := by
  rw [hasScan, Value.hasText_map, Value.hasText_map]
  cases ((Value.map es).field? "file_scan").isSome <;> rfl

/-- The rules say that an entry describes an analysis. -/
theorem rules_iff : (∀ rule ∈ entryRules, rule entry = .ok true) ↔ Describing entry := by
  simp only [entryRules, List.forall_mem_cons, List.not_mem_nil, false_implies, implies_true,
    and_true, hasTextAt_eq_true_iff]
  constructor
  · rintro ⟨-, -, hname, hsource, hscan⟩
    refine ⟨hname, hsource, ?_⟩
    obtain ⟨s, hs⟩ := hname
    obtain ⟨es, rfl⟩ := Value.exists_map_of_field? hs
    rw [hasScan_map, Except.ok.injEq, Bool.or_eq_true] at hscan
    rcases hscan with hscan | hscan
    · exact ⟨.files, hscan⟩
    · exact ⟨.entities, hscan⟩
  · rintro ⟨hname, hsource, scope, hscan⟩
    obtain ⟨s, hs⟩ := hname
    obtain ⟨s', hs'⟩ := hsource
    refine ⟨Value.hasText_of_field? hs, Value.hasText_of_field? hs', ⟨s, hs⟩, ⟨s', hs'⟩, ?_⟩
    obtain ⟨es, rfl⟩ := Value.exists_map_of_field? hs
    rw [hasScan_map, Except.ok.injEq, Bool.or_eq_true]
    cases scope with
    | files => exact .inl hscan
    | entities => exact .inr hscan

theorem entriesValid_iff : entriesValid entries = .ok true ↔
    entries ≠ [] ∧ ∀ entry ∈ entries, Describing entry := by
  rw [entriesValid]
  cases entries with
  | nil => exact iff_of_false (fun h => nomatch h) fun h => h.1 rfl
  | cons first rest =>
    rw [if_neg (by simp), allM_eq_ok_true_iff, and_iff_right (by simp)]
    simp only [allM_eq_ok_true_iff, ← rules_iff]
    exact ⟨fun h entry hentry rule hrule => h rule hrule entry hentry,
      fun h rule hrule entry hentry => h entry hentry rule hrule⟩

theorem isValid_map (hne : es ≠ []) : isValid (.map es) =
    if ((Value.map es).field? "project_name").isSome then do
      if ← keysKnown (es.map Prod.fst) then
        match (Value.map es).field? "analyses" with
        | some (.list entries) => entriesValid entries
        | _ => return false
      else return false
    else .ok false := by
  have htruthy : (Value.map es).truthy = true := by simpa [Value.truthy] using hne
  rw [isValid, htruthy, Value.hasText_map, Value.hasText_map]
  cases hproject : ((Value.map es).field? "project_name").isSome with
  | false => rfl
  | true =>
    change (keysKnown (es.map Prod.fst) >>= _) = (keysKnown (es.map Prod.fst) >>= _)
    congr 1
    funext known
    cases known with
    | false => rfl
    | true =>
      cases hanalyses : (Value.map es).field? "analyses" with
      | none => rfl
      | some v =>
        rw [Value.at?_map.mpr hanalyses]
        cases v <;> rfl

theorem exists_map_of_isValid (h : isValid document = .ok true) : ∃ es, document = .map es := by
  rw [isValid] at h
  split_ifs at h
  · cases h
  obtain ⟨named, -, h⟩ := except_bind_eq_ok.mp h
  cases named with
  | false => cases h
  | true =>
    obtain ⟨vs, -, h⟩ := except_bind_eq_ok.mp h
    obtain ⟨known, -, h⟩ := except_bind_eq_ok.mp h
    cases known with
    | false => cases h
    | true =>
      obtain ⟨listed, -, h⟩ := except_bind_eq_ok.mp h
      cases listed with
      | false => cases h
      | true =>
        obtain ⟨v, hv, -⟩ := except_bind_eq_ok.mp h
        exact Value.exists_map_of_field? (Value.at?_eq_ok_iff.mp hv)

/-- Exactly the documents that configure a project are accepted. -/
theorem isValid_iff : isValid document = .ok true ↔ ∃ entries, Configures document entries := by
  constructor
  · intro h
    obtain ⟨es, rfl⟩ := exists_map_of_isValid h
    have hne : es ≠ [] := by
      rintro rfl
      cases h
    rw [isValid_map hne] at h
    split_ifs at h with hproject
    · obtain ⟨known, hknown, h⟩ := except_bind_eq_ok.mp h
      cases known with
      | false => cases h
      | true =>
        cases hanalyses : (Value.map es).field? "analyses" with
        | none =>
          rw [hanalyses] at h
          cases h
        | some v =>
          rw [hanalyses] at h
          cases v with
          | list entries =>
            obtain ⟨hentries, heach⟩ := entriesValid_iff.mp h
            have hkeys := keysKnown_eq_true_iff.mp hknown
            exact ⟨entries, ⟨es, rfl, fun e he => hkeys e.1 (List.mem_map_of_mem he)⟩, hproject,
              hanalyses, hentries, heach⟩
          | _ => cases h
    · cases h
  · rintro ⟨entries, ⟨es, rfl, hkeys⟩, hproject, hanalyses, hne, heach⟩
    have hes : es ≠ [] := by
      rintro rfl
      cases hproject
    have hknown : keysKnown (es.map Prod.fst) = .ok true :=
      keysKnown_eq_true_iff.mpr (List.forall_mem_map.mpr hkeys)
    rw [isValid_map hes, if_pos hproject, hknown, hanalyses]
    exact entriesValid_iff.mpr ⟨hne, heach⟩

/-! ### Documents that can be checked -/

/-- A document that is empty, a text or a map, or that does not name a project. A map has texts as
its keys, and if its analyses are a list, then a list of maps. -/
inductive Shaped : Value → Prop
  | empty {document : Value} (h : document.truthy = false) : Shaped document
  | unnamed {document : Value} (h : document.hasText "project_name" = .ok false) : Shaped document
  | text (s : String) : Shaped (.text s)
  | map (es : List (Value × Value)) (hkeys : ∀ e ∈ es, ∃ key, e.1 = .text key)
      (hentries : ∀ entries, (Value.map es).field? "analyses" = some (.list entries) →
        ∀ entry ∈ entries, ∃ fs, entry = .map fs) :
      Shaped (.map es)

theorem exists_keysKnown (h : ∀ v ∈ vs, ∃ key, v = .text key) : ∃ b, keysKnown vs = .ok b := by
  induction vs with
  | nil => exact ⟨true, rfl⟩
  | cons v vs ih =>
    obtain ⟨⟨key, rfl⟩, hvs⟩ := List.forall_mem_cons.mp h
    rw [keysKnown]
    split_ifs
    · exact ih hvs
    · exact ⟨false, rfl⟩

theorem length_upperAscii_le (c : Char) : (upperAscii c).length ≤ 3 := by
  have hite : ∀ (p : Prop) [Decidable p] (xs ys : List Char),
      xs.length ≤ 3 → ys.length ≤ 3 → (if p then xs else ys).length ≤ 3 := by
    intro p _ xs ys hxs hys
    split
    · exact hxs
    · exact hys
  unfold upperAscii
  repeat' apply hite
  all_goals simp only [List.length_cons, List.length_nil, Nat.reduceAdd, Nat.reduceLeDiff]

/-- One character is no key, since those are longer than any upper-case form of a character. -/
theorem not_allows_char (c : Char) : Level.project.allows (String.ofList [c]) = false := by
  rw [Level.allows, List.any_eq_false]
  intro key hkey heq
  have hlong : ∀ key ∈ Level.project.keys, 3 < (upper key).toList.length := by decide +kernel
  have hshort := length_upperAscii_le c
  have hlength := congrArg (fun s : String => s.toList.length) (beq_iff_eq.mp heq)
  simp only [upper, String.toList_ofList, List.flatMap_cons, List.flatMap_nil,
    List.append_nil] at hlength
  have hkeyLong := hlong key hkey
  rw [upper, String.toList_ofList] at hkeyLong
  omega

theorem isValid_text (s : String) : isValid (.text s) = .ok false := by
  cases hs : s.toList with
  | nil =>
    rw [String.toList_eq_nil_iff.mp hs]
    rfl
  | cons c cs =>
    have hnamed : (Value.text s).hasText "project_name" =
        .ok (Text.contains s "project_name") := rfl
    have hknown : keysKnown ((c :: cs).map fun c => .text (String.ofList [c])) = .ok false := by
      rw [List.map_cons, keysKnown, not_allows_char]
      rfl
    rw [isValid, hnamed, Value.members, hs]
    split_ifs
    · rfl
    · cases Text.contains s "project_name" with
      | false => rfl
      | true =>
        simp only [bind, Except.bind, hknown, Bool.not_true, Bool.not_false, Bool.false_eq_true,
          if_false, if_true, pure, Except.pure]

theorem exists_allM_rules {rule : Value → Except Fault Bool}
    {rules : List (Value → Except Fault Bool)} (hrule : ∀ entry ∈ entries, ∃ b, rule entry = .ok b)
    (hrules : (∀ entry ∈ entries, rule entry = .ok true) →
      ∃ b, (rules.allM fun rule => entries.allM rule) = .ok b) :
    ∃ b, ((rule :: rules).allM fun rule => entries.allM rule) = .ok b := by
  obtain ⟨b, hb⟩ := exists_allM hrule
  rw [List.allM, hb]
  cases b with
  | false => exact ⟨false, rfl⟩
  | true => exact hrules (allM_eq_ok_true_iff.mp hb)

theorem exists_entriesValid (h : ∀ entry ∈ entries, ∃ fs, entry = .map fs) :
    ∃ b, entriesValid entries = .ok b := by
  have hask : ∀ name, ∀ entry ∈ entries, ∃ b, entry.hasText name = .ok b := by
    intro name entry hentry
    obtain ⟨fs, rfl⟩ := h entry hentry
    exact ⟨_, Value.hasText_map fs name⟩
  have htext : ∀ name, (∀ entry ∈ entries, entry.hasText name = .ok true) →
      ∀ entry ∈ entries, ∃ b, hasTextAt entry name = .ok b := by
    intro name hnamed entry hentry
    have hhas := hnamed entry hentry
    obtain ⟨fs, rfl⟩ := h entry hentry
    rw [Value.hasText_map, Except.ok.injEq, Option.isSome_iff_exists] at hhas
    obtain ⟨v, hv⟩ := hhas
    exact ⟨v.text?.isSome, by rw [hasTextAt, Value.at?_map.mpr hv]; rfl⟩
  have hscan : ∀ entry ∈ entries, ∃ b, hasScan entry = .ok b := by
    intro entry hentry
    obtain ⟨fs, rfl⟩ := h entry hentry
    exact ⟨_, hasScan_map⟩
  rw [entriesValid]
  split_ifs
  · exact ⟨false, rfl⟩
  refine exists_allM_rules (hask _) fun hname => exists_allM_rules (hask _) fun hsource => ?_
  refine exists_allM_rules (htext _ hname) fun _ => exists_allM_rules (htext _ hsource) fun _ => ?_
  exact exists_allM_rules hscan fun _ => ⟨true, rfl⟩

theorem Shaped.exists_isValid (h : Shaped document) : ∃ b, isValid document = .ok b := by
  cases h with
  | empty h => exact ⟨false, by rw [isValid, h]; rfl⟩
  | unnamed h =>
    cases htruthy : document.truthy with
    | false => exact ⟨false, by rw [isValid, htruthy]; rfl⟩
    | true => exact ⟨false, by rw [isValid, htruthy, h]; rfl⟩
  | text s => exact ⟨false, isValid_text s⟩
  | map es hkeys hentries =>
    by_cases hne : es = []
    · exact ⟨false, by rw [hne]; rfl⟩
    rw [isValid_map hne]
    split_ifs
    · obtain ⟨known, hknown⟩ := exists_keysKnown (List.forall_mem_map.mpr hkeys)
      rw [hknown]
      cases known with
      | false => exact ⟨false, rfl⟩
      | true =>
        cases hanalyses : (Value.map es).field? "analyses" with
        | none => exact ⟨false, rfl⟩
        | some v =>
          cases v with
          | list entries => exact exists_entriesValid (hentries entries hanalyses)
          | _ => exact ⟨false, rfl⟩
    · exact ⟨false, rfl⟩

end Configuration

end CodeAtlas
