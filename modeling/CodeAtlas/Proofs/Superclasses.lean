import CodeAtlas.Proofs.ClassScopes

/-!
# Parents of classes

The header of a class is what stands before its first brace, without newlines. It names a parent in
the words `class N extends P` (`Entities.parentOf?`). An entity has the parent of its own header and
also the parents of all classes that are declared within it (`Scanner.scanClasses_inherits`).
-/

namespace CodeAtlas

open Effect Entities Phrase Spacing

namespace Entities

variable {ws after words : List String} {w name : String} {i : Nat} {parent : String}

/-! ### Headers -/

/-- The words before the first brace, without newlines. -/
def header (ws : List String) : List String := (ws.takeWhile (· != "\x7b")).filter (· != "\n")

/-- The parent that a header names: the name with which the word after `extends` starts, if the name
of the class is a word of letters and digits. -/
def parentOf? : List String → Option String
  | _ :: name :: mark :: parent :: _ =>
    if leading Text.asciiAlnum name = name ∧ mark = "extends" ∧ leading Text.asciiAlnum parent ≠ ""
      then
      some (leading Text.asciiAlnum parent)
    else none
  | _ => none

/-- The parent that is named at a place of the keyword, if a brace opens after it. -/
def parentAt? (ws : List String) (i : Nat) : Option String :=
  if "\x7b" ∈ ws.drop i then parentOf? (header (ws.drop i)) else none

theorem header_pastNewlines (ws : List String) : header (pastNewlines ws) = header ws := by
  induction ws with
  | nil => rfl
  | cons w ws ih =>
    by_cases hw : w = "\n"
    · rw [hw, pastNewlines_newline, ih, header, header, List.takeWhile_cons_of_pos (by decide)]
      rfl
    · rw [pastNewlines_cons hw]

theorem header_cons (hline : w ≠ "\n") (hbrace : w ≠ "\x7b") (ws : List String) :
    header (w :: ws) = w :: header ws := by
  rw [header, List.takeWhile_cons_of_pos (by simpa using hbrace),
    List.filter_cons_of_pos (by simpa using hline)]
  rfl

theorem header_of_code (hws : Pieces plainMarks ws) (hcode : pastNewlines ws = w :: after) :
    header ws = if w = "\x7b" then [] else w :: header after := by
  rw [← header_pastNewlines, hcode]
  split_ifs with hw
  · rw [hw]
    rfl
  · exact header_cons (hws.of_pastNewlines hcode).2.1 hw after

theorem exists_code (hbrace : "\x7b" ∈ ws) :
    ∃ w after, pastNewlines ws = w :: after ∧ (w ≠ "\x7b" → "\x7b" ∈ after) := by
  have hmem := (mem_pastNewlines (by decide)).mpr hbrace
  cases hcode : pastNewlines ws with
  | nil => simp [hcode] at hmem
  | cons w after =>
    rw [hcode] at hmem
    exact ⟨w, after, rfl, fun hw => (List.mem_cons.mp hmem).resolve_left hw.symm⟩

theorem leading_brace : leading Text.asciiAlnum "\x7b" = "" := by decide

theorem parentIn?_eq (hws : Pieces plainMarks ws) (hbrace : "\x7b" ∈ ws)
    (hname : leading Text.asciiAlnum name = name) :
    parentIn? ws = parentOf? ("class" :: name :: header ws) := by
  obtain ⟨mark, after, hcode, hafter⟩ := exists_code hbrace
  rw [header_of_code hws hcode, parentIn?, hcode]
  -- a brace ends the header wherever it stands
  by_cases hmark : mark = "\x7b"
  · rw [if_pos hmark]
    simp [hmark, parentOf?]
  rw [if_neg hmark]
  obtain ⟨parent, rest, hcode', -⟩ := exists_code (hafter hmark)
  obtain ⟨-, -, hws'⟩ := hws.of_pastNewlines hcode
  rw [header_of_code hws' hcode']
  by_cases hextends : mark = "extends"
  · simp only [hextends, beq_self_eq_true, if_true, nameIn?, hcode']
    by_cases hparent : parent = "\x7b"
    · simp [hparent, leading_brace, parentOf?]
    · by_cases hempty : leading Text.asciiAlnum parent = "" <;>
        simp [hparent, hempty, parentOf?, hname]
  · by_cases hparent : parent = "\x7b" <;> simp [hparent, hextends, parentOf?]

theorem parent_headerIn? (hws : Pieces plainMarks ws) (hbrace : "\x7b" ∈ ws) :
    (headerIn? ws).bind Phrase.ClassHeader.parent = parentOf? ("class" :: header ws) := by
  obtain ⟨name, after, hcode, hafter⟩ := exists_code hbrace
  obtain ⟨hpiece, -, hws'⟩ := hws.of_pastNewlines hcode
  rw [header_of_code hws hcode, headerIn?, hcode]
  by_cases hopen : name = "\x7b"
  · simp [hopen, leading_brace, parentOf?]
  have hafter := hafter hopen
  by_cases hname : leading Text.asciiAlnum name = name
  · have hempty : name ≠ "" := fun h => hpiece.ne_nil (by rw [h]; rfl)
    rw [if_neg hopen, ← parentIn?_eq hws' hafter hname]
    simp [hempty, hafter, parentAfter?, hname]
  · have hnone : parentOf? ("class" :: name :: header after) = none := by
      rw [parentOf?.eq_def]
      split
      · next heq =>
        obtain ⟨-, rfl, -⟩ : _ ∧ _ ∧ _ := by simpa using heq
        simp [hname]
      · rfl
    by_cases hempty : leading Text.asciiAlnum name = "" <;>
      simp [hopen, hempty, hafter, hnone, parentAfter?, hname]

theorem headerIn?_eq_none (hbrace : "\x7b" ∉ ws) : headerIn? ws = none := by
  rw [headerIn?]
  cases hcode : pastNewlines ws with
  | nil => rfl
  | cons w after =>
    have hafter : "\x7b" ∉ after := fun hmem =>
      hbrace ((mem_pastNewlines (by decide)).mp (hcode ▸ List.mem_cons_of_mem w hmem))
    simp [hafter]

theorem parentAt?_eq (hws : Pieces plainMarks ws) (hi : i ∈ places "class" ws) :
    (headerIn? (ws.drop (i + 1))).bind Phrase.ClassHeader.parent = parentAt? ws i := by
  have hws' : Pieces plainMarks (ws.drop (i + 1)) := fun w hw => hws w (List.mem_of_mem_drop hw)
  rw [parentAt?, drop_of_mem_places hi, header_cons (by decide) (by decide)]
  by_cases hbrace : "\x7b" ∈ ws.drop (i + 1)
  · rw [if_pos (List.mem_cons_of_mem _ hbrace), parent_headerIn? hws' hbrace]
  · rw [if_neg (by simpa using hbrace), headerIn?_eq_none hbrace]
    rfl

theorem exists_parents (hne : ws ≠ ["class"]) (hws : Pieces plainMarks ws) :
    ∃ ps, parents ws = .ok ps ∧ ps.filterMap Mention.found? =
      (places "class" ws).filterMap (parentAt? ws) := by
  have hphrase : ∀ rest, Pieces plainMarks rest →
      classHeader? (joinWords ("class" :: rest)) = headerIn? rest := fun rest hrest =>
    classHeader?_joinWords hrest
  have hall := Mention.all_eq (fun _ => classHeader?) hne
    (fun rest hsub => hphrase rest fun w hw => hws w (hsub w hw)) rfl (by decide +kernel)
  refine ⟨_, by rw [parents, hall]; rfl, ?_⟩
  rw [List.filterMap_filterMap, List.filterMap_map]
  refine List.filterMap_congr fun i hi => ?_
  rw [← parentAt?_eq hws hi]
  cases hheader : headerIn? (ws.drop (i + 1)) with
  | none => simp [hheader, Mention.ofOption, Mention.found?]
  | some header =>
    obtain ⟨name, parent⟩ := header
    cases parent <;> simp [hheader, Mention.ofOption, Mention.found?]

/-! ### Entities -/

theorem brace_mem_scope {level : Int} (hlevel : level ≤ 0) (h : "\x7b" ∈ ws) :
    "\x7b" ∈ scope level ws := by
  -- a scope is closed from level one only, so a brace comes before its end
  fun_induction scope level ws with
  | case1 => exact h
  | case2 level w rest hopen ih => exact beq_iff_eq.mp hopen ▸ List.mem_cons_self
  | case3 level w rest hopen hclose hend => omega
  | case4 level w rest hopen hclose hend ih =>
    have hw : "\x7b" ≠ w := fun heq => hopen (by simp [← heq])
    exact List.mem_cons_of_mem w (ih (by omega) ((List.mem_cons.mp h).resolve_left hw))
  | case5 level w rest hopen hclose ih =>
    have hw : "\x7b" ≠ w := fun heq => hopen (by simp [← heq])
    exact List.mem_cons_of_mem w (ih hlevel ((List.mem_cons.mp h).resolve_left hw))

/-- The words of an entity: the keyword, then a brace somewhere. -/
structure Opens (words : List String) : Prop where
  pieces : Pieces plainMarks words
  ne : words ≠ ["class"]
  exists_cons : ∃ rest, words = "class" :: rest
  brace : "\x7b" ∈ words

theorem opens_scope (hws : Pieces plainMarks ws) (hi : i ∈ places "class" ws)
    (hname : classAt? ws i = some name) : Opens (scope 0 (ws.drop i)) := by
  have hbrace : "\x7b" ∈ ws.drop (i + 1) := by
    rw [classAt?] at hname
    cases hcode : pastNewlines (ws.drop (i + 1)) with
    | nil => simp [hcode] at hname
    | cons w after =>
      simp only [hcode, Option.ite_none_right_eq_some] at hname
      exact (mem_pastNewlines (by decide)).mp (hcode ▸ List.mem_cons_of_mem w hname.1.2)
  rw [drop_of_mem_places hi]
  refine ⟨fun w hw => ?_, scope_ne_singleton (List.ne_nil_of_mem hbrace),
    ⟨scope 0 (ws.drop (i + 1)), rfl⟩, ?_⟩
  · refine hws w (List.mem_of_mem_drop (i := i) ?_)
    rw [drop_of_mem_places hi]
    exact (scope_sublist 0 _).subset hw
  · exact brace_mem_scope (Int.le_refl 0) (List.mem_cons_of_mem _ hbrace)

theorem of_mem_ofFile {file e : ScanResult} {es : List ScanResult} (h : ofFile file = .ok es)
    (he : e ∈ es) (hne : scopeWords file.words ≠ ["class"]) :
    Opens e.words ∧ e.inherits = (places "class" e.words).filterMap (parentAt? e.words) := by
  obtain ⟨mentions, hmentions, hclasses⟩ := except_bind_eq_ok.mp h
  obtain rfl := Except.ok.inj ((declarations_eq hne (pieces_scopeWords _)).symm.trans hmentions)
  rw [found_classMentions] at hclasses
  obtain ⟨⟨name, words⟩, hc, hof⟩ := exists_of_mem_mapM hclasses he
  obtain ⟨i, hlast, hwords⟩ := exists_of_get?_classesIn (OrderedMap.get?_eq_some_iff.mpr hc)
  have hopens : Opens words := hwords ▸ opens_scope (pieces_scopeWords _) hlast.mem hlast.declares
  obtain ⟨ps, hps, heq⟩ := except_bind_eq_ok.mp hof
  obtain rfl := Except.ok.inj heq
  obtain ⟨ps', hps', hfound⟩ := exists_parents hopens.ne hopens.pieces
  obtain rfl := Except.ok.inj (hps'.symm.trans hps)
  exact ⟨hopens, hfound⟩

theorem Opens.places_eq (h : Opens words) :
    places "class" words = 0 :: (places "class" words).tail := by
  obtain ⟨rest, rfl⟩ := h.exists_cons
  rw [places_cons]
  rfl

/-- The first parent is the one that the header of the class itself names. -/
theorem Opens.filterMap_parentAt? (h : Opens words) :
    (places "class" words).filterMap (parentAt? words) =
    (parentOf? (header words)).toList ++ (places "class" words).tail.filterMap
      (parentAt? words) := by
  have hown : parentAt? words 0 = parentOf? (header words) := if_pos h.brace
  rw [h.places_eq, List.filterMap_cons, hown, List.tail_cons]
  cases parentOf? (header words) <;> rfl

theorem tail_places (hone : words.count "class" = 1) : (places "class" words).tail = [] := by
  refine List.length_eq_zero_iff.mp ?_
  rw [List.length_tail, length_places, hone]

theorem exists_of_parentOf? {ws : List String} (h : parentOf? ws = some parent) :
    ∃ first name word more, ws = first :: name :: "extends" :: word :: more ∧
      (∀ c ∈ name.toList, Text.asciiAlnum c = true) ∧
      leading Text.asciiAlnum word = parent ∧ parent ≠ "" := by
  rw [parentOf?.eq_def] at h
  split at h
  · next first name mark word more =>
    split_ifs at h with hcond
    obtain ⟨hname, rfl, hne⟩ := hcond
    obtain rfl := Option.some.inj h
    exact ⟨first, name, word, more, rfl, leading_eq_self.mp hname, rfl, hne⟩
  · cases h

theorem Opens.parentOf?_header_eq_some (h : Opens words) {more : List String}
    (hheader : header words = "class" :: name :: "extends" :: parent :: more)
    (hname : ∀ c ∈ name.toList, Text.asciiAlnum c = true)
    (hparent : ∀ c ∈ parent.toList, Text.asciiAlnum c = true) :
    parentOf? (header words) = some parent := by
  have hword : parent ∈ words := by
    have hmem : parent ∈ header words := by simp [hheader]
    exact (List.takeWhile_sublist _).subset (List.mem_of_mem_filter hmem)
  have hne : parent ≠ "" := fun heq => (h.pieces parent hword).ne_nil (by rw [heq]; rfl)
  rw [hheader]
  simp [parentOf?, leading_eq_self.mpr hname, leading_eq_self.mpr hparent, hne]

theorem Opens.parentOf?_header_eq_none (h : Opens words) (hother : ∀ name parent more,
      header words = "class" :: name :: "extends" :: parent :: more →
        (∃ c ∈ name.toList, Text.asciiAlnum c = false) ∨ leading Text.asciiAlnum parent = "") :
    parentOf? (header words) = none := by
  cases hparent : parentOf? (header words) with
  | none => rfl
  | some parent =>
    obtain ⟨first, name, word, more, hheader, hname, hword, hne⟩ := exists_of_parentOf? hparent
    have hfirst : first = "class" := by
      obtain ⟨rest, hrest⟩ := h.exists_cons
      rw [hrest, header_cons (by decide) (by decide)] at hheader
      exact (List.cons.inj hheader).1.symm
    rw [hfirst] at hheader
    rcases hother name word more hheader with ⟨c, hc, hodd⟩ | hempty
    · rw [hname c hc] at hodd
      cases hodd
    · exact absurd (hword.symm.trans hempty) hne

end Entities

namespace Scanner

open Entities

/-- An entity has the parent that its own header names, followed by the parents of the classes that
are declared within it. So where no class is declared within it, it has one parent if its header is
`class N extends P`, and none if it is not of this form. -/
theorem scanClasses_inherits (file : ScanResult) (t : ScanState)
    (hne : scopeWords file.words ≠ ["class"]) (hcount : t.statistics.Countable) :
    ∃ es st, ofFile file = .ok es ∧ scanClasses file t = .ok () (withEntities t es st) ∧ ∀ e ∈ es,
      e.inherits = (parentOf? (header e.words)).toList ++ (places "class" e.words).tail.filterMap
        (parentAt? e.words) ∧
      (e.words.count "class" = 1 → ∀ name parent more,
        header e.words = "class" :: name :: "extends" :: parent :: more →
        (∀ c ∈ name.toList, Text.asciiAlnum c = true) →
        (∀ c ∈ parent.toList, Text.asciiAlnum c = true) →
          e.inherits = [parent]) ∧
      (e.words.count "class" = 1 →
        (∀ name parent more, header e.words = "class" :: name :: "extends" :: parent :: more →
        (∃ c ∈ name.toList, Text.asciiAlnum c = false) ∨ leading Text.asciiAlnum parent = "") →
          e.inherits = []) := by
  obtain ⟨es, hes⟩ := exists_ofFile hne
  obtain ⟨st, hst, -⟩ := scanClasses_of_ofFile hes hcount
  refine ⟨es, st, hes, hst, fun e he => ?_⟩
  obtain ⟨hopens, hinherits⟩ := of_mem_ofFile hes he hne
  rw [hopens.filterMap_parentAt?] at hinherits
  have hone : e.words.count "class" = 1 →
      e.inherits = (parentOf? (header e.words)).toList := fun hcount => by
    rw [hinherits, tail_places hcount, List.filterMap_nil, List.append_nil]
  refine ⟨hinherits, fun hclass name parent more hheader hname hparent => ?_,
    fun hclass hother => ?_⟩
  · rw [hone hclass, hopens.parentOf?_header_eq_some hheader hname hparent]
    rfl
  · rw [hone hclass, hopens.parentOf?_header_eq_none hother]
    rfl

end Scanner

namespace Sample

def extendingClass : ScanResult := javaFile "class A\n extends B implements I \x7b int x; \x7d"

def nestedClass : ScanResult := javaFile "class A \x7b class B extends C \x7b int x; \x7d \x7d"

def headersOf (file : ScanResult) : Option (List (List String × Nat × List String)) :=
  (ofFile file).toOption.map fun es => es.map
    fun e => (header e.words, e.words.count "class", e.inherits)

theorem of_headersOf {file : ScanResult} {es : List ScanResult}
    {shown : List (List String × Nat × List String)} (h : headersOf file = some shown)
    (hes : ofFile file = .ok es) :
    es.map (fun e => (header e.words, e.words.count "class", e.inherits)) = shown := by
  rw [headersOf, hes] at h
  exact Option.some.inj h

theorem scanClasses_inherits_extending : scopeWords extendingClass.words ≠ ["class"] ∧ ∃ es st e,
    Scanner.scanClasses extendingClass javaScanner =
      .ok () (Scanner.withEntities javaScanner es st) ∧ e ∈ es ∧
    header e.words = ["class", "A", "extends", "B", "implements", "I"] ∧ e.inherits = ["B"] := by
  obtain ⟨hne, hshown⟩ : scopeWords extendingClass.words ≠ ["class"] ∧
      (headersOf extendingClass).map (List.map fun s => (s.1, s.2.1)) =
        some [(["class", "A", "extends", "B", "implements", "I"], 1)] := by decide +kernel
  obtain ⟨es, st, hes, hst, hinherits⟩ :=
    Scanner.scanClasses_inherits extendingClass javaScanner hne
    (Statistics.countable_of_count? (h := 0) (m := 0) rfl rfl)
  obtain ⟨shown, hheaders, hone⟩ := Option.map_eq_some_iff.mp hshown
  rw [← of_headersOf hheaders hes, List.map_map] at hone
  obtain ⟨e, rest, rfl, he, -⟩ := List.map_eq_cons_iff.mp hone
  obtain ⟨hheader, hcount⟩ := Prod.mk.inj he
  obtain ⟨-, hextends, -⟩ := hinherits e List.mem_cons_self
  exact ⟨hne, _, st, e, hst, List.mem_cons_self, hheader,
    hextends hcount "A" "B" _ hheader (by decide) (by decide)⟩

/-- A class takes over the parent of a class within it, although its header names none. -/
theorem inherits_nestedClass : ∃ es st e,
    Scanner.scanClasses nestedClass javaScanner = .ok () (Scanner.withEntities javaScanner es st) ∧
    e ∈ es ∧
    header e.words = ["class", "A"] ∧ e.inherits = ["C"] := by
  obtain ⟨hne, hshown⟩ : scopeWords nestedClass.words ≠ ["class"] ∧
      headersOf nestedClass = some [(["class", "A"], 2, ["C"]),
        (["class", "B", "extends", "C"], 1, ["C"])] := by decide +kernel
  obtain ⟨es, hes⟩ := exists_ofFile hne
  obtain ⟨st, hst, -⟩ := Scanner.scanClasses_of_ofFile (t := javaScanner) hes
    (Statistics.countable_of_count? (h := 0) (m := 0) rfl rfl)
  obtain ⟨e, rest, rfl, he, -⟩ := List.map_eq_cons_iff.mp (of_headersOf hshown hes)
  obtain ⟨hheader, hcount⟩ := Prod.mk.inj he
  exact ⟨_, st, e, hst, List.mem_cons_self, hheader, (Prod.mk.inj hcount).2⟩

end Sample

end CodeAtlas
