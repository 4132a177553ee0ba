import CodeAtlas.Proofs.EntityKeys
import CodeAtlas.Proofs.Sightings

/-!
# Classes and their scopes

A class is declared at a place of its keyword if the next word of the code starts with a name and a
brace opens after it (`Entities.classAt?`). Its words are those up to the brace that closes as many
as have been opened (`Entities.ScopeEnds`), and of classes with the same name the last one counts
(`Scanner.scanClasses_scopes`).
-/

namespace CodeAtlas

open Effect Entities

/-! ### Maps made from lists -/

namespace OrderedMap

variable {κ α : Type} [DecidableEq κ] {es : List (κ × α)} {k : κ} {a : α}

theorem keys_ofList (es : List (κ × α)) : (ofList es).keys = (es.map Prod.fst).eraseDups := by
  induction es using List.reverseRecOn with
  | nil => rfl
  | append_singleton es e ih =>
    obtain ⟨k, a⟩ := e
    rw [ofList_concat, keys_insert, ih, List.map_append, List.eraseDups_append]
    by_cases hk : k ∈ es.map Prod.fst
    · rw [if_pos (List.mem_eraseDups.mpr hk)]
      simp [List.removeAll, hk]
    · rw [if_neg fun hmem => hk (List.mem_eraseDups.mp hmem)]
      simp [List.removeAll, hk, List.eraseDups_cons]

theorem entries_ofList (h : (es.map Prod.fst).Nodup) :
    (ofList es).entries = es := entries_insertMany_of_nodup (m := OrderedMap.empty) h

theorem exists_of_get?_ofList (h : (ofList es).get? k = some a) :
    ∃ before after, es = before ++ (k, a) :: after ∧ ∀ e ∈ after, e.1 ≠ k := by
  induction es using List.reverseRecOn with
  | nil => cases h
  | append_singleton es e ih =>
    obtain ⟨k', a'⟩ := e
    rw [ofList_concat, get?_insert] at h
    split_ifs at h with hk
    · obtain rfl := Option.some.inj h
      exact ⟨es, [], by rw [hk], by simp⟩
    · obtain ⟨before, after, rfl, hafter⟩ := ih h
      refine ⟨before, after ++ [(k', a')], by simp, fun e he => ?_⟩
      rcases List.mem_append.mp he with he | he
      · exact hafter e he
      · rw [List.mem_singleton.mp he]
        exact hk

end OrderedMap

namespace Entities

variable {ws us vs : List String} {level : Int} {i j : Nat}

/-! ### Scopes -/

/-- How many more braces are opened than closed. -/
def balance (ws : List String) : Int := ws.count "\x7b" - ws.count "\x7d"

@[simp] theorem balance_nil : balance [] = 0 := rfl

theorem balance_append (us vs : List String) : balance (us ++ vs) = balance us + balance vs := by
  rw [balance, balance, balance, List.count_append, List.count_append]
  omega

theorem balance_cons (w : String) (ws : List String) :
    balance (w :: ws) = balance [w] + balance ws := balance_append [w] ws

/-- The brace that stands at `j` closes the last one that is open, if `level` braces are open
before. -/
def Closes (level : Int) (ws : List String) (j : Nat) :
    Prop := ws[j]? = some "\x7d" ∧ level + balance (ws.take (j + 1)) = 0

variable {w : String} {file : ScanResult}

theorem closes_zero : Closes level (w :: ws) 0 ↔ w = "\x7d" ∧ level = 1 := by
  have hbalance : balance ["\x7d"] = -1 := rfl
  simp only [Closes, List.getElem?_cons_zero, Option.some.injEq, List.take_succ_cons,
    List.take_zero]
  refine and_congr_right fun hw => ?_
  rw [hw, hbalance]
  omega

theorem closes_succ : Closes level (w :: ws) (j + 1) ↔ Closes (level + balance [w]) ws j := by
  rw [Closes, Closes, List.getElem?_cons_succ, List.take_succ_cons, balance_cons, Int.add_assoc]

/-- The words before `j` are those up to the first brace that closes, or all. -/
structure Reaches (level : Int) (ws : List String) (j : Nat) : Prop where
  le : j ≤ ws.length
  closes : Closes level ws j ∨ j = ws.length
  least : ∀ k < j, ¬ Closes level ws k

theorem Reaches.cons (hw : ¬ (w = "\x7d" ∧ level = 1)) (h : Reaches (level + balance [w]) ws j) :
    Reaches level (w :: ws) (j + 1) where
  le := Nat.succ_le_succ h.le
  closes := by
    rw [closes_succ, List.length_cons, Nat.succ_inj]
    exact h.closes
  least := fun k hk hcloses => by
    cases k with
    | zero => exact hw (closes_zero.mp hcloses)
    | succ k => exact h.least k (Nat.lt_of_succ_lt_succ hk) (closes_succ.mp hcloses)

theorem scope_close (ws : List String) : scope 1 ("\x7d" :: ws) = [] := rfl

theorem scope_cons (hw : ¬ (w = "\x7d" ∧ level = 1)) (ws : List String) :
    scope level (w :: ws) = w :: scope (level + balance [w]) ws := by
  rw [scope]
  split_ifs with hopen hclose hlevel
  · rw [beq_iff_eq.mp hopen]
    rfl
  · exact absurd ⟨beq_iff_eq.mp hclose, by omega⟩ hw
  · rw [beq_iff_eq.mp hclose]
    rfl
  · have hbalance : balance [w] = 0 := by
      rw [beq_iff_eq] at hopen hclose
      simp [balance, hopen, hclose]
    rw [hbalance, Int.add_zero]

theorem exists_scope_eq_take (level : Int) (ws : List String) :
    ∃ j, Reaches level ws j ∧ scope level ws = ws.take j := by
  -- each word may change the level, which is below zero after a brace too many
  induction ws generalizing level with
  | nil => exact ⟨0, ⟨Nat.le_refl 0, .inr rfl, by simp⟩, rfl⟩
  | cons w ws ih =>
    by_cases hw : w = "\x7d" ∧ level = 1
    · obtain ⟨rfl, rfl⟩ := hw
      exact ⟨0, ⟨Nat.zero_le _, .inl (closes_zero.mpr ⟨rfl, rfl⟩), by simp⟩, rfl⟩
    · obtain ⟨j, hj, hscope⟩ := ih (level + balance [w])
      exact ⟨j + 1, hj.cons hw, by rw [scope_cons hw, hscope, List.take_succ_cons]⟩

def slice (ws : List String) (i j : Nat) : List String := (ws.take j).drop i

/-- The scope that starts at `i` ends at `j`: this is the first place of a closing brace up to which
as many braces are closed as opened, or the end of the words where there is none. -/
structure ScopeEnds (ws : List String) (i j : Nat) : Prop where
  le : i ≤ j
  closes : ws[j]? = some "\x7d" ∧ balance (slice ws i (j + 1)) = 0 ∨ j = ws.length
  least : ∀ k, i ≤ k → k < j → ¬ (ws[k]? = some "\x7d" ∧ balance (slice ws i (k + 1)) = 0)

theorem closes_drop {k : Nat} :
    Closes 0 (ws.drop i) k ↔ ws[i + k]? = some "\x7d" ∧ balance (slice ws i (i + k + 1)) = 0 := by
  rw [Closes, slice, List.getElem?_drop, List.take_drop, Int.zero_add, Nat.add_assoc]

theorem exists_scope_eq_slice (hi : i ≤ ws.length) :
    ∃ j, ScopeEnds ws i j ∧ scope 0 (ws.drop i) = slice ws i j := by
  obtain ⟨n, hn, hscope⟩ := exists_scope_eq_take 0 (ws.drop i)
  refine ⟨i + n, ⟨Nat.le_add_right i n, ?_, fun k hik hk => ?_⟩, hscope.trans List.take_drop⟩
  · refine hn.closes.imp closes_drop.mp fun hlength => ?_
    rw [hlength, List.length_drop]
    omega
  · obtain ⟨k, rfl⟩ := Nat.exists_eq_add_of_le hik
    exact mt closes_drop.mpr (hn.least k (Nat.lt_of_add_lt_add_left hk))

/-! ### Declarations -/

/-- The name of the class that is declared at a place of the keyword: the name with which the next
word of the code starts, if there is one and a brace opens after that word. -/
def classAt? (ws : List String) (i : Nat) : Option String :=
  match pastNewlines (ws.drop (i + 1)) with
  | [] => none
  | w :: after =>
    if leading Text.asciiAlnum w ≠ "" ∧ "\x7b" ∈ after then some (leading Text.asciiAlnum w)
      else none

/-- The last place at which a class of a name is declared. -/
structure IsLastClass (ws : List String) (name : String) (i : Nat) : Prop where
  mem : i ∈ places "class" ws
  declares : classAt? ws i = some name
  last : ∀ k ∈ places "class" ws, i < k → classAt? ws k ≠ some name

theorem map_name_headerIn? (ws : List String) (i : Nat) :
    (Phrase.headerIn? (ws.drop (i + 1))).map Phrase.ClassHeader.name = classAt? ws i := by
  rw [Phrase.headerIn?, classAt?]
  cases pastNewlines (ws.drop (i + 1)) with
  | nil => rfl
  | cons w after =>
    by_cases hname : leading Text.asciiAlnum w = "" <;> by_cases hbrace : "\x7b" ∈ after <;>
      simp [hname, hbrace]

theorem drop_of_mem_places {k : String} (h : i ∈ places k ws) :
    ws.drop i = k :: ws.drop (i + 1) := by
  obtain ⟨hi, hk⟩ := List.getElem?_eq_some_iff.mp (mem_places.mp h)
  rw [List.drop_eq_getElem_cons hi, hk]

theorem pieces_scopeWords (words : List String) : Pieces Spacing.plainMarks (scopeWords words) := by
  intro w hw
  simp only [scopeWords] at hw
  exact Spacing.piece_of_mem_words hw

def classMentions (ws : List String) : List (Mention (String × List String)) :=
  (places "class" ws).map fun i =>
    .ofOption ((classAt? ws i).map fun name => (name, scope 0 (ws.drop i)))

theorem declarations_eq (hne : ws ≠ ["class"]) (hws : Pieces Spacing.plainMarks ws) :
    declarations ws = .ok (classMentions ws) := by
  have hrest : ∀ rest, (∀ w ∈ rest, w ∈ ws) → declared? "class" rest =
      (Phrase.headerIn? rest).map fun header =>
        (header.name, scope 0 ("class" :: rest)) := fun rest hsub => by
    rw [declared?, Phrase.classHeader?_joinWords fun w hw => hws w (hsub w hw)]
  obtain ⟨seen, hseen, hmap⟩ :=
    Mention.exists_sightings_map (g := fun word rest => Mention.ofOption (declared? word rest))
    (f := fun rest => .ofOption ((Phrase.headerIn? rest).map
      fun header => (header.name, scope 0 ("class" :: rest))))
    hne (by decide +kernel) fun rest hsub => by rw [hrest rest hsub]
  rw [declarations, hseen]
  refine congrArg Except.ok (hmap.trans (List.map_congr_left fun i hi => ?_))
  rw [drop_of_mem_places hi, ← map_name_headerIn?, Option.map_map]
  rfl

def scopesIn (ws : List String) : List (String × List String) :=
  (places "class" ws).filterMap fun i => (classAt? ws i).map fun name => (name, scope 0 (ws.drop i))

/-- The classes that are declared, each with the words of the scope of its last declaration. -/
def classesIn (ws : List String) : OrderedMap String (List String) := .ofList (scopesIn ws)

theorem found_classMentions (ws : List String) : found (classMentions ws) = classesIn ws :=
  congrArg OrderedMap.ofList (Tallied.filterMap_found? _ _)

theorem exists_collect_classMentions {st : Statistics} {h m : Int}
    (hh : st.count? .parsingHits = some h) (hm : st.count? .parsingMisses = some m)
    (ws : List String) :
    ∃ st', Tallied.collect (fun _ => pure ([] : List Unit)) (classMentions ws) st = .ok [] st' ∧
      st'.count? .parsingHits = some
        (h + (places "class" ws).countP fun i => (classAt? ws i).isSome) ∧
      st'.count? .parsingMisses = some
        (m + (places "class" ws).countP fun i => (classAt? ws i).isNone) := by
  obtain ⟨st', hst', hhits, hmisses⟩ :=
    Tallied.exists_collect (fun _ => pure ([] : List Unit)) hh hm (places "class" ws)
    (fun i => (classAt? ws i).map fun name => (name, scope 0 (ws.drop i))) (fun _ _ _ _ => rfl)
  rw [List.flatMap_eq_nil_iff.mpr fun _ _ => rfl] at hst'
  simp only [Option.isSome_map, Option.isNone_map] at hhits hmisses
  exact ⟨st', hst', hhits, hmisses⟩

theorem keys_classesIn (ws : List String) :
    (classesIn ws).keys = ((places "class" ws).filterMap (classAt? ws)).eraseDups := by
  rw [classesIn, OrderedMap.keys_ofList, scopesIn, List.map_filterMap]
  simp only [Option.map_map, Function.comp_def, Option.map_id']

theorem exists_of_get?_classesIn {name : String} {words : List String}
    (h : (classesIn ws).get? name = some words) :
    ∃ i, IsLastClass ws name i ∧ words = scope 0 (ws.drop i) := by
  obtain ⟨before, after, heq, hafter⟩ := OrderedMap.exists_of_get?_ofList h
  obtain ⟨ps, qs, hplaces, -, hqs⟩ := List.filterMap_eq_append_iff.mp heq
  obtain ⟨skipped, i, rest, rfl, -, hi, hrest⟩ := List.filterMap_eq_cons_iff.mp hqs
  obtain ⟨name', hname, hpair⟩ := Option.map_eq_some_iff.mp hi
  obtain ⟨rfl, rfl⟩ := Prod.mk.inj hpair
  have hmem : i ∈ places "class" ws := by simp [hplaces]
  refine ⟨i, ⟨hmem, hname, fun k hk hik hclass => ?_⟩, rfl⟩
  -- places stand in order, so a later one is among the rest
  have hsorted : (places "class" ws).Pairwise (· < ·) := List.pairwise_lt_range.filter _
  rw [hplaces, ← List.append_assoc, List.pairwise_append] at hsorted
  rw [hplaces, ← List.append_assoc, List.mem_append, List.mem_cons] at hk
  rcases hk with hk | rfl | hk
  · exact absurd (hsorted.2.2 k hk i List.mem_cons_self) (Nat.lt_asymm hik)
  · exact absurd hik (Nat.lt_irrefl k)
  · refine hafter (name', scope 0 (ws.drop k)) ?_ rfl
    rw [← hrest]
    exact List.mem_filterMap.mpr ⟨k, hk, by rw [hclass]; rfl⟩

theorem map_of_mapM_ofClass {cs : List (String × List String)} {es : List ScanResult}
    (h : cs.mapM (ofClass file) = .ok es) : es.map (fun e => (e.displayName, e.words)) = cs := by
  refine (map_of_mapM (fun c e he => ?_) h).trans (List.map_id cs)
  obtain ⟨ps, -, heq⟩ := except_bind_eq_ok.mp he
  obtain rfl := Except.ok.inj heq
  rfl

theorem exists_ofFile_classes (hne : scopeWords file.words ≠ ["class"]) :
    ∃ es, ofFile file = .ok es ∧ es.map (fun e => (e.displayName, e.words)) =
      (classesIn (scopeWords file.words)).entries := by
  obtain ⟨es, hes⟩ := exists_ofFile hne
  obtain ⟨mentions, hmentions, hclasses⟩ := except_bind_eq_ok.mp hes
  obtain rfl := Except.ok.inj ((declarations_eq hne (pieces_scopeWords _)).symm.trans hmentions)
  rw [found_classMentions] at hclasses
  exact ⟨es, hes, map_of_mapM_ofClass hclasses⟩

end Entities

/-! ### The classes of a file -/

namespace Scanner

open Entities

variable {t : ScanState} {h m : Int}

def addClass (file : ScanResult) (c : String × List String) : ScanM Unit := do
  let parents ← ScanM.tallied (Tallied.lift (parents c.2))
  let inherits ← ScanM.tallied (Tallied.collect (fun p => pure [p]) parents)
  let entity := entityOf file c.1 c.2 inherits
  ScanM.modifyResults fun rs => rs.insert entity.uniqueName entity

theorem scanClasses_eq {file : ScanResult} {mentions : List (Mention (String × List String))}
    {st : Statistics} (hmentions : declarations (scopeWords file.words) = .ok mentions)
    (hst : Tallied.collect (fun _ => pure ([] : List Unit)) mentions t.statistics = .ok [] st) :
    scanClasses file t = (found mentions).entries.forM (addClass file)
      { t with statistics := st } := by
  rw [scanClasses, hmentions]
  refine (bind_of_ok (a := mentions) (t := t) rfl).trans ?_
  exact bind_of_ok (tallied_eq_ok_iff.mpr ⟨st, hst, rfl⟩)

/-- A class is declared at a place of the keyword exactly if the next word of the code starts with a
name and a brace opens after it; such places are counted as hits and all others as misses. The
classes come in the order of their first declarations, and the words of each are those of the scope
of its last one. Then the entity of each class is added. -/
theorem scanClasses_scopes (file : ScanResult) (t : ScanState) (h m : Int)
    (hne : scopeWords file.words ≠ ["class"]) (hh : t.statistics.count? .parsingHits = some h)
    (hm : t.statistics.count? .parsingMisses = some m) : let ws := scopeWords file.words
    ∃ (classes : OrderedMap String (List String)) (es : List ScanResult) (st st' : Statistics),
      scanClasses file t = classes.entries.forM (addClass file) { t with statistics := st } ∧
      st.count? .parsingHits =
        some (h + (places "class" ws).countP fun i => (classAt? ws i).isSome) ∧
      st.count? .parsingMisses = some
        (m + (places "class" ws).countP fun i => (classAt? ws i).isNone) ∧
      classes.keys = ((places "class" ws).filterMap (classAt? ws)).eraseDups ∧
      (∀ name words, classes.get? name = some words →
        ∃ i j, IsLastClass ws name i ∧ ScopeEnds ws i j ∧ words = slice ws i j) ∧
      scanClasses file t = .ok () (withEntities t es st') ∧
      es.map (fun e => (e.displayName, e.words)) = classes.entries := by
  intro ws
  have hmentions : declarations ws = .ok (classMentions ws) :=
    declarations_eq hne (pieces_scopeWords _)
  obtain ⟨st, hst, hhits, hmisses⟩ := exists_collect_classMentions hh hm ws
  obtain ⟨es, hes, hclasses⟩ := exists_ofFile_classes hne
  obtain ⟨st', hst', -⟩ := scanClasses_of_ofFile (t := t) hes (Statistics.countable_of_count? hh hm)
  refine ⟨classesIn ws, es, st, st', ?_, hhits, hmisses, keys_classesIn ws,
    fun name words hget => ?_, hst', hclasses⟩
  · rw [scanClasses_eq hmentions hst, found_classMentions]
  · obtain ⟨i, hlast, rfl⟩ := exists_of_get?_classesIn hget
    obtain ⟨j, hj, hscope⟩ :=
      exists_scope_eq_slice (List.getElem?_eq_some_iff.mp (mem_places.mp hlast.mem)).1.le
    exact ⟨i, j, hlast, hj, hscope⟩

end Scanner

namespace Sample

def javaFile (content : String) : ScanResult :=
  Scanner.blankResult .java classContext "/w/proj" ⟨"A.java", "/w/proj/A.java", content⟩

/-- A class is declared twice, the first time with another class in it, and the last word is the
keyword. -/
def twiceDeclared : ScanResult :=
  javaFile "class A \x7b class B \x7b int x; \x7d \x7d\nclass A \x7b int y; \x7d\nclass"

theorem scanClasses_scopes_twiceDeclared : scopeWords twiceDeclared.words ≠ ["class"] ∧
    ∃ (classes : OrderedMap String (List String)) (es : List ScanResult) (st st' : Statistics),
      Scanner.scanClasses twiceDeclared javaScanner =
        classes.entries.forM (Scanner.addClass twiceDeclared)
          { javaScanner with statistics := st } ∧
      st.count? .parsingHits = some 3 ∧ st.count? .parsingMisses = some 1 ∧
      classes.keys = ["A", "B"] ∧
      Scanner.scanClasses twiceDeclared javaScanner =
        .ok () (Scanner.withEntities javaScanner es st') ∧
      es.map (fun e => (e.displayName, e.words)) = classes.entries := by
  have hne : scopeWords twiceDeclared.words ≠ ["class"] := by decide +kernel
  obtain ⟨hhits, hmisses, hnames⟩ :
      ((places "class" (scopeWords twiceDeclared.words)).countP fun i =>
        (classAt? (scopeWords twiceDeclared.words) i).isSome) = 3 ∧
      ((places "class" (scopeWords twiceDeclared.words)).countP fun i =>
        (classAt? (scopeWords twiceDeclared.words) i).isNone) = 1 ∧
      ((places "class" (scopeWords twiceDeclared.words)).filterMap
        (classAt? (scopeWords twiceDeclared.words))).eraseDups = ["A", "B"] := by decide +kernel
  obtain ⟨classes, es, st, st', hscan, hh, hm, hkeys, -, hst', hes⟩ :=
    Scanner.scanClasses_scopes twiceDeclared javaScanner 0 0 hne rfl rfl
  rw [hhits] at hh
  rw [hmisses] at hm
  exact ⟨hne, classes, es, st, st', hscan, hh, hm, hkeys.trans hnames, hst', hes⟩

end Sample

end CodeAtlas
