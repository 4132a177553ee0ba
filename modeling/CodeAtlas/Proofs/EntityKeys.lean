import CodeAtlas.Proofs.EntityLines
import CodeAtlas.Proofs.EntityScan

/-!
# Keys of entities

A scanner keeps files under their names and the classes in them under their names within their
packages. Names of classes hold letters and digits only, and names of packages also dots, so the
last dot of a key parts the two (`Entities.qualifiedName_injective`). `Scanner.Reached` are the
states that a scanner for the language with entities can come to, also by steps that fail; in each
of them every result has its own name as its key, and every file a proper package
(`Scanner.Reached.wellNamed`). So looking for entities touches no file whose name holds another
character, and of classes with the same name in the same package the last file counts
(`Scanner.scanEntities_keys`).
-/

namespace CodeAtlas

open Effect Entities OrderedMap

namespace OrderedMap

variable {κ α : Type} [DecidableEq κ] {m : OrderedMap κ α} {es before after : List (κ × α)}
  {k : κ} {a : α}

theorem get?_insertMany_of_not_mem (h : ∀ e ∈ es, e.1 ≠ k) :
    (m.insertMany es).get? k = m.get? k := by
  rw [get?_insertMany_or]
  cases hget : (ofList es).get? k with
  | none => rfl
  | some a => exact absurd rfl (h (k, a) (mem_of_mem_ofList (get?_eq_some_iff.mp hget)))

theorem get?_insertMany_last (m : OrderedMap κ α) (before : List (κ × α)) (a : α)
    (h : ∀ e ∈ after, e.1 ≠ k) : (m.insertMany (before ++ (k, a) :: after)).get? k = some a := by
  have happend : m.insertMany (before ++ (k, a) :: after) =
      ((m.insertMany before).insert k a).insertMany after :=
    List.foldl_append
  rw [happend, get?_insertMany_of_not_mem h, get?_insert, if_pos rfl]

theorem mem_keys_insertMany : k ∈ (m.insertMany es).keys ↔ k ∈ m.keys ∨ ∃ a, (k, a) ∈ es := by
  constructor
  · intro hmem
    obtain ⟨a, hget⟩ := mem_keys_iff.mp hmem
    rcases of_get?_insertMany hget with hes | hget
    · exact .inr ⟨a, hes⟩
    · exact .inl (mem_keys_iff.mpr ⟨a, hget⟩)
  · intro hmem
    rw [mem_keys_iff, get?_insertMany_or]
    rcases hmem with hmem | ⟨a, hes⟩
    · obtain ⟨b, hb⟩ := mem_keys_iff.mp hmem
      cases (ofList es).get? k with
      | none => exact ⟨b, hb⟩
      | some c => exact ⟨c, rfl⟩
    · obtain ⟨c, hc⟩ := Option.ne_none_iff_exists'.mp (get?_ofList_ne_none hes)
      exact ⟨c, by rw [hc]; rfl⟩

end OrderedMap

theorem Effect.mapM_append_eq_ok {ε α β : Type} {f : α → Except ε β} {xs ys : List α}
    {zs : List β} :
    (xs ++ ys).mapM f = .ok zs ↔ ∃ as bs, xs.mapM f = .ok as ∧ ys.mapM f = .ok bs ∧
      zs = as ++ bs := by
  rw [List.mapM_append]
  simp only [except_bind_eq_ok, pure, Except.pure, Except.ok.injEq]
  grind

/-! ### Names in phrases -/

theorem Spot.of_word? {p : Char → Bool} {s s' : Spot} {word : List Char}
    (h : s.word? p = some (word, s')) : ∀ c ∈ word, p c = true := by
  rw [word?] at h
  cases hword : s.skipGaps.rest.takeWhile p with
  | nil =>
    rw [hword] at h
    cases h
  | cons c cs =>
    rw [hword] at h
    obtain ⟨rfl, -⟩ := Prod.mk.inj (Option.some.inj h)
    intro d hd
    rw [← hword] at hd
    exact List.mem_takeWhile_imp hd

namespace Phrase

def PackageName (name : String) : Prop := ∀ c ∈ name.toList, nameChar ['.'] c = true

def ClassName (name : String) : Prop := ∀ c ∈ name.toList, nameChar [] c = true

theorem of_packageName? {text name : String} (h : packageName? text = some name) :
    PackageName name := by
  rw [packageName?, terminated?] at h
  obtain ⟨s, -, h⟩ := Option.bind_eq_some_iff.mp h
  obtain ⟨⟨word, s'⟩, hword, h⟩ := Option.bind_eq_some_iff.mp h
  obtain ⟨s'', -, h⟩ := Option.bind_eq_some_iff.mp h
  obtain rfl := Option.some.inj h
  intro c hc
  exact Spot.of_word? hword c (by simpa using hc)

theorem of_classHeader? {text : String} {header : ClassHeader}
    (h : classHeader? text = some header) : ClassName header.name := by
  rw [classHeader?] at h
  obtain ⟨s, -, h⟩ := Option.bind_eq_some_iff.mp h
  obtain ⟨⟨word, s'⟩, hword, h⟩ := Option.bind_eq_some_iff.mp h
  have hname : header.name = String.ofList word := by
    dsimp only at h
    split at h
    all_goals
      split at h
      · rw [← Option.some.inj h]
      · cases h
  intro c hc
  rw [hname, String.toList_ofList] at hc
  exact Spot.of_word? hword c hc

theorem ClassName.noDot {name : String} (h : ClassName name) : '.' ∉ name.toList :=
  fun hdot => nomatch h '.' hdot

end Phrase

namespace Entities

open Phrase

variable {file e : ScanResult} {es : List ScanResult} {p p' n n' : String}

theorem toList_qualifiedName (hp : p ≠ "") (n : String) :
    (qualifiedName p n).toList = p.toList ++ '.' :: n.toList := by
  rw [qualifiedName, if_neg (by simpa using hp)]
  simp

theorem splitOn_qualifiedName (hn : '.' ∉ n.toList) (p : String) :
    Chars.splitOn '.' (qualifiedName p n).toList =
    (if p = "" then [] else Chars.splitOn '.' p.toList) ++ [n.toList] := by
  by_cases hp : p = ""
  · rw [hp, if_pos rfl]
    exact Chars.splitOn_of_not_mem hn
  · rw [if_neg hp, toList_qualifiedName hp, Chars.splitOn_append, Chars.splitOn_of_not_mem hn]

/-- The last dot parts the package and the class. -/
theorem qualifiedName_injective (hn : '.' ∉ n.toList) (hn' : '.' ∉ n'.toList)
    (h : qualifiedName p n = qualifiedName p' n') : p = p' ∧ n = n' := by
  have hcut := congrArg (fun s : String => Chars.splitOn '.' s.toList) h
  simp only [splitOn_qualifiedName hn, splitOn_qualifiedName hn'] at hcut
  obtain ⟨hlead, hlast⟩ := List.append_inj' hcut rfl
  obtain rfl : n = n' := String.toList_inj.mp (List.singleton_inj.mp hlast)
  refine ⟨?_, rfl⟩
  by_cases hp : p = "" <;> by_cases hp' : p' = ""
  · rw [hp, hp']
  · rw [if_pos hp, if_neg hp'] at hlead
    exact absurd hlead.symm (Chars.splitOn_ne_nil _ _)
  · rw [if_neg hp, if_pos hp'] at hlead
    exact absurd hlead (Chars.splitOn_ne_nil _ _)
  · have hchars := congrArg String.toList h
    rw [toList_qualifiedName hp, toList_qualifiedName hp'] at hchars
    exact String.toList_inj.mp (List.append_cancel_right hchars)

theorem packageName_qualifiedName (hp : PackageName p) (hn : ClassName n) :
    PackageName (qualifiedName p n) := by
  have hclass : PackageName n := fun c hc => by
    have hchar := hn c hc
    simp only [nameChar, List.contains_nil, Bool.or_false] at hchar
    rw [nameChar, hchar, Bool.true_or]
  by_cases hempty : p = ""
  · rwa [hempty]
  · intro c hc
    rw [toList_qualifiedName hempty, List.mem_append, List.mem_cons] at hc
    rcases hc with hc | rfl | hc
    · exact hp c hc
    · rfl
    · exact hclass c hc

/-- A file has an entity for a class in a package. -/
def Yields (file : ScanResult) (p n : String) (e : ScanResult) : Prop :=
  ∃ es, ofFile file = .ok es ∧ e ∈ es ∧ e.moduleName = p ∧
    e.entity?.map EntityDetails.entityName = some n

theorem exists_of_mem_ofFile (h : ofFile file = .ok es) (he : e ∈ es) :
    ∃ name words inherits, ClassName name ∧ e = entityOf file name words inherits := by
  obtain ⟨ms, hms, hes⟩ := except_bind_eq_ok.mp h
  obtain ⟨⟨name, words⟩, hfound, hclass⟩ := exists_of_mem_mapM hes he
  obtain ⟨ps, -, heq⟩ := except_bind_eq_ok.mp hclass
  obtain ⟨rest, -, hdeclared, -⟩ := exists_of_mem_found hms hfound
  obtain ⟨header, hheader, hname⟩ := Option.map_eq_some_iff.mp hdeclared
  exact ⟨name, words, _, (Prod.mk.inj hname).1 ▸ of_classHeader? hheader, (Except.ok.inj heq).symm⟩

theorem exists_yields (h : ofFile file = .ok es) (he : e ∈ es) :
    ∃ n, Yields file file.moduleName n e := by
  obtain ⟨name, words, inherits, -, rfl⟩ := exists_of_mem_ofFile h he
  exact ⟨name, es, h, he, rfl, rfl⟩

namespace Yields

section
variable (h : Yields file p n e)
include h

theorem exists_eq :
    p = file.moduleName ∧ ClassName n ∧ ∃ words inherits, e = entityOf file n words inherits := by
  obtain ⟨es, hes, he, rfl, hname⟩ := h
  obtain ⟨name, words, inherits, hclass, rfl⟩ := exists_of_mem_ofFile hes he
  obtain rfl : name = n := Option.some.inj hname
  exact ⟨rfl, hclass, words, inherits, rfl⟩

theorem className : ClassName n := h.exists_eq.2.1

theorem uniqueName_eq : e.uniqueName = qualifiedName p n := by
  obtain ⟨rfl, -, words, inherits, rfl⟩ := h.exists_eq
  rfl

theorem not_isFile : e.isFile = false := by
  obtain ⟨-, -, words, inherits, rfl⟩ := h.exists_eq
  rfl

theorem packageName (hfile : PackageName file.moduleName) : PackageName (qualifiedName p n) := by
  obtain ⟨rfl, hclass, -⟩ := h.exists_eq
  exact packageName_qualifiedName hfile hclass

end

end Yields

theorem nodup_names (h : ofFile file = .ok es) : (es.map ScanResult.uniqueName).Nodup := by
  obtain ⟨ms, hms, hes⟩ := except_bind_eq_ok.mp h
  have hnames : es.map ScanResult.uniqueName =
      (found ms).keys.map (qualifiedName file.moduleName) := by
    rw [keys, List.map_map]
    refine map_of_mapM (fun c e he => ?_) hes
    obtain ⟨ps, -, heq⟩ := except_bind_eq_ok.mp he
    obtain rfl := Except.ok.inj heq
    rfl
  rw [hnames]
  refine List.Nodup.map_on ?_ (found ms).keys_nodup
  intro n hn n' hn' heq
  have hclass : ∀ n ∈ (found ms).keys, '.' ∉ n.toList := by
    intro n hn
    obtain ⟨words, hwords⟩ := mem_keys_iff.mp hn
    obtain ⟨rest, -, hdeclared, -⟩ := exists_of_mem_found hms (get?_eq_some_iff.mp hwords)
    obtain ⟨header, hheader, hname⟩ := Option.map_eq_some_iff.mp hdeclared
    exact ((Prod.mk.inj hname).1 ▸ of_classHeader? hheader : ClassName n).noDot
  exact (qualifiedName_injective (hclass n hn) (hclass n' hn') heq).2

/-! ### Entities of several files -/

variable {files earlier later : List ScanResult} {ess : List (List ScanResult)}

theorem mem_entries_iff (hess : files.mapM ofFile = .ok ess) {key : String} :
    (key, e) ∈ ess.flatten.map entry ↔
    ∃ f ∈ files, ∃ p n, Yields f p n e ∧ key = qualifiedName p n := by
  constructor
  · intro hmem
    obtain ⟨e', he', heq⟩ := List.mem_map.mp hmem
    obtain ⟨rfl, rfl⟩ := Prod.mk.inj heq
    obtain ⟨es, hes, he⟩ := List.mem_flatten.mp he'
    obtain ⟨f, hf, hof⟩ := exists_of_mem_mapM hess hes
    obtain ⟨n, hn⟩ := exists_yields hof he
    exact ⟨f, hf, _, n, hn, hn.uniqueName_eq⟩
  · rintro ⟨f, hf, p, n, hn, rfl⟩
    obtain ⟨earlier, later, rfl⟩ := List.append_of_mem hf
    obtain ⟨ess₁, rest, -, hrest, rfl⟩ := mapM_append_eq_ok.mp hess
    obtain ⟨es, ess₂, hes, -, rfl⟩ := mapM_cons_eq_ok.mp hrest
    have he : e ∈ es := by
      obtain ⟨es', hes', he, -⟩ := hn
      rwa [Except.ok.inj (hes.symm.trans hes')]
    refine List.mem_map.mpr ⟨e, ?_, Prod.ext hn.uniqueName_eq rfl⟩
    simp [he]

theorem get?_of_last (hess : (earlier ++ file :: later).mapM ofFile = .ok ess)
    (hn : Yields file p n e) (hlast : ∀ f ∈ later, ∀ e', ¬ Yields f p n e') (rs : Results) :
    (rs.insertMany (ess.flatten.map entry)).get? (qualifiedName p n) = some e := by
  obtain ⟨ess₁, rest, -, hrest, rfl⟩ := mapM_append_eq_ok.mp hess
  obtain ⟨es, ess₂, hes, hlater, rfl⟩ := mapM_cons_eq_ok.mp hrest
  have he : e ∈ es := by
    obtain ⟨es', hes', he, -⟩ := hn
    rwa [Except.ok.inj (hes.symm.trans hes')]
  obtain ⟨es₁, es₂, rfl⟩ := List.append_of_mem he
  have hparts : (ess₁ ++ (es₁ ++ e :: es₂) :: ess₂).flatten.map entry =
      (ess₁.flatten ++ es₁).map entry ++ (qualifiedName p n, e) ::
        (es₂.map entry ++ ess₂.flatten.map entry) := by
    rw [← hn.uniqueName_eq]
    simp [entry]
  rw [hparts]
  refine get?_insertMany_last rs _ e ?_
  rintro ⟨key, e'⟩ hmem rfl
  rcases List.mem_append.mp hmem with hmem | hmem
  · -- in the same file there is no second class of the name
    have hnodup := nodup_names hes
    rw [List.map_append, List.map_cons] at hnodup
    have hfresh := (List.nodup_cons.mp (List.nodup_append.mp hnodup).2.1).1
    obtain ⟨e'', he'', heq⟩ := List.mem_map.mp hmem
    exact hfresh (List.mem_map.mpr ⟨e'', he'', (Prod.mk.inj heq).1.trans hn.uniqueName_eq.symm⟩)
  · obtain ⟨f, hf, p', n', hn', heq⟩ := (mem_entries_iff hlater).mp hmem
    obtain ⟨rfl, rfl⟩ := qualifiedName_injective hn.className.noDot hn'.className.noDot heq
    exact hlast f hf e' hn'

end Entities

/-! ### What a scanner keeps whatever happens -/

namespace Effect

variable {ε σ α β : Type} {I : σ → Prop} {Q : α → Prop} {R : β → Prop}

/-- The state that a computation leaves, also when it fails. -/
def endState (x : EStateM ε σ α) (s : σ) : σ :=
  match x s with
  | .ok _ t => t
  | .error _ t => t

/-- However `x` ends, it keeps what `I` says of the state, and `Q` holds of what it gives. -/
def Maintains (I : σ → Prop) (Q : α → Prop) (x : EStateM ε σ α) : Prop :=
  ∀ s, I s → I (endState x s) ∧ ∀ a t, x s = .ok a t → Q a

namespace Maintains

theorem pure {a : α} (h : Q a) : Maintains I Q (pure a : EStateM ε σ α) := by
  refine fun s hs => ⟨hs, fun b t hok => ?_⟩
  rwa [← (EStateM.Result.ok.inj hok).1]

theorem throw (e : ε) : Maintains I Q (throw e : EStateM ε σ α) :=
  fun _ hs => ⟨hs, fun _ _ hok => nomatch hok⟩

theorem get : Maintains I I (get : EStateM ε σ σ) := by
  refine fun s hs => ⟨hs, fun b t hok => ?_⟩
  rwa [← (EStateM.Result.ok.inj hok).1]

theorem modify {f : σ → σ} (h : ∀ s, I s → I (f s)) :
    Maintains I (fun _ => True) (modify f : EStateM ε σ PUnit) :=
  fun s hs => ⟨h s hs, fun _ _ _ => trivial⟩

theorem bind {x : EStateM ε σ α} {f : α → EStateM ε σ β} (hx : Maintains I Q x)
    (hf : ∀ a, Q a → Maintains I R (f a)) : Maintains I R (x >>= f) := by
  intro s hs
  obtain ⟨hend, hgives⟩ := hx s hs
  rw [endState] at hend
  cases hxs : x s with
  | error e t =>
    rw [hxs] at hend
    rw [endState, bind_of_error hxs]
    exact ⟨hend, fun _ _ hok => nomatch hok⟩
  | ok a t =>
    rw [hxs] at hend
    rw [endState, bind_of_ok hxs]
    exact hf a (hgives a t hxs) t hend

theorem forM {f : α → EStateM ε σ PUnit} {xs : List α}
    (h : ∀ x ∈ xs, Maintains I (fun _ => True) (f x)) :
    Maintains I (fun _ => True) (xs.forM f) := by
  induction xs with
  | nil => exact .pure trivial
  | cons x xs ih =>
    obtain ⟨hx, hxs⟩ := List.forall_mem_cons.mp h
    exact .bind hx fun _ _ => ih hxs

end Maintains

end Effect

namespace Scanner

open Phrase Entities

variable {ctx : ScanContext} {s : Scanner} {t t' : ScanState} {file : ScanResult}
  {st st' : Statistics} {r : ScanResult}

/-- Every result has its own name as its key, and every file a proper package. -/
structure WellNamed (s : Scanner) : Prop where
  key_eq : ∀ key r, s.results.get? key = some r → key = r.uniqueName
  package : ∀ key r, s.results.get? key = some r → r.isFile = true → PackageName r.moduleName

theorem WellNamed.insert (h : WellNamed s) (hr : r.isFile = true → PackageName r.moduleName) :
    WellNamed { s with results := s.results.insert r.uniqueName r } := by
  constructor <;> intro key r' hget
  all_goals
    dsimp only at hget
    rw [get?_insert] at hget
    split_ifs at hget with hkey
  · exact Option.some.inj hget ▸ hkey.symm
  · exact h.key_eq key r' hget
  · exact Option.some.inj hget ▸ hr
  · exact h.package key r' hget

theorem WellNamed.of_mem_ownFiles (h : WellNamed s) {analysis : Nat}
    (hfile : file ∈ (ownFiles s.results analysis).values) : PackageName file.moduleName := by
  obtain ⟨key, hget⟩ := mem_values_iff.mp hfile
  obtain ⟨hget, hown⟩ := get?_filter_eq_some_iff.mp hget
  exact h.package key file hget (Bool.and_eq_true_iff.mp hown).2

theorem maintains_tallied {α : Type} {x : Tallied α} {Q : α → Prop}
    (hQ : ∀ st a st', x st = .ok a st' → Q a) :
    Maintains (fun t : ScanState => WellNamed t.scanner) Q (ScanM.tallied x) := by
  intro t ht
  rw [endState, ScanM.tallied]
  cases hx : x t.statistics with
  | ok a st =>
    refine ⟨ht, fun b t' hok => ?_⟩
    rw [← (EStateM.Result.ok.inj hok).1]
    exact hQ _ a st hx
  | error e st => exact ⟨ht, fun _ _ hok => by cases hok⟩

theorem of_packageOf {words : List String} {p : String} (h : packageOf words st = .ok p st') :
    PackageName p := by
  obtain ⟨ms, st₁, hms, h⟩ := bind_eq_ok.mp h
  obtain ⟨seen, -, heq⟩ := except_bind_eq_ok.mp (of_lift hms)
  obtain rfl := Except.ok.inj heq
  obtain ⟨names, st₂, hnames, h⟩ := bind_eq_ok.mp h
  rw [Tallied.collect_pure] at hnames
  obtain rfl := Except.ok.inj (Tallied.script_eq_ok_iff.mp hnames).1
  obtain ⟨rfl, -⟩ := EStateM.Result.ok.inj h
  intro c hc
  cases hlast : List.getLast? _ with
  | none =>
    rw [hlast] at hc
    simp at hc
  | some name =>
    rw [hlast] at hc
    have hmem := List.mem_of_getLast? hlast
    rw [List.flatMap_singleton'] at hmem
    obtain ⟨mention, hmention, hfound⟩ := List.mem_filterMap.mp hmem
    obtain ⟨⟨word, rest⟩, -, rfl⟩ := List.mem_map.mp hmention
    cases hname : packageName? (joinWords (word :: rest)) with
    | none => simp [hname, Mention.ofOption, Mention.found?] at hfound
    | some name' =>
      obtain rfl : name' = name := by simpa [hname, Mention.ofOption, Mention.found?] using hfound
      exact of_packageName? hname c hc

theorem packageName_of_fileResult {language : Language} {source : SourceFile}
    (h : fileResult language ctx source st = .ok r st') : PackageName r.moduleName := by
  obtain ⟨dir, st₁, -, h⟩ := bind_eq_ok.mp h
  dsimp only at h
  split at h
  · obtain ⟨p, st₂, hp, h⟩ := bind_eq_ok.mp h
    obtain ⟨imports, st₃, -, h⟩ := bind_eq_ok.mp h
    obtain ⟨rfl, -⟩ := EStateM.Result.ok.inj h
    exact of_packageOf hp
  · obtain ⟨p, st₂, hp, h⟩ := bind_eq_ok.mp h
    obtain ⟨imports, st₃, -, h⟩ := bind_eq_ok.mp h
    obtain ⟨rfl, -⟩ := EStateM.Result.ok.inj h
    obtain ⟨rfl, -⟩ := EStateM.Result.ok.inj hp
    exact fun c hc => by simp at hc

theorem maintains_scanFile (ctx : ScanContext) (source : SourceFile) :
    Maintains (fun t : ScanState => WellNamed t.scanner) (fun _ => True) (scanFile ctx source) := by
  refine .bind .get fun u _ => .bind
    (maintains_tallied fun _ r _ hr => packageName_of_fileResult hr) fun r hr => ?_
  exact .bind (.modify fun t ht => ht.insert fun _ => hr) fun _ _ => .pure trivial

theorem maintains_linkFiles (ctx : ScanContext) :
    Maintains (fun t : ScanState => WellNamed t.scanner) (fun _ => True) (linkFiles ctx) := by
  refine .bind .get fun u _ => ?_
  split_ifs
  · refine .modify fun t ht => ⟨fun key r hget => ?_, fun key r hget => ?_⟩
    all_goals
      dsimp only at hget
      rw [get?_mapValues] at hget
      obtain ⟨r₀, hget₀, rfl⟩ := Option.map_eq_some_iff.mp hget
    · rw [ht.key_eq key r₀ hget₀]
      split_ifs <;> rfl
    · have hpackage := ht.package key r₀ hget₀
      split_ifs <;> exact hpackage
  · exact .pure trivial

theorem maintains_scanClasses (file : ScanResult) :
    Maintains (fun t : ScanState => WellNamed t.scanner) (fun _ => True) (scanClasses file) := by
  refine .bind (Q := fun _ => True) (maintains_tallied fun _ _ _ _ => trivial) fun ms _ => ?_
  refine .bind (Q := fun _ => True) (maintains_tallied fun _ _ _ _ => trivial) fun _ _ => .forM
    fun c _ => ?_
  refine .bind (Q := fun _ => True) (maintains_tallied fun _ _ _ _ => trivial) fun parents _ => ?_
  refine .bind (Q := fun _ => True) (maintains_tallied fun _ _ _ _ => trivial) fun inherits _ => ?_
  -- an entity is no file
  exact .modify fun t ht => ht.insert fun hfile => nomatch hfile

theorem maintains_scanEntities (ctx : ScanContext) :
    Maintains (fun t : ScanState => WellNamed t.scanner) (fun _ => True) (scanEntities ctx) := by
  refine .bind .get fun u _ => ?_
  dsimp only
  split_ifs
  · exact .forM fun file _ => maintains_scanClasses file
  · exact .throw _

/-- The states of a scanner for the language with entities. It starts without results, and may be
emptied; its files can be scanned, linked and looked through for entities, whether that ends well or
not. -/
inductive Reached : Scanner → Prop
  | new : Reached { language := .java }
  | scanFile {t : ScanState} (ctx : ScanContext) (source : SourceFile) :
      Reached t.scanner → Reached (endState (Scanner.scanFile ctx source) t).scanner
  | linkFiles {t : ScanState} (ctx : ScanContext) : Reached t.scanner →
    Reached (endState (Scanner.linkFiles ctx) t).scanner
  | scanEntities {t : ScanState} (ctx : ScanContext) :
      Reached t.scanner → Reached (endState (Scanner.scanEntities ctx) t).scanner

theorem Reached.wellNamed (h : Reached s) : WellNamed s := by
  induction h with
  | new => exact ⟨fun _ _ hget => (nomatch hget), fun _ _ hget => (nomatch hget)⟩
  | scanFile ctx source _ ih => exact (maintains_scanFile ctx source _ ih).1
  | linkFiles ctx _ ih => exact (maintains_linkFiles ctx _ ih).1
  | scanEntities ctx _ ih => exact (maintains_scanEntities ctx _ ih).1

/-! ### The entities that are added -/

theorem of_forM_classes {cs : List (String × List String)} (h : (cs.forM fun (name, words) => do
      let parents ← ScanM.tallied (Tallied.lift (parents words))
      let inherits ← ScanM.tallied (Tallied.collect (fun p => pure [p]) parents)
      let entity := entityOf file name words inherits
      ScanM.modifyResults fun rs => rs.insert entity.uniqueName entity) t = .ok () t') :
    ∃ es, cs.mapM (ofClass file) = .ok es ∧ t' = withEntities t es t'.statistics := by
  induction cs generalizing t with
  | nil =>
    obtain ⟨-, rfl⟩ := EStateM.Result.ok.inj h
    exact ⟨[], rfl, rfl⟩
  | cons c cs ih =>
    obtain ⟨⟨⟩, t₁, hclass, hrest⟩ := bind_eq_ok.mp h
    obtain ⟨ps, u, hps, hclass⟩ := bind_eq_ok.mp hclass
    obtain ⟨st, hlift, rfl⟩ := tallied_eq_ok_iff.mp hps
    obtain ⟨inherits, u, hinherits, hclass⟩ := bind_eq_ok.mp hclass
    obtain ⟨st', hcollect, rfl⟩ := tallied_eq_ok_iff.mp hinherits
    rw [Tallied.collect_pure, List.flatMap_singleton'] at hcollect
    obtain rfl := Except.ok.inj (Tallied.script_eq_ok_iff.mp hcollect).1
    obtain ⟨-, rfl⟩ := EStateM.Result.ok.inj hclass
    obtain ⟨es, hes, ht'⟩ := ih hrest
    refine ⟨_, mapM_cons_eq_ok.mpr ⟨_, es, ?_, hes, rfl⟩, ht'⟩
    rw [ofClass, of_lift hlift]
    rfl

theorem exists_of_scanClasses (h : scanClasses file t = .ok () t') :
    ∃ es, ofFile file = .ok es ∧ t' = withEntities t es t'.statistics := by
  obtain ⟨ms, t₁, hms, h⟩ := bind_eq_ok.mp h
  obtain ⟨st, hlift, rfl⟩ := tallied_eq_ok_iff.mp hms
  obtain ⟨_, t₂, hcount, h⟩ := bind_eq_ok.mp h
  obtain ⟨st', -, rfl⟩ := tallied_eq_ok_iff.mp hcount
  obtain ⟨es, hes, ht'⟩ := of_forM_classes h
  exact ⟨es, except_bind_eq_ok.mpr ⟨ms, of_lift hlift, hes⟩, ht'⟩

theorem exists_of_scanEntities (h : scanEntities ctx t = .ok () t') :
    ∃ ess, (ownFiles t.scanner.results ctx.analysis).values.mapM ofFile = .ok ess ∧
      t' = withEntities t ess.flatten t'.statistics := by
  have hfiles : ∀ (files : List ScanResult) (t : ScanState), files.forM scanClasses t = .ok () t' →
      ∃ ess, files.mapM ofFile = .ok ess ∧ t' = withEntities t ess.flatten t'.statistics := by
    intro files
    induction files with
    | nil =>
      intro t h
      obtain ⟨-, rfl⟩ := EStateM.Result.ok.inj h
      exact ⟨[], rfl, rfl⟩
    | cons file files ih =>
      intro t h
      obtain ⟨⟨⟩, t₁, hfile, hrest⟩ := bind_eq_ok.mp h
      obtain ⟨es, hes, ht₁⟩ := exists_of_scanClasses hfile
      obtain ⟨ess, hess, ht'⟩ := ih t₁ hrest
      refine ⟨es :: ess, mapM_cons_eq_ok.mpr ⟨es, ess, hes, hess, rfl⟩, ht'.trans ?_⟩
      rw [ht₁]
      simp only [withEntities, List.flatten_cons, List.map_append, insertMany, List.foldl_append]
  rw [scanEntities, get_bind] at h
  split_ifs at h
  · exact hfiles _ t h
  · cases h

/-- Looking for entities leaves every file as it was, as long as each has a name that no class can
have. The keys that it adds are the names of the classes in their packages, different ones for
different classes, and of files that have the same class in the same package the last one counts. -/
theorem scanEntities_keys (ctx : ScanContext) (t t' : ScanState) (hreached : Reached t.scanner)
    (hnames : ∀ key r, t.scanner.results.get? key = some r → r.isFile = true →
      ∃ c ∈ r.uniqueName.toList, Text.asciiAlnum c = false ∧ c ≠ '.')
    (hok : scanEntities ctx t = .ok () t') :
    (∀ key r, r.isFile = true → (t'.scanner.results.get? key = some r ↔
      t.scanner.results.get? key = some r)) ∧
    (∀ key, key ∈ t'.scanner.results.keys ↔ key ∈ t.scanner.results.keys ∨
      ∃ f ∈ (ownFiles t.scanner.results ctx.analysis).values, ∃ p n e, Yields f p n e ∧
        key = qualifiedName p n) ∧
    (∀ f ∈ (ownFiles t.scanner.results ctx.analysis).values,
      ∀ f' ∈ (ownFiles t.scanner.results ctx.analysis).values, ∀ p n e p' n' e', Yields f p n e →
        Yields f' p' n' e' → qualifiedName p n = qualifiedName p' n' → p = p' ∧ n = n') ∧
    ∀ earlier f later p n e, (ownFiles t.scanner.results ctx.analysis).values =
      earlier ++ f :: later → Yields f p n e →
      (∀ f' ∈ later, ∀ e', ¬ Yields f' p n e') →
      t'.scanner.results.get? (qualifiedName p n) = some e := by
  obtain ⟨ess, hess, ht'⟩ := exists_of_scanEntities hok
  have hresults : t'.scanner.results = t.scanner.results.insertMany (ess.flatten.map entry) := by
    rw [ht']
    rfl
  have hnamed := hreached.wellNamed
  rw [hresults]
  refine ⟨fun key r hfile => ⟨fun hget => ?_, fun hget => ?_⟩, fun key => ?_, ?_, ?_⟩
  · refine (of_get?_insertMany hget).resolve_left fun hmem => ?_
    obtain ⟨f, -, p, n, hn, -⟩ := (mem_entries_iff hess).mp hmem
    rw [hn.not_isFile] at hfile
    cases hfile
  · rw [get?_insertMany_of_not_mem, hget]
    rintro ⟨key', e⟩ hmem rfl
    obtain ⟨f, hf, p, n, hn, rfl⟩ := (mem_entries_iff hess).mp hmem
    -- the name of the file holds a character that no name of an entity has
    obtain ⟨c, hc, hplain, hdot⟩ := hnames _ r hget hfile
    rw [← hnamed.key_eq _ r hget] at hc
    have hchar := hn.packageName (hnamed.of_mem_ownFiles hf) c hc
    simp [nameChar, hplain, hdot] at hchar
  · rw [mem_keys_insertMany]
    refine or_congr_right ⟨?_, ?_⟩
    · rintro ⟨e, hmem⟩
      obtain ⟨f, hf, p, n, hn, hkey⟩ := (mem_entries_iff hess).mp hmem
      exact ⟨f, hf, p, n, e, hn, hkey⟩
    · rintro ⟨f, hf, p, n, e, hn, hkey⟩
      exact ⟨e, (mem_entries_iff hess).mpr ⟨f, hf, p, n, hn, hkey⟩⟩
  · intro f _ f' _ p n e p' n' e' hn hn' heq
    exact qualifiedName_injective hn.className.noDot hn'.className.noDot heq
  · intro earlier f later p n e hfiles hn hlast
    rw [hfiles] at hess
    exact get?_of_last hess hn hlast t.scanner.results

end Scanner

namespace Sample

def classFileIn (dir content : String) : Scanner.SourceFile where
  name := "A.java"
  path := "/w/proj/" ++ dir ++ "/A.java"
  content := content

def sameClass : ScanState :=
  endState (Scanner.scanFile classContext
    (classFileIn "b" "package q;\nclass A \x7b int y; \x7d\n"))
    (endState (Scanner.scanFile classContext
      (classFileIn "a" "package q;\nclass A extends B \x7b int x; \x7d\n")) javaScanner)

def classesOf (f : ScanResult) : Option (List (String × Option String × List String)) :=
  (ofFile f).toOption.map fun es =>
    es.map fun e => (e.moduleName, e.entity?.map EntityDetails.entityName, e.inherits)

/-- The class of the last file is kept, the one without a parent. -/
theorem scanEntities_keys_sameClass :
    ∃ t' e, Scanner.scanEntities classContext sameClass = .ok () t' ∧
    t'.scanner.results.get? "q.A" = some e ∧ e.inherits = [] ∧
    ∀ key r, r.isFile = true → (t'.scanner.results.get? key = some r ↔
      sameClass.scanner.results.get? key = some r) := by
  obtain ⟨hends, hodd, hfiles⟩ : (final? (Scanner.scanEntities classContext) sameClass).isSome =
    true ∧
      sameClass.scanner.results.entries.all (fun entry =>
        entry.2.uniqueName.toList.any fun c => !Text.asciiAlnum c && c != '.') = true ∧
      (Scanner.ownFiles sameClass.scanner.results classContext.analysis).values.map classesOf =
        [some [("q", some "A", ["B"])], some [("q", some "A", [])]] := by decide +kernel
  obtain ⟨t', ht'⟩ := Option.isSome_iff_exists.mp hends
  obtain ⟨f, rest, hvalues, -, hrest⟩ := List.map_eq_cons_iff.mp hfiles
  obtain ⟨g, none, rfl, hclasses, hnone⟩ := List.map_eq_cons_iff.mp hrest
  obtain rfl := List.map_eq_nil_iff.mp hnone
  obtain ⟨es, hes, hshown⟩ := Option.map_eq_some_iff.mp hclasses
  obtain ⟨e, others, rfl, he, -⟩ := List.map_eq_cons_iff.mp hshown
  obtain ⟨hpackage, he⟩ := Prod.mk.inj he
  obtain ⟨hname, hinherits⟩ := Prod.mk.inj he
  have hof : ofFile g = .ok (e :: others) := by
    cases hcase : ofFile g with
    | error fault =>
      rw [hcase] at hes
      cases hes
    | ok found =>
      rw [hcase] at hes
      rw [Option.some.inj hes]
  obtain ⟨hkept, -, -, hlast⟩ :=
    Scanner.scanEntities_keys classContext sameClass t' (.scanFile _ _ (.scanFile _ _ .new))
    (fun key r hget _ => by
      have hr := List.all_eq_true.mp hodd (key, r) (get?_eq_some_iff.mp hget)
      simpa using hr) (of_final? ht')
  have hkey :=
    hlast [f] g [] "q" "A" e hvalues ⟨_, hof, List.mem_cons_self, hpackage, hname⟩ (by simp)
  exact ⟨t', e, of_final? ht', hkey, hinherits, hkept⟩

end Sample

end CodeAtlas
