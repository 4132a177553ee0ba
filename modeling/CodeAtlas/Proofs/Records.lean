import CodeAtlas.Proofs.Growth
import CodeAtlas.Proofs.Places

/-!
# What the events of a walk add up to

Each part of a survey grows by what the events say about it, in their order: the graph by branches
(`Event.branch?`), the nodes by directories and files (`Event.node?`), the names of files by those
that are scanned (`Event.scanned?`). One event is `Survey.record`, described by `record_eq`, and all
events together follow from it part by part (`part_foldl_record`).
-/

namespace CodeAtlas

open OrderedMap

namespace Survey

open FileTree Resolve

/-! ### What one event adds -/

def Event.node? (source : String) (e : Event) : Option FileNode :=
  match e with
  | directory .. => some ⟨true, projectName source e.path, none⟩
  | scanned _ _ content => some ⟨false, projectName source e.path, some content⟩
  | skipped .. => none

def nodesOf (source : String) (es : List Event) : List FileNode :=
  ⟨true, nodeName source [], none⟩ :: es.filterMap (Event.node? source)

def attributesOf (n : FileNode) : List (String × Value) :=
  if n.isDirectory then directoryAttributes n.name else fileAttributes n.name

/-- The branch that an event adds to the graph. -/
def Event.branch? (source : String) (e : Event) : Option Digraph.Branch :=
  (e.node? source).map fun n => ⟨projectName source e.root, n.name, attributesOf n⟩

theorem map_branch? {β : Type} (g : String → List (String × Value) → β) (source : String)
    (es : List Event) : ((es.filterMap (Event.branch? source)).map fun b => g b.name b.attributes) =
      (es.filterMap (Event.node? source)).map fun n => g n.name (attributesOf n) := by
  simp only [List.map_filterMap, Event.branch?, Option.map_map, Function.comp_def]

def Event.scanned? (source : String) (e : Event) : Option (String × String) :=
  match e with
  | scanned .. => some (projectName source e.root, projectName source e.path)
  | _ => none

def scannedEntries (source : String) (es : List Event) : List (String × String) :=
  es.filterMap (Event.scanned? source)

def Event.isFile : Event → Bool
  | directory .. => false
  | _ => true

def Event.isSkipped : Event → Bool
  | skipped .. => true
  | _ => false

def fileUnder (m : OrderedMap String (List String)) (entry : String × String) :
    OrderedMap String (List String) :=
  m.insert entry.1 (m.getD entry.1 [] ++ [entry.2])

def noteName (names : List String) (entry : String × String) : List String :=
  if names.contains entry.2 then names else names ++ [entry.2]

variable {source : String} {s : Survey} {e : Event} {es : List Event}
  {entries : List (String × String)} {root name : String} {disk : Disk} {f : Filters}

theorem isFile_fileEvent : (fileEvent disk f root name).isFile = true := by
  rw [fileEvent]
  split_ifs <;> rfl

theorem Event.name_of_node? {n : FileNode} (h : e.node? source = some n) :
    n.name = projectName source e.path := by
  cases e with
  | directory root name => rw [← Option.some.inj h]
  | scanned root name content => rw [← Option.some.inj h]
  | skipped root name => cases h

theorem Event.eq_of_scanned? {entry : String × String} (h : e.scanned? source = some entry) :
    entry = (projectName source e.root, projectName source e.path) := by
  cases e with
  | scanned root name content => exact (Option.some.inj h).symm
  | directory root name => cases h
  | skipped root name => cases h

/-- An event of an entry whose directory has a path in normal form. -/
structure Event.Normal (e : Event) : Prop where
  root : Path.Normal e.root
  name : PathName e.name

theorem Regular.normal_event {ls : List Listing} (h : Regular disk f source)
    (hls : listings disk f source = .ok ls) (he : e ∈ events disk f ls) : e.Normal := by
  obtain ⟨ns, hroot, -, hnames, -⟩ := h.exists_place hls he
  obtain ⟨hns, hname⟩ := List.forall_mem_append.mp hnames
  refine ⟨?_, hname _ (List.mem_singleton_self _)⟩
  rw [hroot]
  exact h.normal.descend hns

theorem addSubdirectory_eq (hroot : Path.Normal root) (hname : PathName name) :
    addSubdirectory source root s name =
      (s.addDirectory (projectName source (Path.join root name))).addEdge (projectName source root)
        (projectName source (Path.join root name)) := by
  have hnode : Path.normalize root ++ "/" ++ Text.replace (Path.join root name)
      (Path.parent (Path.join root name) ++ "/") "" = Path.join root name := by
    rw [hroot.parent_join hname, hroot.replace_join hname, hroot.normalize, hroot.join hname]
  rw [addSubdirectory, hnode, hroot.normalize]

theorem record_eq (h : e.Normal) : record source s e =
    { view :=
        { s.view with
          fileNodes :=
  (e.node? source).elim s.view.fileNodes fun n => s.view.fileNodes.insert n.name n
          graph := (e.branch? source).elim s.view.graph s.view.graph.graft }
      scannedNames := (e.scanned? source).elim s.scannedNames (noteName s.scannedNames)
      filesIn := (e.scanned? source).elim s.filesIn (fileUnder s.filesIn)
      scanned := (e.scanned? source).elim s.scanned fun _ => s.scanned + 1
      skipped := s.skipped + if e.isSkipped then 1 else 0 } := by
  cases e with
  | directory root name =>
    obtain ⟨hroot, hname⟩ : Path.Normal root ∧ PathName name := ⟨h.root, h.name⟩
    rw [record, addSubdirectory_eq hroot hname]
    rfl
  | scanned root name content =>
    have hroot : Path.normalize root = root := Path.Normal.normalize h.root
    simp only [record, addFile, recordName, hroot]
    rfl
  | skipped root name => rfl

/-! ### What all events add -/

/-- A part of a survey that each event changes by what it tells about that part. -/
theorem part_foldl_record {τ β : Type} (part : Survey → τ) {tells : Event → Option β}
    {change : τ → β → τ} (hpart : ∀ (e : Event) s, e.Normal →
      part (record source s e) = (tells e).elim (part s) (change (part s)))
    (h : ∀ e ∈ es, e.Normal) (s : Survey) :
    part (es.foldl (record source) s) = (es.filterMap tells).foldl change (part s) := by
  induction es generalizing s with
  | nil => rfl
  | cons e es ih =>
    obtain ⟨he, hes⟩ := List.forall_mem_cons.mp h
    rw [List.foldl_cons, ih hes, hpart e s he]
    cases htells : tells e with
    | none => rw [List.filterMap_cons_none htells]; rfl
    | some b => rw [List.filterMap_cons_some htells]; rfl

section Fold

variable (h : ∀ e ∈ es, e.Normal)

include h

theorem graph_foldl_record : (es.foldl (record source) s).view.graph =
    (es.filterMap (Event.branch? source)).foldl Digraph.graft s.view.graph :=
  part_foldl_record (fun s => s.view.graph) (fun e s he => by rw [record_eq he]) h s

theorem fileNodes_foldl_record : (es.foldl (record source) s).view.fileNodes =
    s.view.fileNodes.insertMany ((es.filterMap (Event.node? source)).map fun n => (n.name, n)) := by
  rw [insertMany, List.foldl_map]
  exact part_foldl_record (fun s => s.view.fileNodes) (fun e s he => by rw [record_eq he]) h s

theorem kind_foldl_record : (es.foldl (record source) s).view.kind = s.view.kind := by
  induction es generalizing s with
  | nil => rfl
  | cons e es ih =>
    obtain ⟨he, hes⟩ := List.forall_mem_cons.mp h
    rw [List.foldl_cons, ih hes, record_eq he]

theorem scannedNames_foldl_record : (es.foldl (record source) s).scannedNames =
    (scannedEntries source es).foldl noteName s.scannedNames :=
  part_foldl_record Survey.scannedNames (fun e s he => by rw [record_eq he]) h s

theorem filesIn_foldl_record : (es.foldl (record source) s).filesIn =
    (scannedEntries source es).foldl fileUnder s.filesIn :=
  part_foldl_record Survey.filesIn (fun e s he => by rw [record_eq he]) h s

theorem scanned_foldl_record : (es.foldl (record source) s).scanned =
    s.scanned + (scannedEntries source es).length := by
  have hfold : (es.foldl (record source) s).scanned =
      (scannedEntries source es).foldl (fun n _ => n + 1) s.scanned :=
    part_foldl_record Survey.scanned (fun e s he => by rw [record_eq he]) h s
  rw [hfold, List.foldl_add_const, Nat.one_mul]

theorem skipped_foldl_record :
    (es.foldl (record source) s).skipped = s.skipped + es.countP Event.isSkipped := by
  induction es generalizing s with
  | nil => rfl
  | cons e es ih =>
    obtain ⟨he, hes⟩ := List.forall_mem_cons.mp h
    rw [List.foldl_cons, ih hes, record_eq he, List.countP_cons]
    simp only
    omega

end Fold

theorem length_filter_isFile (source : String) (es : List Event) :
    (es.filter Event.isFile).length =
      (scannedEntries source es).length + es.countP Event.isSkipped := by
  induction es with
  | nil => rfl
  | cons e es ih =>
    rw [scannedEntries] at ih ⊢
    rw [List.filter_cons, List.filterMap_cons, List.countP_cons]
    cases e with
    | directory root name => exact ih
    | scanned root name content =>
      simp only [Event.isFile, Event.scanned?, Event.isSkipped, if_true, List.length_cons, ih]
      simp +arith
    | skipped root name =>
      simp only [Event.isFile, Event.scanned?, Event.isSkipped, if_true, List.length_cons, ih]
      omega

/-! ### Names in lists and under their directories -/

theorem foldl_noteName {names : List String}
    (hnd : (names ++ entries.map Prod.snd).Nodup) :
    entries.foldl noteName names = names ++ entries.map Prod.snd := by
  induction entries generalizing names with
  | nil => simp
  | cons e entries ih =>
    have hnew : e.2 ∉ names := fun hmem => (List.nodup_append.mp hnd).2.2 _ hmem _ (by simp) rfl
    rw [List.map_cons, List.append_cons] at hnd ⊢
    rw [List.foldl_cons, noteName, if_neg (by simpa using hnew), ih hnd]

theorem getD_foldl_fileUnder (entries : List (String × String))
    (m : OrderedMap String (List String)) (k : String) :
    (entries.foldl fileUnder m).getD k [] =
      m.getD k [] ++ (entries.filter fun e => e.1 == k).map Prod.snd := by
  induction entries generalizing m with
  | nil => simp
  | cons e entries ih =>
    rw [List.foldl_cons, ih, fileUnder, getD_eq, get?_insert, List.filter_cons]
    by_cases hk : e.1 = k
    · subst hk
      simp
    · simp [hk, getD_eq]

theorem mem_keys_foldl_fileUnder {m : OrderedMap String (List String)} {k : String} :
    k ∈ (entries.foldl fileUnder m).keys ↔ k ∈ m.keys ∨ k ∈ entries.map Prod.fst := by
  induction entries generalizing m with
  | nil => simp
  | cons e entries ih =>
    rw [List.foldl_cons, ih, fileUnder, keys_insert, List.map_cons, List.mem_cons]
    split_ifs with hmem
    · constructor
      · rintro (h | h)
        · exact .inl h
        · exact .inr (.inr h)
      · rintro (h | rfl | h)
        · exact .inl h
        · exact .inl hmem
        · exact .inr h
    · rw [List.mem_append, List.mem_singleton, or_assoc]

theorem flatten_values_fileUnder (m : OrderedMap String (List String)) (entry : String × String) :
    (fileUnder m entry).values.flatten.Perm (m.values.flatten ++ [entry.2]) := by
  obtain ⟨k, x⟩ := entry
  have hput : ∀ (es : List (String × List String)),
      ((put k ((lookup k es).getD [] ++ [x]) es).map Prod.snd).flatten.Perm
        ((es.map Prod.snd).flatten ++ [x]) := by
    intro es
    induction es with
    | nil => simp [put, lookup]
    | cons e es ih =>
      rw [put, lookup]
      split_ifs with hk
      · simp only [List.map_cons, List.flatten_cons, Option.getD_some, List.append_assoc]
        exact (List.perm_append_comm.append_left _)
      · simp only [List.map_cons, List.flatten_cons, List.append_assoc]
        exact ih.append_left _
  exact hput m.entries

theorem flatten_values_foldl_fileUnder (entries : List (String × String))
    (m : OrderedMap String (List String)) :
    (entries.foldl fileUnder m).values.flatten.Perm (m.values.flatten ++ entries.map Prod.snd) := by
  induction entries generalizing m with
  | nil => simp
  | cons e entries ih =>
    rw [List.foldl_cons, List.map_cons, List.append_cons]
    exact (ih _).trans ((flatten_values_fileUnder m e).append_right _)

end Survey

end CodeAtlas
