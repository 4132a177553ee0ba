import CodeAtlas.Proofs.DegreeFigures

/-!
# Numbers of communities

Whatever search has found the communities of a graph, their metric numbers them anew by their sizes.
The new numbers are those below the number of communities, nodes keep their company, no community is
greater than the one before it, and equally great ones keep their order
(`Communities.IsPartition.renumbers_relabel`). Each node is filed once, under the key for the kind
of its graph and for what it is; only in a graph of changes that come together nodes that are no
results are left out (`Work.measureCommunitiesBy_numbers`).
-/

namespace CodeAtlas

open Effect

namespace Communities

variable {g : Digraph} {labels new : List (String × Nat)} {k : Nat}

/-- The nodes of a graph are numbered with the numbers below `k`, each of which is used. -/
structure IsPartition (g : Digraph) (labels : List (String × Nat)) (k : Nat) : Prop where
  nodes : (labels.map Prod.fst).Perm g.names
  numbers : ∀ c, c ∈ labels.map Prod.snd ↔ c < k

/-- The communities have been numbered anew, with the same numbers: the greater ones first, and
equally great ones in their old order. -/
structure Renumbers (labels new : List (String × Nat)) (k : Nat) : Prop where
  nodes : (new.map Prod.fst).Perm (labels.map Prod.fst)
  numbers : ∀ c, c ∈ new.map Prod.snd ↔ c < k
  same : ∀ e ∈ labels, ∀ e' ∈ labels, ∀ c c', (e.1, c) ∈ new → (e'.1, c') ∈ new →
    (c = c' ↔ e.2 = e'.2)
  sizes : ∀ c, sizeOf new (c + 1) ≤ sizeOf new c
  ties : ∀ e ∈ labels, ∀ e' ∈ labels, ∀ c c', (e.1, c) ∈ new → (e'.1, c') ∈ new →
    sizeOf labels e.2 = sizeOf labels e'.2 → e.2 < e'.2 → c < c'

/-! ### The order of communities -/

theorem count_le_iff {b : Nat} : count labels ≤ b ↔ 0 < b ∧ ∀ c ∈ labels.map Prod.snd, c < b := by
  have hfold : ∀ (cs : List Nat) (top : Nat), cs.foldl max top < b ↔ top < b ∧ ∀ c ∈ cs, c < b := by
    intro cs
    induction cs with
    | nil => simp
    | cons c cs ih =>
      intro top
      rw [List.foldl_cons, ih, Nat.max_lt, List.forall_mem_cons, and_assoc]
  exact hfold _ 0

theorem count_eq (hnumbers : ∀ c, c ∈ labels.map Prod.snd ↔ c < k) (hk : 0 < k) :
    count labels = k := by
  refine le_antisymm (count_le_iff.mpr ⟨hk, fun c hc => (hnumbers c).mp hc⟩) ?_
  exact Nat.le_of_pred_lt ((count_le_iff.mp le_rfl).2 (k - 1) ((hnumbers _).mpr (by omega)))

theorem bySize_perm (labels : List (String × Nat)) :
    (bySize labels).Perm (List.range (count labels)) :=
  List.mergeSort_perm _ _

theorem nodup_bySize (labels : List (String × Nat)) : (bySize labels).Nodup :=
  (bySize_perm labels).nodup_iff.mpr List.nodup_range

theorem trans_total_sizeOf (labels : List (String × Nat)) :
    (∀ a b c, decide (sizeOf labels b ≤ sizeOf labels a) = true →
      decide (sizeOf labels c ≤ sizeOf labels b) = true →
      decide (sizeOf labels c ≤ sizeOf labels a) = true) ∧
    ∀ a b, (decide (sizeOf labels b ≤ sizeOf labels a) ||
      decide (sizeOf labels a ≤ sizeOf labels b)) = true := by
  simp only [Bool.or_eq_true, decide_eq_true_eq]
  exact ⟨fun _ _ _ hab hbc => hbc.trans hab, fun _ _ => le_total ..⟩

theorem pairwise_bySize (labels : List (String × Nat)) :
    (bySize labels).Pairwise fun a b => sizeOf labels b ≤ sizeOf labels a := by
  obtain ⟨htrans, htotal⟩ := trans_total_sizeOf labels
  exact (List.pairwise_mergeSort htrans htotal (List.range (count labels))).imp of_decide_eq_true

/-- Of two equally great communities the one with the smaller number comes first. -/
theorem lt_of_bySize {a b i k : Nat} (ha : (bySize labels)[i]? = some a)
    (hb : (bySize labels)[k]? = some b) (hsize : sizeOf labels a = sizeOf labels b) (hlt : a < b) :
    i < k := by
  have hb' : b < count labels :=
    List.mem_range.mp ((bySize_perm labels).mem_iff.mp (List.mem_of_getElem? hb))
  have hrange : [a, b].Sublist (List.range (count labels)) := by
    have hpair : ([a] ++ [b]).Sublist (List.range b ++ [b]) :=
      (List.singleton_sublist.mpr (List.mem_range.mpr hlt)).append (.refl [b])
    rw [← List.range_succ] at hpair
    exact hpair.trans (List.range_sublist.mpr hb')
  obtain ⟨htrans, htotal⟩ := trans_total_sizeOf labels
  have hsorted : [a, b].Sublist (bySize labels) :=
    List.pair_sublist_mergeSort htrans htotal (by simp [hsize]) hrange
  -- The list falls into two parts, with `a` in the first one and `b` in the second one.
  obtain ⟨first, second, hparts, hfirst, hsecond⟩ := List.cons_sublist_iff.mp hsorted
  have hnd := nodup_bySize labels
  rw [hparts] at ha hb hnd
  have hdisjoint := List.disjoint_of_nodup_append hnd
  have hi : i < first.length := by
    by_contra hge
    rw [List.getElem?_append_right (not_lt.mp hge)] at ha
    exact hdisjoint hfirst (List.mem_of_getElem? ha)
  have hk : first.length ≤ k := by
    by_contra hlt
    rw [List.getElem?_append_left (not_le.mp hlt)] at hb
    exact hdisjoint (List.mem_of_getElem? hb) (List.singleton_sublist.mp hsecond)
  exact hi.trans_le hk

/-! ### New numbers -/

theorem mem_relabel {n : String} {c : Nat} :
    (n, c) ∈ relabel labels ↔ ∃ old, (bySize labels)[c]? = some old ∧ (n, old) ∈ labels := by
  simp [relabel, List.mem_zipIdx_iff_getElem?]

theorem flatMap_filter_perm {order : List Nat} (hnd : order.Nodup)
    (hmem : ∀ e ∈ labels, e.2 ∈ order) :
    (order.flatMap fun c => labels.filter fun e => e.2 == c).Perm labels := by
  induction order generalizing labels with
  | nil =>
    obtain rfl : labels = [] :=
      List.eq_nil_iff_forall_not_mem.mpr fun e he => List.not_mem_nil (hmem e he)
    exact .refl _
  | cons c order ih =>
    obtain ⟨hc, horder⟩ := List.nodup_cons.mp hnd
    have hrest : (order.flatMap fun d => labels.filter fun e => e.2 == d).Perm
        (labels.filter fun e => !(e.2 == c)) := by
      refine .trans (.of_eq ?_) (ih horder fun e he => ?_)
      · refine List.flatMap_congr fun d hd => ?_
        rw [List.filter_filter]
        refine List.filter_congr fun e _ => ?_
        have hne : d ≠ c := fun h => hc (h ▸ hd)
        by_cases hed : e.2 = d <;> simp [hed, hne]
      · obtain ⟨he, hne⟩ := List.mem_filter.mp he
        refine (List.mem_cons.mp (hmem e he)).resolve_left ?_
        simpa using hne
    rw [List.flatMap_cons]
    exact (hrest.append_left _).trans (List.filter_append_perm _ labels)

theorem relabel_perm (labels : List (String × Nat)) :
    ((relabel labels).map Prod.fst).Perm (labels.map Prod.fst) := by
  have hmem : ∀ e ∈ labels, e.2 ∈ bySize labels := by
    intro e he
    rw [(bySize_perm labels).mem_iff, List.mem_range]
    exact (count_le_iff.mp le_rfl).2 e.2 (List.mem_map_of_mem he)
  have hnames : (relabel labels).map Prod.fst =
      ((bySize labels).flatMap fun c => labels.filter fun e => e.2 == c).map Prod.fst := by
    rw [relabel, List.map_flatMap, List.map_flatMap]
    nth_rewrite 2 [← List.zipIdx_map_fst 0 (bySize labels)]
    rw [List.flatMap_map]
    simp [Function.comp_def]
  rw [hnames]
  exact (flatMap_filter_perm (nodup_bySize labels) hmem).map Prod.fst

theorem sizeOf_relabel (hnd : (labels.map Prod.fst).Nodup) (c : Nat) :
    sizeOf (relabel labels) c = ((bySize labels)[c]?).elim 0 (sizeOf labels) := by
  have hnd' : ((relabel labels).map Prod.fst).Nodup := (relabel_perm labels).nodup_iff.mpr hnd
  have hmem : ∀ (xs : List (String × Nat)) (d : Nat) (n : String),
      n ∈ (xs.filter fun e => e.2 == d).map Prod.fst ↔ (n, d) ∈ xs := by
    simp
  cases hold : (bySize labels)[c]? with
  | none =>
    rw [Option.elim_none, sizeOf, List.length_eq_zero_iff, List.filter_eq_nil_iff]
    rintro ⟨n, d⟩ he hd
    obtain rfl : d = c := by simpa using hd
    obtain ⟨old, hsome, -⟩ := mem_relabel.mp he
    rw [hold] at hsome
    cases hsome
  | some old =>
    have hperm : (((relabel labels).filter fun e => e.2 == c).map Prod.fst).Perm
        ((labels.filter fun e => e.2 == old).map Prod.fst) := by
      refine (List.perm_ext_iff_of_nodup (hnd'.sublist (List.filter_sublist.map _))
        (hnd.sublist (List.filter_sublist.map _))).mpr ?_
      intro n
      rw [hmem, hmem, mem_relabel, hold]
      simp
    simpa [sizeOf] using hperm.length_eq

theorem IsPartition.renumbers_relabel (h : IsPartition g labels k) (hk : 0 < k) :
    Renumbers labels (relabel labels) k := by
  have hnd : (labels.map Prod.fst).Nodup := h.nodes.nodup_iff.mpr g.nodes.keys_nodup
  have hlength : (bySize labels).length = k := by
    rw [(bySize_perm labels).length_eq, List.length_range, count_eq h.numbers hk]
  -- The new number of a node is the place of its old one.
  have hplace : ∀ e ∈ labels, ∀ c, (e.1, c) ∈ relabel labels → (bySize labels)[c]? = some e.2 := by
    intro e he c hc
    obtain ⟨old, hold, hmem⟩ := mem_relabel.mp hc
    rw [hold, (Prod.mk.inj (List.inj_on_of_nodup_map hnd hmem he rfl)).2]
  refine ⟨relabel_perm labels, fun c => ?_, ?_, fun c => ?_, ?_⟩
  · rw [← hlength]
    constructor
    · intro hc
      obtain ⟨e, he, rfl⟩ := List.mem_map.mp hc
      obtain ⟨old, hold, -⟩ := mem_relabel.mp he
      exact (List.getElem?_eq_some_iff.mp hold).1
    · intro hc
      have hold : (bySize labels)[c]? = some (bySize labels)[c] := List.getElem?_eq_getElem hc
      have hused : (bySize labels)[c] ∈ labels.map Prod.snd := by
        rw [h.numbers, ← count_eq h.numbers hk, ← List.mem_range, ← (bySize_perm labels).mem_iff]
        exact List.getElem_mem hc
      obtain ⟨⟨n, old⟩, he, hn⟩ := List.mem_map.mp hused
      exact List.mem_map.mpr ⟨(n, c), mem_relabel.mpr ⟨old, by rw [hold, ← hn], he⟩, rfl⟩
  · intro e he e' he' c c' hc hc'
    have hat := hplace e he c hc
    have hat' := hplace e' he' c' hc'
    constructor
    · rintro rfl
      exact Option.some.inj (hat.symm.trans hat')
    · intro heq
      have hlt := (List.getElem?_eq_some_iff.mp hat).1
      exact (List.getElem?_inj hlt (nodup_bySize labels)).mp (by rw [hat, hat', heq])
  · rw [sizeOf_relabel hnd, sizeOf_relabel hnd]
    cases hnext : (bySize labels)[c + 1]? with
    | none => exact Nat.zero_le _
    | some b =>
      obtain ⟨hlt, rfl⟩ := List.getElem?_eq_some_iff.mp hnext
      rw [List.getElem?_eq_getElem (by omega : c < (bySize labels).length)]
      exact List.pairwise_iff_getElem.mp (pairwise_bySize labels) c (c + 1) _ hlt
        (Nat.lt_succ_self c)
  · intro e he e' he' c c' hc hc' hsize hlt
    exact lt_of_bySize (hplace e he c hc) (hplace e' he' c' hc') hsize hlt

end Communities

/-! ### Rows of nodes -/

theorem Rows.lastFiled?_eq_none {es : List (String × List (String × Value))} {n k : String}
    (h : ∀ e ∈ es, e.1 = n → (OrderedMap.ofList e.2).get? k = none) : lastFiled? es n k = none := by
  induction es with
  | nil => rfl
  | cons e es ih =>
    obtain ⟨he, hes⟩ := List.forall_mem_cons.mp h
    rw [lastFiled?, ih hes, Option.none_or]
    split_ifs with hn
    · exact he hn
    · rfl

namespace Work

variable {ref : MetricRef} {m : Metric} {j : Job} {find : Digraph → Option (List (String × Nat))}
  {rs : Results} {kind kind' : GraphKind} {n s s' : String} {es : List (String × Nat)}

theorem communityKey_inj (hs : s ∈ ["file", "entity"]) (hs' : s' ∈ ["file", "entity"])
    (h : communityKey kind s = communityKey kind' s') : kind = kind' ∧ s = s' := by
  have hall : ∀ kind ∈ GraphKind.all, ∀ kind' ∈ GraphKind.all,
      ∀ s ∈ ["file", "entity"], ∀ s' ∈ ["file", "entity"],
      communityKey kind s = communityKey kind' s' → kind = kind' ∧ s = s' := by decide +kernel
  have hmem : ∀ kind : GraphKind, kind ∈ GraphKind.all := by
    intro kind
    cases kind <;> decide
  exact hall kind (hmem kind) kind' (hmem kind') s hs s' hs' h

theorem communitySubject?_eq_none_iff {r : Option ScanResult} :
    communitySubject? kind r = none ↔ kind = .fileChangeCoupling ∧ r = none := by
  cases r with
  | some r => simp [communitySubject?]
  | none => cases kind <;> simp [communitySubject?]

def numberRows (rs : Results) (kind : GraphKind) (es : List (String × Nat)) :
    List (String × List (String × Value)) :=
  es.filterMap fun e => (communitySubject? kind (rs.get? e.1)).map
    fun s => (e.1, [(communityKey kind s, .int e.2)])

def communityRows (find : Digraph → Option (List (String × Nat))) (rs : Results) (v : GraphView) :
    List (String × List (String × Value)) :=
  (find v.graph).elim [] fun labels => numberRows rs v.kind (Communities.relabel labels)

/-- A row has a key only for the kind of its graph, and for what its node is. -/
theorem lastFiled?_numberRows_eq_none (hs : s ∈ ["file", "entity"])
    (h : kind = kind' → communitySubject? kind (rs.get? n) ≠ some s) :
    Rows.lastFiled? (numberRows rs kind es) n (communityKey kind' s) = none := by
  refine Rows.lastFiled?_eq_none fun row hrow hn => ?_
  obtain ⟨e, -, he⟩ := List.mem_filterMap.mp hrow
  obtain ⟨s', hs', rfl⟩ := Option.map_eq_some_iff.mp he
  obtain rfl : e.1 = n := hn
  refine (OrderedMap.get?_insert ..).trans (if_neg fun hkey => ?_)
  obtain ⟨hkind, rfl⟩ := communityKey_inj (mem_of_communitySubject? hs') hs hkey
  exact h hkind hs'

theorem lastFiled?_communityRows_eq_none (find : Digraph → Option (List (String × Nat)))
    (rs : Results) (n : String) {views : List GraphView} (hs : s ∈ ["file", "entity"])
    (h : ∀ v ∈ views, v.kind = kind → communitySubject? kind (rs.get? n) ≠ some s) :
    Rows.lastFiled? (views.flatMap (communityRows find rs)) n (communityKey kind s) = none := by
  induction views with
  | nil => rfl
  | cons v views ih =>
    obtain ⟨hv, hviews⟩ := List.forall_mem_cons.mp h
    rw [List.flatMap_cons, Rows.lastFiled?_append, ih hviews, Option.none_or, communityRows]
    cases find v.graph with
    | none => rfl
    | some labels => exact lastFiled?_numberRows_eq_none hs fun hkind => hkind ▸ hv hkind

theorem lastFiled?_numberRows (hnd : (es.map Prod.fst).Nodup) {c : Nat} (hmem : (n, c) ∈ es)
    (hs : communitySubject? kind (rs.get? n) = some s) :
    Rows.lastFiled? (numberRows rs kind es) n (communityKey kind s) = some (.int c) := by
  obtain ⟨before, after, rfl⟩ := List.append_of_mem hmem
  have hnot : n ∉ after.map Prod.fst := by
    rw [List.map_append, List.map_cons] at hnd
    exact (List.nodup_cons.mp hnd.of_append_right).1
  have hafter : Rows.lastFiled? (numberRows rs kind after) n (communityKey kind s) = none := by
    refine Rows.lastFiled?_eq_none fun row hrow hn => ?_
    obtain ⟨e, he, hmade⟩ := List.mem_filterMap.mp hrow
    obtain ⟨_, -, rfl⟩ := Option.map_eq_some_iff.mp hmade
    exact absurd (List.mem_map.mpr ⟨e, he, hn⟩) hnot
  have hrows : numberRows rs kind (before ++ (n, c) :: after) =
      numberRows rs kind before ++ (n, [(communityKey kind s, .int c)]) ::
        numberRows rs kind after := by
    rw [numberRows, List.filterMap_append, List.filterMap_cons, hs]
    rfl
  rw [hrows, Rows.lastFiled?_append, Rows.lastFiled?, hafter, Option.none_or, if_pos rfl]
  exact congrArg (Option.or · _) ((OrderedMap.get?_insert ..).trans (if_pos rfl))

/-! ### Filing the numbers -/

theorem FiledRows.nothing {t : Job} (hm : Registered ref m j)
    (hmetric : t.analysis.metric? ref = j.analysis.metric? ref)
    (hrows : t.analysis.rows = j.analysis.rows) (hgraphs : t.analysis.graphs = j.analysis.graphs) :
    FiledRows ref m j [] m.overall m t where
  registered := ⟨hmetric.trans hm.metric, hm.name⟩
  gauge := rfl
  graphs := hgraphs
  shown n k := by rw [hrows]; rfl
  overall := rfl

theorem reaches_numberRow (hm : Registered ref m j) (rs : Results) (kind : GraphKind)
    (node : String) (c : Nat) : Reaches (fileCommunity ref rs kind node c) j fun _ j' =>
      ∃ m', FiledRows ref m j (numberRows rs kind [(node, c)]) m.overall m' j' := by
  unfold fileCommunity numberRows communityKey?
  rw [List.filterMap_cons, List.filterMap_nil]
  dsimp only
  cases hs : communitySubject? kind (rs.get? node) with
  | none => exact ⟨(), j, rfl, m, .nothing hm rfl rfl rfl⟩
  | some s =>
    dsimp only [Option.map_some]
    split
    · -- the figure that the result itself gets is in no row
      refine .bind (Q := fun _ t => FiledRows ref m j [] m.overall m t)
        ⟨(), _, rfl, .nothing hm rfl rfl rfl⟩ ?_
      intro _ t ht
      refine (reaches_filedRow ht.registered node _).imp ?_
      rintro - t' ⟨m', h⟩
      exact ⟨m', ht.append h⟩
    · exact reaches_filedRow hm node _

theorem reaches_numberRows (hm : Registered ref m j) (rs : Results) (kind : GraphKind)
    (es : List (String × Nat)) :
    Reaches (es.forM fun (node, c) => fileCommunity ref rs kind node c) j fun _ j' =>
      ∃ m', FiledRows ref m j (numberRows rs kind es) m.overall m' j' := by
  refine .forM (I := fun done j' => ∃ m',
    FiledRows ref m j (numberRows rs kind done) m.overall m' j') []
    ⟨m, .nothing hm rfl rfl rfl⟩ ?_ rfl
  rintro done ⟨node, c⟩ rest t - ⟨m', h⟩
  refine (reaches_numberRow h.registered rs kind node c).imp ?_
  rintro - t' ⟨m'', h'⟩
  rw [numberRows, List.filterMap_append]
  exact ⟨m'', h.append (h.overall ▸ h')⟩

theorem reaches_measureCommunitiesBy (find : Digraph → Option (List (String × Nat)))
    (hm : Registered ref m j) (slots : GraphSlots) (rs : Results) :
    Reaches (measureCommunitiesBy find ref slots rs) j fun _ j' =>
      ∃ m' overall, FiledRows ref m j
        ((j.analysis.slotViews slots).flatMap (communityRows find rs)) overall m' j' := by
  refine .bind (Q := fun a t => a = j.analysis ∧ t = j) ⟨_, _, rfl, rfl, rfl⟩ ?_
  rintro a t ⟨rfl, rfl⟩
  refine .forM (I := fun done j' => ∃ m' overall,
    FiledRows ref m t (done.flatMap (communityRows find rs)) overall m' j') []
    ⟨m, m.overall, .nothing hm rfl rfl rfl⟩ ?_ rfl
  rintro done v rest t₁ - ⟨m₁, overall, h₁⟩
  rw [List.flatMap_append, List.flatMap_singleton, communityRows]
  cases find v.graph with
  | none =>
    exact ⟨(), _, rfl, m₁, overall, h₁.append (h₁.overall ▸ .nothing h₁.registered rfl rfl rfl)⟩
  | some labels =>
    refine .bind (reaches_numberRows h₁.registered rs v.kind _) ?_
    rintro - t₂ ⟨m₂, h₂⟩
    refine (reaches_filedOverall h₂.registered _).imp ?_
    rintro - t₃ ⟨m₃, h₃⟩
    exact ⟨m₃, _, h₁.append (by simpa using h₂.append h₃)⟩

/-- Whatever the search finds in a graph with edges, as long as it is a partition: the communities
are numbered anew by their sizes, and every node gets the number of its community once, under its
name. Of the keys for the kind of the graph it is the one for what the node is, and the other is as
before; nodes that are no results get none in a graph of changes that come together. -/
theorem measureCommunitiesBy_numbers (find : Digraph → Option (List (String × Nat))) (j : Job)
    (ref : MetricRef) (m : Metric) (slots : GraphSlots) (rs : Results)
    (before after : List GraphView) (v : GraphView) (labels : List (String × Nat)) (k : Nat)
    (hm : Registered ref m j) (hrs : ∀ n r, rs.get? n = some r → r.uniqueName = n)
    (hviews : j.analysis.slotViews slots = before ++ v :: after)
    (hlast : ∀ u ∈ after, u.kind ≠ v.kind) (hedges : v.graph.edges ≠ [])
    (hfind : find v.graph = some labels) (hlabels : Communities.IsPartition v.graph labels k) :
    ∃ j' m' new, measureCommunitiesBy find ref slots rs j = .ok () j' ∧ Registered ref m' j' ∧
      Communities.Renumbers labels new k ∧
      ∀ n ∈ v.graph.names, ∃ c, (n, c) ∈ new ∧
        (∀ s ∈ ["file", "entity"],
          m'.shown? j'.analysis.rows ((rs.get? n).elim n ScanResult.uniqueName)
            (communityKey v.kind s) =
            if communitySubject? v.kind (rs.get? n) = some s then some (.int c)
            else m.shown? j.analysis.rows ((rs.get? n).elim n ScanResult.uniqueName)
              (communityKey v.kind s)) ∧
        (communitySubject? v.kind (rs.get? n) = none ↔
          v.kind = .fileChangeCoupling ∧ rs.get? n = none) := by
  have hk : 0 < k := by
    obtain ⟨⟨a, b⟩, hab⟩ := List.exists_mem_of_ne_nil _ hedges
    obtain ⟨n, hn, -⟩ := List.mem_flatMap.mp hab
    obtain ⟨e, he, -⟩ := List.mem_map.mp (hlabels.nodes.mem_iff.mpr hn)
    exact Nat.zero_lt_of_lt ((hlabels.numbers e.2).mp (List.mem_map_of_mem he))
  have hnew := hlabels.renumbers_relabel hk
  obtain ⟨⟨⟩, j', hok, m', overall, h⟩ := reaches_measureCommunitiesBy find hm slots rs
  refine ⟨j', m', _, hok, h.registered, hnew, fun n hn => ?_⟩
  obtain ⟨⟨n, c⟩, hc, rfl⟩ := List.mem_map.mp ((hnew.nodes.trans hlabels.nodes).mem_iff.mpr hn)
  refine ⟨c, hc, fun s hs => ?_, communitySubject?_eq_none_iff⟩
  have hname : (rs.get? n).elim n ScanResult.uniqueName = n := by
    cases hr : rs.get? n with
    | none => rfl
    | some r => exact hrs n r hr
  have hafter :=
    lastFiled?_communityRows_eq_none find rs n hs fun u hu hkind => absurd hkind (hlast u hu)
  have hrow : communityRows find rs v = numberRows rs v.kind (Communities.relabel labels) := by
    rw [communityRows, hfind]
    rfl
  rw [hname, h.shown, hviews, List.flatMap_append, List.flatMap_cons, Rows.lastFiled?_append,
    Rows.lastFiled?_append, hafter, Option.none_or, hrow]
  split_ifs with hsubject
  · have hnd := (hnew.nodes.trans hlabels.nodes).nodup_iff.mpr v.graph.nodes.keys_nodup
    rw [lastFiled?_numberRows hnd hc hsubject]
    rfl
  · rw [lastFiled?_numberRows_eq_none hs fun _ => hsubject,
      lastFiled?_communityRows_eq_none find rs n hs fun _ _ _ => hsubject]
    rfl

end Work

namespace Sample

/-- Three groups of classes: two that use each other, three, and two again. -/
def groups : Results := .ofList
  ([("a", ["b"]), ("c", ["d", "e"]), ("d", ["e"]), ("f", ["g"])].map
    fun e => part e.1 e.2 (.entity { entityName := e.1 }))

def groupLabels : List (String × Nat) :=
  [("a", 0), ("b", 0), ("c", 1), ("d", 1), ("e", 1), ("f", 2), ("g", 2)]

def grouped : GraphView := { kind := .entityDependency, graph := groups.dependencyGraph }

def coupled : GraphView :=
  { kind := .fileChangeCoupling, graph := ⟨.ofList [("a", default), ("b", default)], [("a", "b")]⟩ }

def ownSlots (v : GraphView) : GraphSlots := { dependency := .own v }

def ownJob (v : GraphView) : Job :=
  ⟨session,
    { entityMetrics := .ofList [(MetricKind.communities.name,
      { gauge := .communities (ownSlots v) })] }⟩

def communitiesRef : MetricRef := ⟨.entities, MetricKind.communities.name⟩

/-- The first group and the last one are equally great and keep their order. Nodes that are no
results have numbers, too. -/
theorem measureCommunitiesBy_numbers_groups : ∃ (j' : Job) (m' : Metric) (first last : Nat),
    Work.measureCommunitiesBy (fun _ => some groupLabels) communitiesRef (ownSlots grouped) groups
      (ownJob grouped) = .ok () j' ∧
    (∀ n ∈ ["a", "b"], m'.shown? j'.analysis.rows n (Work.communityKey .entityDependency "entity") =
      some (.int first)) ∧
    m'.shown? j'.analysis.rows "g" (Work.communityKey .entityDependency "entity") =
      some (.int last) ∧ first < last := by
  have hrs : ∀ n r, groups.get? n = some r → r.uniqueName = n := by
    intro n r hr
    have hall : ∀ e ∈ groups.entries, e.2.uniqueName = e.1 := by decide +kernel
    exact hall (n, r) (OrderedMap.get?_eq_some_iff.mp hr)
  have hlabels : Communities.IsPartition grouped.graph groupLabels 3 := by
    refine ⟨by decide +kernel, fun c => ?_⟩
    simp only [groupLabels, List.map_cons, List.map_nil, List.mem_cons, List.not_mem_nil, or_false]
    omega
  obtain ⟨j', m', new, hok, -, hnew, hnumbers⟩ :=
    Work.measureCommunitiesBy_numbers (fun _ => some groupLabels) (ownJob grouped)
    communitiesRef _ (ownSlots grouped) groups [] [] grouped groupLabels 3 ⟨rfl, rfl⟩ hrs rfl
      (by simp) (by decide +kernel) rfl hlabels
  have hsubject : ∀ n ∈ grouped.graph.names, Work.communitySubject? grouped.kind (groups.get? n) =
      some "entity" ∧ (groups.get? n).elim n ScanResult.uniqueName = n := by decide +kernel
  have hshown : ∀ n ∈ grouped.graph.names, ∃ c, (n, c) ∈ new ∧
      m'.shown? j'.analysis.rows n (Work.communityKey .entityDependency "entity") =
        some (.int c) := by
    intro n hn
    obtain ⟨c, hc, hc', -⟩ := hnumbers n hn
    have hkey := hc' "entity" (by simp)
    rw [(hsubject n hn).2, if_pos (hsubject n hn).1] at hkey
    exact ⟨c, hc, hkey⟩
  obtain ⟨a, ha, hshownA⟩ := hshown "a" (by decide +kernel)
  obtain ⟨b, hb, hshownB⟩ := hshown "b" (by decide +kernel)
  obtain ⟨g, hg, hshownG⟩ := hshown "g" (by decide +kernel)
  obtain rfl : b = a := (hnew.same ("b", 0) (by decide) ("a", 0) (by decide) b a hb ha).mpr rfl
  refine ⟨j', m', b, g, hok, ?_, hshownG,
    hnew.ties ("a", 0) (by decide) ("g", 2) (by decide) b g ha hg (by decide) (by decide)⟩
  simp [hshownA, hshownB]

/-- In a graph of changes that come together, nodes that are no results get no number. -/
theorem measureCommunitiesBy_coupled :
    coupled.graph.edges ≠ [] ∧ Communities.IsPartition coupled.graph [("a", 0), ("b", 0)] 1 ∧
    ∃ (j' : Job) (m' : Metric), Work.measureCommunitiesBy
      (fun _ => some [("a", 0), ("b", 0)]) communitiesRef (ownSlots coupled) ∅
        (ownJob coupled) = .ok () j' ∧ Work.Registered communitiesRef m' j' ∧
      ∀ n k, m'.shown? j'.analysis.rows n k = none := by
  have hm : Work.Registered communitiesRef { gauge := .communities (ownSlots coupled) }
      (ownJob coupled) := ⟨rfl, rfl⟩
  obtain ⟨⟨⟩, j', hok, m', overall, h⟩ :=
    Work.reaches_measureCommunitiesBy (fun _ => some [("a", 0), ("b", 0)]) hm (ownSlots coupled) ∅
  refine ⟨by decide +kernel, ⟨by decide, fun c => by simp⟩, j', m', hok, h.registered,
    fun n k => ?_⟩
  have hrows : ∀ es, Work.numberRows ∅ .fileChangeCoupling es = [] :=
    fun es => List.filterMap_eq_nil_iff.mpr fun _ _ => rfl
  have hnothing : ((ownJob coupled).analysis.slotViews (ownSlots coupled)).flatMap
      (Work.communityRows (fun _ => some [("a", 0), ("b", 0)]) ∅) = [] :=
    congrArg (· ++ []) (hrows _)
  rw [h.shown, hnothing]
  rfl

end Sample

end CodeAtlas
