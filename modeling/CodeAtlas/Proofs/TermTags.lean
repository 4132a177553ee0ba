import CodeAtlas.Proofs.DegreeFigures
import Mathlib.Data.Prod.Lex
import Mathlib.Order.Compare

/-!
# The tags of a result

Scores that are numbers are in one order (`Decimal.le_iff_place`), so the tags of a result are its
best terms: as many as there may be, none of them worse than a term that is left out, the best
first, and of equally good ones the earlier in the row first (`Terms.Chosen`). They are the row that
is filed for the result, and all of that row (`Work.measure_terms`).
-/

namespace CodeAtlas

open Effect Terms OrderedMap

/-! ### The order of numbers -/

namespace Decimal

open Float.Model (UnpackedFloat)

/-- Where a number stands among the others; not for what is no number. -/
def place : UnpackedFloat → ℤ ×ₗ ℤ ×ₗ ℤ
  | .infinity s => toLex (s.apply 2, toLex (0, 0))
  | .finite s m e _ => toLex (s.apply 1, toLex (s.apply e, s.apply m))
  | _ => toLex (0, toLex (0, 0))

theorem compares_place {a b : UnpackedFloat} (ha : a.isNaN = false) (hb : b.isNaN = false) :
    ∃ o, a.compare b = some o ∧ o.Compares (place a) (place b) := by
  cases a with
  | notANumber => cases ha
  | infinity s | zero s | finite s m e h =>
    cases b with
    | notANumber => cases hb
    | infinity t | zero t | finite t m' e' h' =>
      -- both sides are compared by sign and kind, then by exponent and mantissa
      cases s <;> cases t <;> refine ⟨_, rfl, ?_⟩ <;>
        dsimp only [place, UnpackedFloat.Sign.apply, compare, compareOfLessAndEq] <;>
          (try split_ifs) <;>
        simp [Ordering.Compares, Prod.Lex.toLex_lt_toLex, Ordering.then, *] <;> omega

theorem le_iff_place {x y : Float} (hx : x.isNaN = false) (hy : y.isNaN = false) :
    x ≤ y ↔ place x.toModel.unpack ≤ place y.toModel.unpack := by
  obtain ⟨o, hcompare, ho⟩ := compares_place hx hy
  have hle : x ≤ y ↔ (x.toModel.unpack.compare y.toModel.unpack).any Ordering.isLE = true :=
    decide_eq_true_iff
  rw [hle, hcompare, ← ho.ne_gt]
  cases o <;> decide

theorem lt_iff_place {x y : Float} (hx : x.isNaN = false) (hy : y.isNaN = false) :
    x < y ↔ place x.toModel.unpack < place y.toModel.unpack := by
  obtain ⟨o, hcompare, ho⟩ := compares_place hx hy
  have hlt : x < y ↔ (x.toModel.unpack.compare y.toModel.unpack == some .lt) = true :=
    decide_eq_true_iff
  rw [hlt, hcompare, ← ho.eq_lt]
  cases o <;> decide

end Decimal

/-! ### The best entries -/

namespace Terms

variable {α : Type} {passes : α → Bool} {atLeast : α → α → Bool} {given : List α}

/-- The best of the given entries that pass, at most `limit` of them. An entry that is at least as
good as a later one that is chosen is chosen before it. -/
structure Chosen (passes : α → Bool) (atLeast : α → α → Bool) (limit : Nat)
    (given chosen : List α) : Prop where
  nodup : chosen.Nodup
  pass : ∀ a ∈ chosen, a ∈ given ∧ passes a = true
  length : chosen.length = min limit (given.countP passes)
  sorted : chosen.Pairwise fun a b => atLeast a b = true
  best : ∀ a ∈ given, a ∉ chosen → ∀ b ∈ chosen, atLeast b a = true
  ties : ∀ a b, [a, b].Sublist given → atLeast a b = true → b ∈ chosen → [a, b].Sublist chosen

theorem pair_sublist_left {a b : α} {xs ys : List α} (h : [a, b].Sublist (xs ++ ys)) (hb : b ∉ ys) :
    [a, b].Sublist xs := by
  obtain ⟨us, vs, heq, hus, hvs⟩ := List.sublist_append_iff.mp h
  rcases List.eq_nil_or_concat vs with rfl | ⟨vs, c, rfl⟩
  · rwa [heq, List.append_nil]
  · have hlast := congrArg List.getLast? heq
    rw [List.concat_eq_append, ← List.append_assoc, List.getLast?_concat] at hlast
    obtain rfl := Option.some.inj hlast
    exact absurd (hvs.subset (by simp)) hb

/-- Entries are compared by a key, and pass if it is beyond a bound. -/
structure Ranks {κ : Type} [LinearOrder κ] (key : α → κ) (least : κ) (passes : α → Bool)
    (atLeast : α → α → Bool) (given : List α) : Prop where
  nodup : given.Nodup
  passes_eq : ∀ a ∈ given, passes a = decide (least < key a)
  atLeast_eq : ∀ a ∈ given, ∀ b ∈ given, atLeast a b = decide (key b ≤ key a)

namespace Ranks

variable {κ : Type} [LinearOrder κ] {key : α → κ} {least : κ} {a b : α}

theorem trans_total (key : α → κ) :
    (∀ a b c, decide (key b ≤ key a) = true → decide (key c ≤ key b) = true →
      decide (key c ≤ key a) = true) ∧
      ∀ a b, (decide (key b ≤ key a) || decide (key a ≤ key b)) = true := by
  refine ⟨fun a b c hab hbc => ?_, fun a b => ?_⟩
  · exact decide_eq_true ((of_decide_eq_true hbc).trans (of_decide_eq_true hab))
  · simpa using le_total (key b) (key a)

variable (h : Ranks key least passes atLeast given)

include h

theorem mergeSort_eq : given.mergeSort atLeast =
    given.mergeSort fun a b => decide (key b ≤ key a) := by
  simpa using List.map_mergeSort (f := id) h.atLeast_eq

theorem pairwise : (given.mergeSort atLeast).Pairwise fun a b => atLeast a b = true := by
  have hperm := given.mergeSort_perm atLeast
  refine List.Pairwise.imp_of_mem ?_
    (h.mergeSort_eq ▸ List.pairwise_mergeSort (trans_total key).1 (trans_total key).2 given)
  intro a b ha hb hle
  rw [h.atLeast_eq a (hperm.mem_iff.mp ha) b (hperm.mem_iff.mp hb), hle]

theorem pair_sublist (hle : atLeast a b = true) (hab : [a, b].Sublist given) :
    [a, b].Sublist (given.mergeSort atLeast) := by
  rw [h.atLeast_eq a (hab.subset (by simp)) b (hab.subset (by simp))] at hle
  exact h.mergeSort_eq ▸ List.pair_sublist_mergeSort (trans_total key).1 (trans_total key).2 hle hab

theorem atLeast_of_passes (ha : a ∈ given) (hb : b ∈ given) (hpass : passes a = true)
    (hfail : ¬ passes b = true) : atLeast a b = true := by
  rw [h.passes_eq a ha, decide_eq_true_iff] at hpass
  rw [h.passes_eq b hb, decide_eq_true_iff, not_lt] at hfail
  rw [h.atLeast_eq a ha b hb]
  exact decide_eq_true (hfail.trans hpass.le)

theorem passes_of_atLeast (ha : a ∈ given) (hb : b ∈ given) (hle : atLeast a b = true)
    (hpass : passes b = true) : passes a = true := by
  rw [h.atLeast_eq a ha b hb] at hle
  rw [h.passes_eq b hb, decide_eq_true_iff] at hpass
  rw [h.passes_eq a ha]
  exact decide_eq_true (hpass.trans_le (of_decide_eq_true hle))

/-- The first of the sorted entries that pass are the best. -/
theorem chosen (limit : Nat) :
    Chosen passes atLeast limit given (best passes atLeast limit given) := by
  have hperm := given.mergeSort_perm atLeast
  have hall : ∀ a, a ∈ (given.mergeSort atLeast).filter passes ↔
      a ∈ given ∧ passes a = true := fun a => by
    rw [List.mem_filter, hperm.mem_iff]
  have hnodup : ((given.mergeSort atLeast).filter passes).Nodup :=
    (hperm.nodup_iff.mpr h.nodup).filter passes
  have hsorted := h.pairwise.filter passes
  have hparts := List.take_append_drop limit ((given.mergeSort atLeast).filter passes)
  have hmem : ∀ a ∈ best passes atLeast limit given, a ∈ given ∧ passes a = true := fun a ha =>
    (hall a).mp (List.mem_of_mem_take ha)
  refine ⟨hnodup.sublist (List.take_sublist ..), hmem, ?_, hsorted.sublist (List.take_sublist ..),
    fun a ha hout b hb => ?_, fun a b hab hle hb => ?_⟩
  · rw [best, List.length_take, ← List.countP_eq_length_filter, hperm.countP_eq]
  · obtain ⟨hb', hpass'⟩ := hmem b hb
    by_cases hpass : passes a = true
    · have hrest := hparts ▸ (hall a).mpr ⟨ha, hpass⟩
      exact (List.pairwise_append.mp (hparts ▸ hsorted)).2.2 b hb a
        ((List.mem_append.mp hrest).resolve_left hout)
    · exact h.atLeast_of_passes hb' ha hpass' hpass
  · obtain ⟨hb', hpass⟩ := hmem b hb
    have hfiltered := (h.pair_sublist hle hab).filter passes
    rw [List.filter_cons_of_pos (h.passes_of_atLeast (hab.subset (by simp)) hb' hle hpass),
      List.filter_cons_of_pos hpass, List.filter_nil, ← hparts] at hfiltered
    exact pair_sublist_left hfiltered fun hdrop => List.disjoint_take_drop hnodup le_rfl hb hdrop

end Ranks

/-! ### The terms of a row -/

variable {features : List String} {row : List (Int × Value)} {e : Int × Value}

/-- A row of the term model: each number is that of a term, and occurs once, and its score is a
number. -/
structure Ordered (features : List String) (row : List (Int × Value)) : Prop where
  columns : ∀ e ∈ row, 0 ≤ e.1 ∧ e.1 < features.length
  distinct : (row.map Prod.fst).Nodup
  scores : ∀ e ∈ row, ∃ x, e.2.toFloat? = some x ∧ x.isNaN = false

def named (features : List String) (row : List (Int × Value)) : List (String × Value) :=
  row.map fun e => (features.getD e.1.toNat "", e.2)

def bestTerms (features : List String) (row : List (Int × Value)) : List (String × Value) :=
  best (fun e => minScore < score e.2) (fun a b => score b.2 ≤ score a.2) maxTags
    (named features row)

def tagged (es : List (String × Value)) : List (String × Value) :=
  es.map fun e => ("tag_" ++ e.1, e.2)

theorem Ordered.toNat_lt (h : Ordered features row) (he : e ∈ row) :
    e.1.toNat < features.length := by
  have hcolumn := h.columns e he
  omega

theorem nodup_named (hnd : features.Nodup) (h : Ordered features row) :
    ((named features row).map Prod.fst).Nodup := by
  rw [named, List.map_map]
  refine h.distinct.of_map.map_on ?_
  intro e he e' he' heq
  have hindex : e.1.toNat = e'.1.toNat := by
    refine (List.getElem?_inj (h.toNat_lt he) hnd).mp ?_
    simpa [List.getD_eq_getElem?_getD, h.toNat_lt he, h.toNat_lt he'] using heq
  have hcolumn : e.1 = e'.1 := by
    have hlow := (h.columns e he).1
    have hlow' := (h.columns e' he').1
    omega
  exact List.inj_on_of_nodup_map h.distinct he he' hcolumn

theorem feature?_eq (h : Ordered features row) (he : e ∈ row) :
    feature? features e.1 = some (features.getD e.1.toNat "") := by
  rw [feature?, if_pos (h.columns e he).1, List.getD_eq_getElem?_getD,
    List.getElem?_eq_getElem (h.toNat_lt he), Option.getD_some]

theorem scores_named (h : Ordered features row) :
    ∀ e ∈ named features row, ∃ x, e.2.toFloat? = some x ∧ x.isNaN = false :=
  List.forall_mem_map.mpr h.scores

theorem namedScores_eq (hnd : features.Nodup) (h : Ordered features row) :
    ∃ scores, namedScores features row = .ok scores ∧ scores.entries = named features row := by
  have hentries : (ofList (named features row)).entries = named features row :=
    entries_insertMany_of_nodup (nodup_named hnd h)
  refine ⟨_, ?_, hentries⟩
  have hnumbers : (ofList (named features row)).values.all (fun v => v.toFloat?.isSome) = true := by
    rw [values, hentries, List.all_map, List.all_eq_true]
    intro e he
    obtain ⟨x, hx, -⟩ := scores_named h e he
    exact Option.isSome_iff_exists.mpr ⟨x, hx⟩
  refine except_bind_eq_ok.mpr ⟨named features row, mapM_eq_ok fun e he => ?_, if_pos hnumbers⟩
  simp only [feature?_eq h he]

theorem chosen_row (hnd : features.Nodup) (h : Ordered features row) :
    Chosen (fun e => minScore < score e.2) (fun a b => score b.2 ≤ score a.2) maxTags
      (named features row)
      (bestTerms features row) := by
  have hnumber : ∀ e ∈ named features row, (score e.2).isNaN = false := by
    intro e he
    obtain ⟨x, hx, hnan⟩ := scores_named h e he
    rwa [score, hx]
  have hranks : Ranks (fun e => Decimal.place (score e.2).toModel.unpack)
      (Decimal.place minScore.toModel.unpack)
      (fun e => minScore < score e.2) (fun a b => score b.2 ≤ score a.2) (named features row) :=
    ⟨(nodup_named hnd h).of_map, fun a ha =>
      decide_eq_decide.mpr (Decimal.lt_iff_place (by decide) (hnumber a ha)),
      fun a ha b hb => decide_eq_decide.mpr (Decimal.le_iff_place (hnumber b hb) (hnumber a ha))⟩
  exact hranks.chosen maxTags

/-- Tags are kept apart by their terms. -/
theorem entries_tagged (hnd : features.Nodup) (h : Ordered features row) :
    (ofList (tagged (bestTerms features row))).entries = tagged (bestTerms features row) := by
  have hchosen := chosen_row hnd h
  refine entries_insertMany_of_nodup (m := ∅) ?_
  rw [show (∅ : OrderedMap String Value).keys = [] from rfl, List.nil_append, tagged, List.map_map]
  refine hchosen.nodup.map_on fun e he e' he' heq => ?_
  have hname : e.1 = e'.1 := by simpa using heq
  exact List.inj_on_of_nodup_map (nodup_named hnd h) (hchosen.pass e he).1
    (hchosen.pass e' he').1 hname

end Terms

/-! ### Filing the tags -/

namespace Work

variable {ref : MetricRef} {m : Metric} {j : Job} {features names : List String}
  {scores : List (List (Int × Value))} {name : String}

theorem reaches_mergeRow_new (hm : Registered ref m j) (hnew : m.rows.get? name = none)
    (row : List (String × Value)) :
    Reaches (mergeRow ref name row) j fun _ j' => Registered ref (m.assignRow name row) j' := by
  have hok : mergeRow ref name row j =
      .ok () (j.put ref (m.mergeRow j.analysis.rows name row).1
        (m.mergeRow j.analysis.rows name row).2) :=
    bind_of_ok (metricAt_of_metric? hm.metric)
  rw [Metric.mergeRow, hnew] at hok
  exact ⟨(), _, hok, hm.put (show (m.assignRow name row).kind = m.kind from rfl) _⟩

/-- One row of the term model after the other is taken, each for the next name. -/
theorem reaches_tagTexts (hfeatures : features.Nodup) (hm : Registered ref m j) (hnd : names.Nodup)
    (hnew : ∀ name ∈ names, m.rows.get? name = none) (hlength : names.length ≤ scores.length)
    (hscores : ∀ row ∈ scores, Terms.Ordered features row) :
    Reaches (tagTexts ref features names scores) j fun _ j' => ∃ m', Registered ref m' j' ∧
      (∀ n ∉ names, m'.rows.get? n = m.rows.get? n) ∧ ∀ e ∈ names.zip scores,
        m'.rows.get? e.1 = some (.own (.ofList (tagged (bestTerms features e.2)))) := by
  induction names generalizing m j scores with
  | nil => exact ⟨(), j, rfl, m, hm, fun _ _ => rfl, by simp⟩
  | cons name names ih =>
    obtain _ | ⟨row, scores⟩ := scores
    · simp at hlength
    · obtain ⟨hname, hnd⟩ := List.nodup_cons.mp hnd
      obtain ⟨hrow, hscores⟩ := List.forall_mem_cons.mp hscores
      obtain ⟨named, hnamed, hentries⟩ := namedScores_eq hfeatures hrow
      have htags : tags named = tagged (bestTerms features row) := by
        rw [tags, hentries]
        rfl
      have hother : ∀ n ≠ name, (m.assignRow name (tags named)).rows.get? n =
          m.rows.get? n := fun n hn => by
        rw [Metric.assignRow, get?_insert, if_neg hn.symm]
      rw [tagTexts, hnamed]
      change Reaches (mergeRow ref name (tags named) >>= fun _ =>
        tagTexts ref features names scores) j _
      refine .bind (reaches_mergeRow_new hm (hnew name (by simp)) _) fun _ t ht => ?_
      refine (ih ht hnd (fun n hn => ?_) (by simpa using hlength) hscores).imp ?_
      · rw [hother n (ne_of_mem_of_not_mem hn hname)]
        exact hnew n (by simp [hn])
      · rintro - t' ⟨m', hm', hkept, hfiled⟩
        refine ⟨m', hm', fun n hn => ?_, List.forall_mem_cons.mpr ⟨?_, hfiled⟩⟩
        · rw [List.mem_cons, not_or] at hn
          rw [hkept n hn.2, hother n hn.1]
        · rw [hkept name hname, Metric.assignRow, get?_insert, if_pos rfl, htags]

/-- Texts of results have been put into a metric that has no rows. -/
def Gathered (ref : MetricRef) (terms : TermModel) (names : List String) (j : Job) : Prop :=
  j.session.terms = terms ∧ ∃ m texts, Registered ref m j ∧ m.rows = ∅ ∧ m.gauge = .terms texts ∧
    texts.keys = names

theorem Gathered.reaches_modifyTexts {terms : TermModel} (h : Gathered ref terms names j)
    (hname : name ∉ names) (text : String) :
    Reaches (modifyTexts ref fun texts => texts.insert name text) j
      fun _ j' => Gathered ref terms (names ++ [name]) j' := by
  obtain ⟨hterms, m, texts, hm, hrows, hgauge, hkeys⟩ := h
  refine ⟨(), _, modifyMetric_of_metric? hm.metric, hterms,
    { m with gauge := .terms (texts.insert name text) }, _, ?_, hrows, rfl, ?_⟩
  · simp only [hgauge]
    exact hm.put (by rw [Metric.kind, Metric.kind, hgauge]; rfl) _
  · rw [keys_insert, hkeys, if_neg hname]

theorem exists_textOf_eq_ok {r : ScanResult} (h : r.language.isSome = true) :
    ∃ text, textOf r = .ok text := by
  obtain ⟨l, hl⟩ := Option.isSome_iff_exists.mp h
  obtain ⟨words, hwords⟩ : ∃ words, r.words.mapM (telling? r.language) =
      .ok words := exists_mapM_eq_ok fun word _ => by
    simp only [telling?, hl]
    split
    · exact ⟨_, rfl⟩
    · exact ⟨_, rfl⟩
  exact ⟨_, except_bind_eq_ok.mpr ⟨words, hwords, rfl⟩⟩

theorem reaches_gather {rs : List ScanResult} (h : Gathered ref j.session.terms [] j)
    (hlanguage : ∀ r ∈ rs, r.language.isSome = true) (hnd : (rs.map ScanResult.uniqueName).Nodup) :
    Reaches (rs.forM fun r => do
      let text ← lift (textOf r)
      modifyTexts ref fun texts => texts.insert r.uniqueName text) j fun _ t =>
        Gathered ref j.session.terms (rs.map ScanResult.uniqueName) t := by
  refine .forM (I := fun done t => Gathered ref j.session.terms (done.map ScanResult.uniqueName) t)
    [] h ?_ rfl
  rintro done r rest t rfl ht
  obtain ⟨text, htext⟩ := exists_textOf_eq_ok (hlanguage r (by simp))
  rw [List.map_append, List.map_cons, List.nodup_append] at hnd
  rw [htext, List.map_append]
  exact ht.reaches_modifyTexts (fun hmem => hnd.2.2 _ hmem _ (by simp) rfl) text

theorem reaches_measureTerms (rs : List ScanResult) (h : Gathered ref j.session.terms [] j)
    (hlanguage : ∀ r ∈ rs, r.language.isSome = true) (hnd : (rs.map ScanResult.uniqueName).Nodup)
    (hterms : j.session.terms = .fitted features scores) (hfeatures : features.Nodup)
    (hlength : rs.length ≤ scores.length) (hscores : ∀ row ∈ scores, Terms.Ordered features row) :
    Reaches (measureTerms ref rs) j fun _ j' => ∃ m', Registered ref m' j' ∧
      ∀ e ∈ (rs.map ScanResult.uniqueName).zip scores,
        m'.rows.get? e.1 = some (.own (.ofList (tagged (bestTerms features e.2)))) := by
  refine .bind (reaches_gather h hlanguage hnd) fun _ t ht => ?_
  obtain ⟨hmodel, m', texts, hm', hrows, hgauge, hkeys⟩ := ht
  refine .bind (Q := fun s t' => s.terms = .fitted features scores ∧ t' = t)
    ⟨_, _, rfl, hmodel.trans hterms, rfl⟩ fun s t' h => ?_
  rw [h.1, h.2]
  refine .bind (Q := fun m₁ t' => m₁.gauge = .terms texts ∧ t' = t)
    ⟨m', t, metricAt_of_metric? hm'.metric, hgauge, rfl⟩ fun m₁ t' h => ?_
  rw [h.1, h.2]
  refine (reaches_tagTexts hfeatures hm' (hkeys ▸ hnd) (fun n _ => ?_) ?_ hscores).imp
    fun _ t₂ h => ?_
  · rw [hrows]
    rfl
  · rwa [hkeys, List.length_map]
  · obtain ⟨m₂, hm₂, -, hfiled⟩ := h
    exact ⟨m₂, hm₂, hkeys ▸ hfiled⟩

/-- The tags of every result are its best terms, whatever the rows of the term model are, as long as
their scores can be compared. -/
theorem measure_terms (j : Job) (ref : MetricRef) (m : Metric) (rs : Results)
    (features : List String) (scores : List (List (Int × Value))) (hm : Registered ref m j)
    (hgauge : m.gauge = .terms ∅) (hrows : m.rows = ∅)
    (hrs : ∀ e ∈ rs.entries, e.2.uniqueName = e.1 ∧ e.2.language.isSome = true)
    (hterms : j.session.terms = .fitted features scores) (hfeatures : features.Nodup)
    (hlength : rs.size ≤ scores.length) (hscores : ∀ row ∈ scores, Terms.Ordered features row) :
    ∃ j' m', measure ref rs j = .ok () j' ∧ Registered ref m' j' ∧
      ∀ e ∈ rs.keys.zip scores, ∃ chosen stored,
        Terms.Chosen (fun e => minScore < score e.2) (fun a b => score b.2 ≤ score a.2) 7
          (named features e.2) chosen ∧
        (m'.shownRows j'.analysis.rows).get? e.1 = some stored ∧
        stored.entries = tagged chosen := by
  have hnames : rs.values.map ScanResult.uniqueName = rs.keys := by
    rw [values, keys, List.map_map]
    exact List.map_congr_left fun e he => (hrs e he).1
  obtain ⟨⟨⟩, j', hok, m', hm', hfiled⟩ :=
    reaches_measureTerms rs.values ⟨rfl, m, ∅, hm, hrows, hgauge, rfl⟩
    (List.forall_mem_map.mpr fun e he => (hrs e he).2) (hnames ▸ rs.nodup) hterms hfeatures
    ((List.length_map ..).trans_le hlength) hscores
  have hmeasure : measure ref rs j = .ok () j' := by
    refine (bind_of_ok (metricAt_of_metric? hm.metric)).trans ?_
    rw [hgauge]
    exact hok
  refine ⟨j', m', hmeasure, hm', fun e he => ?_⟩
  have hrow := hscores e.2 (List.of_mem_zip he).2
  refine ⟨_, _, chosen_row hfeatures hrow, ?_, entries_tagged hfeatures hrow⟩
  rw [Metric.shownRows, get?_mapValues, hfiled e (hnames ▸ he)]
  rfl

end Work

namespace Sample

/-- The scores of nine terms, of which one is just not good enough. -/
def termScore (i : Nat) : Float := if i = 4 then 0.2 else if i = 6 then 0.75 else 0.5

def termScores : List (Int × Value) :=
  (List.range 9).map fun (i : Nat) => (↑i, .float (termScore i))

def termNames : List String := ["a", "b", "c", "d", "e", "f", "g", "h", "i"]

def termJob : Job :=
  ⟨{ session with terms := .fitted termNames [termScores] },
    { fileMetrics := .ofList [(MetricKind.terms.name, { gauge := .terms ∅ })] }⟩

def termFile : Results :=
  .ofList
    [("p/F.java",
      { (part "p/F.java" []
        (.file (.ofNames "" "p/F.java" "p/F.java" ""))).2 with language := some .java })]

/-- Of eight terms that are good enough seven become tags, and the ninth does not. -/
theorem measure_terms_nine : ∃ (j' : Job) (m' : Metric) (stored : OrderedMap String Value),
    Work.measure ⟨.files, MetricKind.terms.name⟩ termFile termJob = .ok () j' ∧
    (m'.shownRows j'.analysis.rows).get? "p/F.java" = some stored ∧ stored.size = 7 ∧
    "tag_e" ∉ stored.keys := by
  have hnumbers : ∀ i ∈ List.range 9, (termScore i).isNaN = false := by decide +kernel
  have hordered : Terms.Ordered termNames termScores :=
    ⟨by decide +kernel, by decide +kernel, List.forall_mem_map.mpr fun i hi => ⟨_, rfl,
      hnumbers i hi⟩⟩
  obtain ⟨j', m', hok, -, h⟩ := Work.measure_terms termJob ⟨.files, MetricKind.terms.name⟩
    { gauge := .terms ∅ } termFile termNames
    [termScores] ⟨rfl, rfl⟩ rfl rfl (by decide +kernel) rfl (by decide) (by decide +kernel)
      (by simpa using hordered)
  obtain ⟨chosen, stored, hchosen, hget, hstored⟩ :=
    h ("p/F.java", termScores) (List.mem_singleton_self _)
  refine ⟨j', m', stored, hok, hget, ?_, ?_⟩
  · rw [size, hstored, Terms.tagged, List.length_map, hchosen.length]
    decide +kernel
  · have hpass : ∀ e ∈ named termNames termScores, decide (minScore < score e.2) = true →
        "tag_" ++ e.1 ≠ "tag_e" := by decide +kernel
    rw [keys, hstored, Terms.tagged, List.map_map, List.mem_map]
    rintro ⟨e, he, heq⟩
    exact hpass e (hchosen.pass e he).1 (hchosen.pass e he).2 heq

end Sample

end CodeAtlas
