import CodeAtlas.Proofs.PlainTrees
import Mathlib.Data.List.Nodup

/-!
# What a walk through a plain tree lists

`FileTree.listings` goes through a tree from the top down and leaves out the directories that are
not kept. For a plain tree, `Plain.mem_listings` says which directories it lists: exactly those that
are reached through kept names, each with all that it holds. No directory is listed twice
(`Plain.nodup_roots`), and each one only after the directory that holds it (`Plain.topDown`).
-/

namespace CodeAtlas

namespace FileTree

variable {linkIsDir keep : String → Bool} {root name : String} {t : FileTree}
  {es : List (String × FileTree)} {l : Listing} {known known' : List String}

def Listing.ofDir (root : String) (es : List (String × FileTree)) : Listing :=
  { root := root
    dirs := (es.filter fun e => e.2.isDir).map Prod.fst
    files := (es.filter fun e => !e.2.isDir).map Prod.fst }

theorem listingsBelow_eq_flatMap (linkIsDir keep : String → Bool) (root : String)
    (es : List (String × FileTree)) : listingsBelow linkIsDir keep root es =
      es.flatMap fun e => if keep e.1 then listings linkIsDir keep (Path.join root e.1) e.2 else
      [] := by
  induction es with
  | nil => rfl
  | cons e es ih => rw [listingsBelow, List.flatMap_cons, ih]

/-- Every directory in a list of listings comes after the one that holds it; those in `known` are
there already. -/
def TopDown (keep : String → Bool) : List String → List Listing → Prop
  | _, [] => True
  | known, l :: ls =>
    l.root ∈ known ∧ TopDown keep (known ++ (l.dirs.filter keep).map (Path.join l.root)) ls

theorem TopDown.mono {ls : List Listing} (h : TopDown keep known ls) (hsub : known ⊆ known') :
    TopDown keep known' ls := by
  induction ls generalizing known known' with
  | nil => trivial
  | cons l ls ih =>
    exact ⟨hsub h.1, ih h.2 (List.append_subset.mpr
      ⟨List.subset_append_of_subset_left _ hsub, List.subset_append_right ..⟩)⟩

theorem TopDown.append {as bs : List Listing} (ha : TopDown keep known as)
    (hb : TopDown keep known bs) : TopDown keep known (as ++ bs) := by
  induction as generalizing known with
  | nil => exact hb
  | cons a as ih => exact ⟨ha.1, ih ha.2 (hb.mono (List.subset_append_left ..))⟩

theorem TopDown.flatMap {α : Type} {xs : List α} {f : α → List Listing}
    (h : ∀ x ∈ xs, TopDown keep known (f x)) : TopDown keep known (xs.flatMap f) := by
  induction xs with
  | nil => trivial
  | cons x xs ih =>
    rw [List.flatMap_cons]
    exact (h x (by simp)).append (ih fun y hy => h y (by simp [hy]))

namespace Plain

theorem listings_dir (h : Plain (.dir es)) (linkIsDir keep : String → Bool) (root : String) :
    listings linkIsDir keep root (.dir es) = .ofDir root es ::
      es.flatMap fun e => if keep e.1 then listings linkIsDir keep (Path.join root e.1) e.2 else
      [] := by
  have hleads : ∀ e ∈ es, leadsToDir linkIsDir root e = e.2.isDir := by
    cases h with
    | dir es nodup names subs =>
      intro e he
      have := subs e he
      rw [leadsToDir]
      cases hsub : e.2 with
      | link target =>
        rw [hsub] at this
        cases this
      | file content => rfl
      | dir sub => rfl
  rw [listings, listingsBelow_eq_flatMap, Listing.ofDir, List.filter_congr hleads,
    List.filter_congr fun e he => congrArg (!·) (hleads e he)]

theorem mem_dirs_ofDir (h : Plain (.dir es)) :
    name ∈ (Listing.ofDir root es).dirs ↔ ∃ sub, es.lookup name = some (.dir sub) := by
  cases h with
  | dir es nodup names subs =>
    rw [Listing.ofDir, List.mem_map]
    constructor
    · rintro ⟨⟨name, t⟩, he, rfl⟩
      obtain ⟨hmem, hdir⟩ := List.mem_filter.mp he
      cases t with
      | dir sub => exact ⟨sub, lookup_of_mem nodup hmem⟩
      | file content => cases hdir
      | link target => cases hdir
    · rintro ⟨sub, hl⟩
      exact ⟨(name, .dir sub), List.mem_filter.mpr ⟨mem_of_lookup hl, rfl⟩, rfl⟩

theorem mem_files_ofDir (h : Plain (.dir es)) :
    name ∈ (Listing.ofDir root es).files ↔ ∃ content, es.lookup name = some (.file content) := by
  cases h with
  | dir es nodup names subs =>
    rw [Listing.ofDir, List.mem_map]
    constructor
    · rintro ⟨⟨name, t⟩, he, rfl⟩
      obtain ⟨hmem, hfile⟩ := List.mem_filter.mp he
      cases t with
      | dir sub => cases hfile
      | file content => exact ⟨content, lookup_of_mem nodup hmem⟩
      | link target => cases subs _ hmem
    · rintro ⟨content, hl⟩
      exact ⟨(name, .file content), List.mem_filter.mpr ⟨mem_of_lookup hl, rfl⟩, rfl⟩

/-- The directories that are listed are those that are reached through kept names. -/
theorem mem_listings (h : Plain t) : l ∈ listings linkIsDir keep root t ↔
    ∃ ns es, t.get? ns = some (.dir es) ∧ (∀ n ∈ ns, keep n = true) ∧
      l = .ofDir (Path.descend root ns) es := by
  induction h generalizing root with
  | file content =>
    simp only [listings, List.not_mem_nil, false_iff]
    rintro ⟨ns, es, hget, -, -⟩
    cases ns <;> simp [get?_cons, FileTree.child?, entries] at hget
  | dir es nodup names subs ih =>
    rw [(Plain.dir es nodup names subs).listings_dir, List.mem_cons, List.mem_flatMap]
    constructor
    · rintro (rfl | ⟨e, he, hl⟩)
      · exact ⟨[], es, rfl, by simp, rfl⟩
      · split_ifs at hl with hkeep
        · obtain ⟨ns, es', hget, hns, rfl⟩ := (ih e he).mp hl
          refine ⟨e.1 :: ns, es', ?_, List.forall_mem_cons.mpr ⟨hkeep, hns⟩, rfl⟩
          rw [get?_cons, FileTree.child?, entries, lookup_of_mem nodup he]
          exact hget
        · simp at hl
    · rintro ⟨ns, es', hget, hns, rfl⟩
      cases ns with
      | nil =>
        obtain rfl : es = es' := by simpa using hget
        exact .inl rfl
      | cons n ns =>
        obtain ⟨hn, hns⟩ := List.forall_mem_cons.mp hns
        rw [get?_cons, Option.bind_eq_some_iff] at hget
        obtain ⟨sub, hsub, hget⟩ := hget
        have he : (n, sub) ∈ es := mem_of_lookup hsub
        refine .inr ⟨(n, sub), he, ?_⟩
        rw [if_pos hn]
        exact (ih _ he).mpr ⟨ns, es', hget, hns, rfl⟩

theorem exists_of_mem_listings (h : Plain t) (hl : l ∈ listings linkIsDir keep root t) :
    ∃ ns, (∀ n ∈ ns, PathName n) ∧ l.root = Path.descend root ns := by
  obtain ⟨ns, es, hget, -, rfl⟩ := h.mem_listings.mp hl
  exact ⟨ns, h.pathNames hget, rfl⟩

theorem nodup_roots (h : Plain t) (hroot : Path.Normal root) :
    ((listings linkIsDir keep root t).map Listing.root).Nodup := by
  induction h generalizing root with
  | file content => simp [listings]
  | dir es nodup names subs ih =>
    -- a directory below the entry `e` has `e.1` as the first name on its way from `root`
    have hbelow : ∀ e ∈ es,
        ∀ l ∈ (if keep e.1 then listings linkIsDir keep (Path.join root e.1) e.2 else []),
        ∃ ns, (∀ n ∈ e.1 :: ns, PathName n) ∧ l.root = Path.descend root (e.1 :: ns) := by
      intro e he l hl
      split_ifs at hl
      · obtain ⟨ns, hns, hl⟩ := (subs e he).exists_of_mem_listings hl
        exact ⟨ns, List.forall_mem_cons.mpr ⟨(names e he).toPathName, hns⟩, hl⟩
      · simp at hl
    rw [(Plain.dir es nodup names subs).listings_dir, List.map_cons, List.nodup_cons,
      List.map_flatMap, List.nodup_flatMap]
    refine ⟨?_, ?_, ?_⟩
    · intro hmem
      obtain ⟨e, he, hmem⟩ := List.mem_flatMap.mp hmem
      obtain ⟨l, hl, heq⟩ := List.mem_map.mp hmem
      obtain ⟨ns, hns, hr⟩ := hbelow e he l hl
      have heq' : Path.descend root (e.1 :: ns) = Path.descend root [] := by rw [← hr, heq]; rfl
      simpa using hroot.descend_injective hns (by simp) heq'
    · intro e he
      split_ifs
      · have hn := (names e he).toPathName
        exact ih e he (hroot.descend (List.forall_mem_singleton.mpr hn))
      · simp
    · refine (List.pairwise_map.mp nodup).imp_of_mem ?_
      intro e e' he he' hne r hr hr'
      obtain ⟨l, hl, rfl⟩ := List.mem_map.mp hr
      obtain ⟨l', hl', heq⟩ := List.mem_map.mp hr'
      obtain ⟨ns, hns, hr⟩ := hbelow e he l hl
      obtain ⟨ns', hns', hr'⟩ := hbelow e' he' l' hl'
      have := hroot.descend_injective hns hns' (by rw [← hr, ← hr', heq])
      exact hne (List.cons.inj this).1

theorem topDown (h : Plain t) (hroot : root ∈ known) :
    TopDown keep known (listings linkIsDir keep root t) := by
  induction h generalizing root known with
  | file content => trivial
  | dir es nodup names subs ih =>
    rw [(Plain.dir es nodup names subs).listings_dir]
    refine ⟨hroot, TopDown.flatMap fun e he => ?_⟩
    split_ifs with hkeep
    · -- the entry is a directory, and then it is known from this listing, or nothing is listed
      -- below it
      cases hsub : e.2 with
      | file content => trivial
      | link target => trivial
      | dir sub =>
        rw [← hsub]
        refine ih e he (List.mem_append_right _ (List.mem_map_of_mem ?_))
        refine List.mem_filter.mpr ⟨List.mem_map_of_mem (List.mem_filter.mpr ⟨he, ?_⟩), hkeep⟩
        rw [hsub]
        rfl
    · trivial

end Plain

end FileTree

end CodeAtlas
