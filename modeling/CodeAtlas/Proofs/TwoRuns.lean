import CodeAtlas.Proofs.Effects
import Mathlib.Logic.Function.Basic

/-!
# Two runs side by side

`Effect.Follows` says that one computation goes well whenever another one does, in states that are
related, and that it leaves related states. Steps that have owners, and of which each follows what
its owner knows of the state, can be taken in another order as long as the steps of every owner stay
in theirs (`Effect.Independent.forM`).
-/

namespace CodeAtlas.Effect

variable {ε σ α β : Type}

/-- Whenever `x` ends well in a state, `y` gives the same in every state that `R` relates to it, and
then `S` relates the states that they leave. -/
def Follows (R S : σ → σ → Prop) (x y : EStateM ε σ α) : Prop :=
  ∀ s s', R s s' → ∀ a t, x s = .ok a t → ∃ t', y s' = .ok a t' ∧ S t t'

namespace Follows

variable {R S T : σ → σ → Prop}

theorem pure (h : ∀ s s', R s s' → S s s') (a : α) :
    Follows R S (pure a : EStateM ε σ α) (pure a) := by
  intro s s' hs b t hok
  obtain ⟨rfl, rfl⟩ := EStateM.Result.ok.inj hok
  exact ⟨s', rfl, h s s' hs⟩

theorem throw (e : ε) (y : EStateM ε σ α) : Follows R S (throw e) y := by
  intro s s' _ a t hok
  cases hok

theorem modify {f g : σ → σ} (h : ∀ s s', R s s' → S (f s) (g s')) :
    Follows R S (modify f : EStateM ε σ PUnit) (modify g) := by
  intro s s' hs a t hok
  obtain ⟨-, rfl⟩ := EStateM.Result.ok.inj hok
  exact ⟨g s', rfl, h s s' hs⟩

theorem bind {x y : EStateM ε σ α} {f g : α → EStateM ε σ β} (hx : Follows R S x y)
    (hf : ∀ a, Follows S T (f a) (g a)) : Follows R T (x >>= f) (y >>= g) := by
  intro s s' hs b t hok
  obtain ⟨a, u, hxs, hfa⟩ := bind_eq_ok.mp hok
  obtain ⟨u', hys, hu⟩ := hx s s' hs a u hxs
  obtain ⟨t', hga, ht⟩ := hf a u u' hu b t hfa
  exact ⟨t', (bind_of_ok hys).trans hga, ht⟩

theorem read_bind {x : EStateM ε σ α} {r : σ → α} {f : α → EStateM ε σ β}
    (hx : ∀ s, x s = .ok (r s) s) (hsame : ∀ s s', R s s' → f (r s') = f (r s))
    (hf : ∀ s s', R s s' → Follows R S (f (r s)) (f (r s))) : Follows R S (x >>= f) (x >>= f) := by
  intro s s' hs b t hok
  rw [bind_of_ok (hx s)] at hok
  rw [bind_of_ok (hx s'), hsame s s' hs]
  exact hf s s' hs s s' hs b t hok

theorem forM {f g : α → EStateM ε σ PUnit} {xs : List α} (h : ∀ x ∈ xs, Follows R R (f x) (g x)) :
    Follows R R (xs.forM f) (xs.forM g) := by
  induction xs with
  | nil => exact .pure (fun _ _ hs => hs) _
  | cons x xs ih =>
    obtain ⟨hx, hxs⟩ := List.forall_mem_cons.mp h
    exact .bind hx fun _ => ih hxs

end Follows

/-! ### Steps in another order -/

section Order

variable {κ : Type} [DecidableEq κ] {owner : α → κ} {step : α → EStateM ε σ PUnit}
  {R : κ → List α → σ → σ → Prop}

/-- Steps have owners. An owner relates states by what its steps know of them, given those that are
still to come: a step of its own follows that, and steps of others do not change it. -/
structure Independent (owner : α → κ) (step : α → EStateM ε σ PUnit)
    (R : κ → List α → σ → σ → Prop) : Prop where
  own : ∀ x xs, Follows (R (owner x) (x :: xs)) (R (owner x) xs) (step x) (step x)
  other : ∀ x xs k ys s s' u t, owner x ≠ k → R (owner x) (x :: xs) s u → R k ys s s' →
    step x s = .ok ⟨⟩ t → R k ys t s'
  symm : ∀ k xs s s', R k xs s s' → R k xs s' s
  trans : ∀ k xs s s' s'', R k xs s s' → R k xs s' s'' → R k xs s s''

namespace Independent

abbrev steps (owner : α → κ) (k : κ) (xs : List α) : List α := xs.filter fun x => owner x = k

theorem steps_cons_self (x : α) (xs : List α) :
    steps owner (owner x) (x :: xs) = x :: steps owner (owner x) xs := by
  simp [steps]

theorem steps_cons_of_ne {x : α} {k : κ} (h : owner x ≠ k) (xs : List α) :
    steps owner k (x :: xs) = steps owner k xs := by
  simp [steps, h]

theorem alone (h : Independent owner step R) {xs : List α} {s t : σ} (s' : κ → σ)
    (hR : ∀ k, R k (steps owner k xs) s (s' k)) (hrun : xs.forM step s = .ok ⟨⟩ t) :
    ∃ t' : κ → σ, ∀ k, (steps owner k xs).forM step (s' k) = .ok ⟨⟩ (t' k) ∧ R k [] t (t' k) := by
  induction xs generalizing s s' with
  | nil =>
    obtain ⟨-, rfl⟩ := EStateM.Result.ok.inj hrun
    exact ⟨s', fun k => ⟨rfl, hR k⟩⟩
  | cons x xs ih =>
    obtain ⟨⟨⟩, s₁, hx, hrest⟩ := bind_eq_ok.mp hrun
    have hown : R (owner x) (x :: steps owner (owner x) xs) s (s' (owner x)) := by
      rw [← steps_cons_self]
      exact hR (owner x)
    obtain ⟨u, hu, hRu⟩ := h.own x _ s (s' (owner x)) hown ⟨⟩ s₁ hx
    have hnext : ∀ k, R k (steps owner k xs) s₁ (Function.update s' (owner x) u k) := by
      intro k
      by_cases hk : owner x = k
      · subst hk
        rwa [Function.update_self]
      · rw [Function.update_of_ne (Ne.symm hk)]
        exact h.other x _ k _ s (s' k) _ s₁ hk hown (steps_cons_of_ne hk xs ▸ hR k) hx
    obtain ⟨t', ht'⟩ := ih _ hnext hrest
    refine ⟨t', fun k => ⟨?_, (ht' k).2⟩⟩
    have hk' := (ht' k).1
    by_cases hk : owner x = k
    · subst hk
      rw [Function.update_self] at hk'
      rw [steps_cons_self]
      exact (bind_of_ok hu).trans hk'
    · rwa [Function.update_of_ne (Ne.symm hk), ← steps_cons_of_ne hk xs] at hk'

theorem together (h : Independent owner step R) {xs : List α} (s t : κ → σ) {s' : σ}
    (hR : ∀ k, R k (steps owner k xs) (s k) s')
    (hrun : ∀ k, (steps owner k xs).forM step (s k) = .ok ⟨⟩ (t k)) :
    ∃ t', xs.forM step s' = .ok ⟨⟩ t' ∧ ∀ k, R k [] (t k) t' := by
  induction xs generalizing s s' with
  | nil =>
    have hst : s = t := funext fun k => (EStateM.Result.ok.inj (hrun k)).2
    exact ⟨s', rfl, hst ▸ hR⟩
  | cons x xs ih =>
    have hown : R (owner x) (x :: steps owner (owner x) xs) (s (owner x)) s' := by
      rw [← steps_cons_self]
      exact hR (owner x)
    have hrunx := hrun (owner x)
    rw [steps_cons_self] at hrunx
    obtain ⟨⟨⟩, u, hx, hrestx⟩ := bind_eq_ok.mp hrunx
    obtain ⟨u', hx', hRu⟩ := h.own x _ (s (owner x)) s' hown ⟨⟩ u hx
    have hnext : ∀ k, R k (steps owner k xs) (Function.update s (owner x) u k) u' ∧
        (steps owner k xs).forM step (Function.update s (owner x) u k) = .ok ⟨⟩ (t k) := by
      intro k
      by_cases hk : owner x = k
      · subst hk
        rw [Function.update_self]
        exact ⟨hRu, hrestx⟩
      · rw [Function.update_of_ne (Ne.symm hk), ← steps_cons_of_ne hk xs]
        have hback :=
          h.other x _ k _ s' (s k) _ u' hk (h.symm _ _ _ _ hown) (h.symm _ _ _ _ (hR k)) hx'
        exact ⟨h.symm _ _ _ _ hback, hrun k⟩
    obtain ⟨t', ht', hRt⟩ := ih _ (fun k => (hnext k).1) fun k => (hnext k).2
    exact ⟨t', (bind_of_ok hx').trans ht', hRt⟩

theorem forM (h : Independent owner step R) {xs ys : List α} {s s' t : σ}
    (hsteps : ∀ k, steps owner k xs = steps owner k ys) (hR : ∀ k, R k (steps owner k xs) s s')
    (hrun : xs.forM step s = .ok ⟨⟩ t) : ∃ t', ys.forM step s' = .ok ⟨⟩ t' ∧ ∀ k, R k [] t t' := by
  obtain ⟨u, hu⟩ := h.alone (fun _ => s') hR hrun
  have hrefl : ∀ k, R k (steps owner k ys) s' s' := fun k =>
    hsteps k ▸ h.trans k _ s' s s' (h.symm _ _ _ _ (hR k)) (hR k)
  obtain ⟨t', ht', hRt⟩ := h.together (fun _ => s') u hrefl fun k => hsteps k ▸ (hu k).1
  exact ⟨t', ht', fun k => h.trans k _ _ _ _ (hu k).2 (hRt k)⟩

end Independent

end Order

end CodeAtlas.Effect
