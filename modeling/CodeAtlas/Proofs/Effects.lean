import CodeAtlas.Fault

/-!
# Computations that may fail

How a computation on a state that ended well is taken apart (`Effect.bind_eq_ok`), and what going
through a list does: steps that are known exactly make a whole that is known exactly
(`Effect.forM_eq_ok_iff`), and what every step preserves holds in the end (`Effect.forM_induction`).
-/

namespace CodeAtlas.Effect

variable {ε σ α β : Type}

variable {x : EStateM ε σ α} {s s' : σ} {f : α → EStateM ε σ β}

theorem bind_eq_ok {b : β} :
    (x >>= f) s = .ok b s' ↔ ∃ a t, x s = .ok a t ∧ f a t = .ok b s' := by
  change EStateM.bind x f s = .ok b s' ↔ _
  rw [EStateM.bind]
  cases x s with
  | ok a t =>
    constructor
    · intro h
      exact ⟨a, t, rfl, h⟩
    · rintro ⟨a', t', heq, h⟩
      obtain ⟨rfl, rfl⟩ := EStateM.Result.ok.inj heq
      exact h
  | error e t => simp

theorem bind_of_ok {s t : σ} {a : α} (h : x s = .ok a t) :
    (x >>= f) s = f a t := by
  change EStateM.bind x f s = f a t
  rw [EStateM.bind, h]

theorem bind_of_error {s t : σ} {e : ε} (h : x s = .error e t) :
    (x >>= f) s = .error e t := by
  change EStateM.bind x f s = .error e t
  rw [EStateM.bind, h]

theorem bind_congr_left {x y : EStateM ε σ α} {s t : σ} (h : x s = y t) (f : α → EStateM ε σ β) :
    (x >>= f) s = (y >>= f) t := by
  change EStateM.bind x f s = EStateM.bind y f t
  rw [EStateM.bind, EStateM.bind, h]

theorem throw_apply (e : ε) (s : σ) : (throw e : EStateM ε σ α) s = .error e s := rfl

theorem lifted_eq_ok {l : Except ε α → EStateM ε σ α} (hok : ∀ a, l (.ok a) = pure a)
    (herror : ∀ e, l (.error e) = throw e) {x : Except ε α} {a : α} :
    l x s = .ok a s' ↔ x = .ok a ∧ s' = s := by
  cases x with
  | ok u => simp [hok, pure, EStateM.pure, eq_comm]
  | error e => simp [herror, throw_apply]

theorem get_bind {f : σ → EStateM ε σ β} {s : σ} : (get >>= f) s = f s s := rfl

theorem modify_bind {g : σ → σ} {f : Unit → EStateM ε σ β} {s : σ} :
    (modify g >>= f) s = f () (g s) := rfl

/-- The state in which a computation ends well, if it does. -/
def final? (x : EStateM ε σ α) (s : σ) : Option σ :=
  match x s with
  | .ok _ s' => some s'
  | .error _ _ => none

theorem exists_of_final? (h : final? x s = some s') : ∃ a, x s = .ok a s' := by
  rw [final?] at h
  split at h
  · next a _ hok => exact ⟨a, by rw [hok, ← Option.some.inj h]⟩
  · cases h

theorem of_final? {x : EStateM ε σ Unit} (h : final? x s = some s') : x s = .ok () s' :=
  (exists_of_final? h).choose_spec

def fault? (x : EStateM ε σ α) (s : σ) : Option ε :=
  match x s with
  | .ok _ _ => none
  | .error e _ => some e

theorem of_fault? {s : σ} {e : ε} (h : fault? x s = some e) : ∃ s', x s = .error e s' := by
  rw [fault?] at h
  split at h
  · cases h
  · next hfails => exact ⟨_, Option.some.inj h ▸ hfails⟩

variable {f : α → EStateM ε σ Unit} {xs : List α}

/-- If each step succeeds just under a condition on its item and then changes the state as `g` says,
the whole succeeds just if all these conditions hold and then changes the state as the fold of `g`
says. -/
theorem forM_eq_ok_iff {P : α → Prop} {g : σ → α → σ}
    (h : ∀ x ∈ xs, ∀ s s', f x s = .ok () s' ↔ P x ∧ s' = g s x) :
    xs.forM f s = .ok () s' ↔ (∀ x ∈ xs, P x) ∧ s' = xs.foldl g s := by
  induction xs generalizing s with
  | nil =>
    change EStateM.Result.ok () s = .ok () s' ↔ _
    simp [eq_comm]
  | cons x xs ih =>
    obtain ⟨hx, hxs⟩ := List.forall_mem_cons.mp h
    rw [List.forM_eq_forM, List.forM_cons, bind_eq_ok, List.forall_mem_cons, List.foldl_cons]
    constructor
    · rintro ⟨⟨⟩, t, hf, hrest⟩
      obtain ⟨hP, rfl⟩ := (hx s t).mp hf
      obtain ⟨hPs, hs'⟩ := (ih hxs).mp hrest
      exact ⟨⟨hP, hPs⟩, hs'⟩
    · rintro ⟨⟨hP, hPs⟩, hs'⟩
      exact ⟨(), g s x, (hx s _).mpr ⟨hP, rfl⟩, (ih hxs).mpr ⟨hPs, hs'⟩⟩

theorem forM_of_steady {s : σ} (h : ∀ x ∈ xs, f x s = .ok () s) :
    xs.forM f s = .ok () s := by
  induction xs with
  | nil => rfl
  | cons x xs ih =>
    obtain ⟨hx, hxs⟩ := List.forall_mem_cons.mp h
    exact (bind_of_ok hx).trans (ih hxs)

theorem forM_append_of_ok (ys : List α) {s t : σ} (h : xs.forM f s = .ok () t) :
    (xs ++ ys).forM f s = ys.forM f t := by
  rw [List.forM_eq_forM, List.forM_append]
  exact bind_of_ok h

theorem forM_append_eq_ok {xs ys : List α} :
    (xs ++ ys).forM f s = .ok () s' ↔ ∃ t, xs.forM f s = .ok () t ∧ ys.forM f t = .ok () s' := by
  rw [List.forM_eq_forM, List.forM_append, bind_eq_ok]
  exact ⟨fun ⟨_, t, hxs, hys⟩ => ⟨t, hxs, hys⟩, fun ⟨t, hxs, hys⟩ => ⟨(), t, hxs, hys⟩⟩

/-- What every step that succeeds preserves, for the steps done so far, holds of all of them in the
end. -/
theorem forM_induction {I : List α → σ → Prop} (done : List α)
    (hstep : ∀ done, ∀ x ∈ xs, ∀ s s', I done s → f x s = .ok () s' → I (done ++ [x]) s')
    (hs : I done s) (h : xs.forM f s = .ok () s') : I (done ++ xs) s' := by
  induction xs generalizing done s with
  | nil =>
    obtain rfl : s = s' := (EStateM.Result.ok.inj h).2
    simpa using hs
  | cons x xs ih =>
    rw [List.forM_eq_forM, List.forM_cons, bind_eq_ok] at h
    obtain ⟨⟨⟩, t, hx, h⟩ := h
    have ht := hstep done x (by simp) s t hs hx
    rw [List.append_cons]
    exact ih _ (fun done y hy => hstep done y (by simp [hy])) ht h

/-! ### What is kept -/

/-- Whenever `x` ends well, it keeps what `I` says of the state, and `Q` holds of what it gives. -/
def Ensures (I : σ → Prop) (Q : α → Prop) (x : EStateM ε σ α) : Prop :=
  ∀ s a s', I s → x s = .ok a s' → I s' ∧ Q a

def Keeps (I : σ → Prop) (x : EStateM ε σ α) : Prop := ∀ s a s', I s → x s = .ok a s' → I s'

variable {I : σ → Prop}

theorem Ensures.keeps {Q : α → Prop} (h : Ensures I Q x) : Keeps I x :=
  fun s a s' hs hx => (h s a s' hs hx).1

namespace Keeps

theorem pure (a : α) : Keeps I (pure a : EStateM ε σ α) := by
  rintro s b s' hs h
  obtain ⟨-, rfl⟩ := EStateM.Result.ok.inj h
  exact hs

theorem throw (e : ε) : Keeps I (throw e : EStateM ε σ α) := by
  rintro s b s' - h
  cases h

theorem get : Keeps I (get : EStateM ε σ σ) := by
  rintro s b s' hs h
  obtain ⟨-, rfl⟩ := EStateM.Result.ok.inj h
  exact hs

theorem modify {f : σ → σ} (h : ∀ s, I s → I (f s)) : Keeps I (modify f : EStateM ε σ PUnit) := by
  rintro s b s' hs hok
  obtain ⟨-, rfl⟩ := EStateM.Result.ok.inj hok
  exact h s hs

theorem bind_of {Q : α → Prop} {x : EStateM ε σ α} {f : α → EStateM ε σ β} (hx : Ensures I Q x)
    (hf : ∀ a, Q a → Keeps I (f a)) : Keeps I (x >>= f) := by
  intro s b s' hs h
  obtain ⟨a, t, hxs, hfa⟩ := bind_eq_ok.mp h
  obtain ⟨ht, ha⟩ := hx s a t hs hxs
  exact hf a ha t b s' ht hfa

theorem bind {x : EStateM ε σ α} {f : α → EStateM ε σ β} (hx : Keeps I x)
    (hf : ∀ a, Keeps I (f a)) : Keeps I (x >>= f) :=
  bind_of (Q := fun _ => True) (fun s a s' hs h => ⟨hx s a s' hs h, trivial⟩) fun a _ => hf a

theorem throw_bind (e : ε) (f : α → EStateM ε σ β) : Keeps I (MonadExcept.throw e >>= f) := by
  rintro s b s' - h
  cases h

theorem ite_rest {c : Prop} [Decidable c] {x y : EStateM ε σ α} (hx : Keeps I y → Keeps I x)
    (hy : Keeps I y) : Keeps I (if c then x else y) := by
  split
  · exact hx hy
  · exact hy

theorem forM {f : α → EStateM ε σ PUnit} {xs : List α} (h : ∀ x ∈ xs, Keeps I (f x)) :
    Keeps I (xs.forM f) := by
  intro s _ s' hs hok
  exact forM_induction (I := fun _ s => I s) []
    (fun _ x hx s s' hs hok => h x hx s () s' hs hok) hs hok

end Keeps

/-! ### What is reached -/

/-- From `s`, `x` ends well, and `Q` holds of what it gives and of the state that it leaves. -/
def Reaches (x : EStateM ε σ α) (s : σ) (Q : α → σ → Prop) : Prop := ∃ a s', x s = .ok a s' ∧ Q a s'

namespace Reaches

variable {s : σ} {Q Q' : α → σ → Prop} {x : EStateM ε σ α}

theorem of_ok (h : Reaches x s Q) {a : α} {s' : σ} (hok : x s = .ok a s') : Q a s' := by
  obtain ⟨b, t, hx, hQ⟩ := h
  obtain ⟨rfl, rfl⟩ := EStateM.Result.ok.inj (hx.symm.trans hok)
  exact hQ

theorem imp (h : Reaches x s Q) (himp : ∀ a s', Q a s' → Q' a s') : Reaches x s Q' := by
  obtain ⟨a, s', hx, hQ⟩ := h
  exact ⟨a, s', hx, himp a s' hQ⟩

theorem bind {R : β → σ → Prop} {f : α → EStateM ε σ β} (hx : Reaches x s Q)
    (hf : ∀ a t, Q a t → Reaches (f a) t R) : Reaches (x >>= f) s R := by
  obtain ⟨a, t, hxs, hQ⟩ := hx
  obtain ⟨b, s', hfa, hR⟩ := hf a t hQ
  exact ⟨b, s', (bind_of_ok hxs).trans hfa, hR⟩

theorem forM {f : α → EStateM ε σ PUnit} {I : List α → σ → Prop} {xs : List α} (done : List α)
    (hs : I done s) (hstep : ∀ done x rest t, done ++ x :: rest = xs → I done t →
      Reaches (f x) t fun _ t' => I (done ++ [x]) t')
    {rest : List α} (hxs : done ++ rest = xs) : Reaches (rest.forM f) s fun _ s' => I xs s' := by
  induction rest generalizing done s with
  | nil =>
    rw [List.append_nil] at hxs
    exact ⟨⟨⟩, s, rfl, hxs ▸ hs⟩
  | cons x rest ih =>
    refine bind (hstep done x rest s hxs hs) fun _ t ht => ih (done ++ [x]) ht ?_
    rw [← hxs, List.append_assoc]
    rfl

end Reaches

/-! ### Work on a part of the state -/

section Part

variable {τ : Type} {g : τ → σ}

def mapState (g : τ → σ) : EStateM.Result ε τ α → EStateM.Result ε σ α
  | .ok a t => .ok a (g t)
  | .error e t => .error e (g t)

theorem mapState_eq_ok {r : EStateM.Result ε τ α} {a : α} {s : σ} :
    mapState g r = .ok a s ↔ ∃ t, r = .ok a t ∧ s = g t := by
  cases r with
  | ok b t =>
    constructor
    · intro h
      obtain ⟨rfl, rfl⟩ := EStateM.Result.ok.inj h
      exact ⟨t, rfl, rfl⟩
    · rintro ⟨t', h, rfl⟩
      obtain ⟨rfl, rfl⟩ := EStateM.Result.ok.inj h
      rfl
  | error e t => simp [mapState]

/-- In states that have a part in them, `x` does to the part what `y` does, and nothing else. -/
def WorksOn (g : τ → σ) (x : EStateM ε σ α) (y : EStateM ε τ α) : Prop :=
  ∀ t, x (g t) = mapState g (y t)

namespace WorksOn

theorem pure (a : α) : WorksOn g (pure a : EStateM ε σ α) (pure a) := fun _ => rfl

theorem throw (e : ε) : WorksOn g (throw e : EStateM ε σ α) (throw e) := fun _ => rfl

theorem bind {x : EStateM ε σ α} {y : EStateM ε τ α} {f : α → EStateM ε σ β} {h : α → EStateM ε τ β}
    (hx : WorksOn g x y) (hf : ∀ a, WorksOn g (f a) (h a)) : WorksOn g (x >>= f) (y >>= h) := by
  intro t
  change EStateM.bind x f (g t) = mapState g (EStateM.bind y h t)
  rw [EStateM.bind, EStateM.bind, hx t]
  cases y t with
  | ok a t' => exact hf a t'
  | error e t' => rfl

theorem ite {c : Prop} [Decidable c] {x x' : EStateM ε σ α} {y y' : EStateM ε τ α}
    (hx : WorksOn g x y) (hx' : WorksOn g x' y') :
    WorksOn g (if c then x else x') (if c then y else y') := by
  split
  · exact hx
  · exact hx'

theorem read_bind {x : EStateM ε σ α} {a : α} {f : α → EStateM ε σ β} {y : EStateM ε τ β}
    (hx : ∀ t, x (g t) = .ok a (g t)) (hf : WorksOn g (f a) y) : WorksOn g (x >>= f) y :=
  fun t => (bind_of_ok (hx t)).trans (hf t)

theorem forM {f : α → EStateM ε σ PUnit} {h : α → EStateM ε τ PUnit} {xs : List α}
    (hf : ∀ x ∈ xs, WorksOn g (f x) (h x)) : WorksOn g (xs.forM f) (xs.forM h) := by
  induction xs with
  | nil => exact .pure _
  | cons x xs ih =>
    obtain ⟨hx, hxs⟩ := List.forall_mem_cons.mp hf
    exact .bind hx fun _ => ih hxs

end WorksOn

end Part

/-! ### Questions that may fail -/

/-- Whether a question was answered with yes. -/
def affirms (x : Except ε Bool) : Bool :=
  match x with
  | .ok b => b
  | .error _ => false

theorem affirms_not {x : Except ε Bool} :
    affirms (do return !(← x)) = (x.toOption == some false) := by
  obtain _ | b := x
  · rfl
  · cases b <;> rfl

theorem exists_not_eq_ok {x : Except ε Bool} :
    (∃ b, (do return !(← x)) = Except.ok b) ↔ ∃ b, x = .ok b := by
  cases x <;> simp [bind, Except.bind, pure, Except.pure]

theorem filterM_eq_ok {p : α → Except ε Bool} {xs ys : List α} :
    xs.filterM p = .ok ys ↔ (∀ x ∈ xs, ∃ b, p x = .ok b) ∧
      ys = xs.filter fun x => affirms (p x) := by
  have haux : ∀ acc zs : List α, xs.filterAuxM p acc = .ok zs ↔
      (∀ x ∈ xs, ∃ b, p x = .ok b) ∧ zs = (xs.filter fun x => affirms (p x)).reverse ++ acc := by
    induction xs with
    | nil => simp [List.filterAuxM, pure, Except.pure, eq_comm]
    | cons x xs ih =>
      intro acc zs
      rw [List.filterAuxM]
      cases hx : p x with
      | error e => simp [bind, Except.bind, hx]
      | ok b => cases b <;> simp [bind, Except.bind, hx, ih, affirms]
  have hrev : xs.filterM p = .ok ys ↔ xs.filterAuxM p [] = .ok ys.reverse := by
    rw [List.filterM]
    cases xs.filterAuxM p [] with
    | error e => simp [bind, Except.bind]
    | ok zs => simp [bind, Except.bind, pure, Except.pure, List.reverse_eq_iff]
  rw [hrev, haux, List.append_nil, List.reverse_inj]

theorem except_bind_eq_ok {x : Except ε α} {f : α → Except ε β} {b : β} :
    (x >>= f) = .ok b ↔ ∃ a, x = .ok a ∧ f a = .ok b := by
  cases x with
  | error e => simp [bind, Except.bind]
  | ok a => simp [bind, Except.bind]

theorem exists_mapM_eq_ok {f : α → Except ε β} (h : ∀ x ∈ xs, ∃ y, f x = .ok y) :
    ∃ ys, xs.mapM f = .ok ys := by
  induction xs with
  | nil => exact ⟨[], rfl⟩
  | cons x xs ih =>
    obtain ⟨hx, hxs⟩ := List.forall_mem_cons.mp h
    obtain ⟨y, hy⟩ := hx
    obtain ⟨ys, hys⟩ := ih hxs
    exact ⟨y :: ys, by simp [hy, hys, bind, Except.bind, pure, Except.pure]⟩

variable {ys : List β}

theorem mapM_cons_eq_ok {f : α → Except ε β} {x : α} :
    (x :: xs).mapM f = .ok ys ↔ ∃ z zs, f x = .ok z ∧ xs.mapM f = .ok zs ∧ ys = z :: zs := by
  cases hx : f x with
  | error e => simp [hx, bind, Except.bind]
  | ok z =>
    cases hxs : xs.mapM f with
    | error e => simp [hx, hxs, bind, Except.bind]
    | ok zs => simp [hx, hxs, bind, Except.bind, pure, Except.pure, eq_comm]

theorem mapM_eq_ok {f : α → Except ε β} {g : α → β} (h : ∀ x ∈ xs, f x = .ok (g x)) :
    xs.mapM f = .ok (xs.map g) := by
  induction xs with
  | nil => rfl
  | cons x xs ih =>
    obtain ⟨hx, hxs⟩ := List.forall_mem_cons.mp h
    exact mapM_cons_eq_ok.mpr ⟨_, _, hx, ih hxs, rfl⟩

theorem exists_of_mem_mapM {f : α → Except ε β} {y : β} (h : xs.mapM f = .ok ys)
    (hy : y ∈ ys) : ∃ x ∈ xs, f x = .ok y := by
  induction xs generalizing ys with
  | nil =>
    obtain rfl : [] = ys := Except.ok.inj h
    simp at hy
  | cons x xs ih =>
    obtain ⟨z, zs, hz, hzs, rfl⟩ := mapM_cons_eq_ok.mp h
    rcases List.mem_cons.mp hy with rfl | hy
    · exact ⟨x, List.mem_cons_self .., hz⟩
    · obtain ⟨x', hx', heq⟩ := ih hzs hy
      exact ⟨x', List.mem_cons_of_mem _ hx', heq⟩

theorem map_of_mapM {γ : Type} {f : α → Except ε β} {g : β → γ} {k : α → γ}
    (hf : ∀ x y, f x = .ok y → g y = k x) (h : xs.mapM f = .ok ys) : ys.map g = xs.map k := by
  induction xs generalizing ys with
  | nil =>
    obtain rfl : [] = ys := Except.ok.inj h
    rfl
  | cons x xs ih =>
    obtain ⟨y, ys, hy, hys, rfl⟩ := mapM_cons_eq_ok.mp h
    rw [List.map_cons, List.map_cons, ih hys, hf x y hy]

end CodeAtlas.Effect
