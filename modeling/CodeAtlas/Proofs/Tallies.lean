import CodeAtlas.Proofs.Effects
import CodeAtlas.Proofs.Maps
import CodeAtlas.Scan.Scanner

/-!
# Counting while scanning

Scanners count hits and misses while they read a file. They never look at what they have counted, so
reading a file is a fixed list of mentions to be counted and a fixed outcome
(`Scanner.scripted_fileResult`). Counting mentions in another order comes to the same numbers
(`Tallied.forM_tally_perm`), and it cannot fail where no number has been replaced by something else
(`Statistics.Countable.forM_tally`).
-/

namespace CodeAtlas

open Effect Mention

def Mention.bare {α : Type} : Mention α → Mention Unit
  | .hit _ => .hit ()
  | .miss => .miss

def Mention.key : Mention Unit → StatisticKey
  | .hit _ => .parsingHits
  | .miss => .parsingMisses

theorem StatisticKey.ofName?_name (key : StatisticKey) : ofName? key.name = some key := by
  cases key <;> decide

theorem StatisticKey.name_injective {key key' : StatisticKey} (h : key.name = key'.name) :
    key = key' :=
  Option.some.inj ((ofName?_name key).symm.trans ((congrArg ofName? h).trans (ofName?_name key')))

theorem Mention.key_injective {m m' : Mention Unit} (h : m.key = m'.key) : m = m' := by
  cases m with
  | hit a =>
    cases m' with
    | hit b => rfl
    | miss => cases h
  | miss =>
    cases m' with
    | hit b => cases h
    | miss => rfl

def Statistic.next : Option Statistic → Except Fault Statistic
  | none => .ok (.figure (.int 1))
  | some v => v.succ

theorem Statistic.exists_next_of_next {v : Option Statistic} {w : Statistic} (h : next v = .ok w) :
    ∃ w', next (some w) = .ok w' := by
  cases v with
  | none =>
    obtain rfl := Except.ok.inj h
    exact ⟨_, rfl⟩
  | some v =>
    rw [next, succ.eq_def] at h
    split at h
    · obtain rfl := Except.ok.inj h
      exact ⟨_, rfl⟩
    · obtain rfl := Except.ok.inj h
      exact ⟨_, rfl⟩
    · obtain rfl := Except.ok.inj h
      exact ⟨_, rfl⟩
    · cases h

/-- One more hit and one more miss can be counted. -/
def Statistics.Countable (st : Statistics) : Prop :=
  ∀ m : Mention Unit, ∃ v, Statistic.next (st.entries.get? m.key.name) = .ok v

namespace Tallied

variable {α β : Type} {st st' : Statistics} {ms ms' : List (Mention Unit)} {m : Mention Unit}

/-! ### Counting -/

theorem tally_bare (m : Mention α) : tally m.bare = tally m := by
  cases m with
  | hit a => rfl
  | miss => rfl

theorem tally_eq (m : Mention Unit) (st : Statistics) : tally m st =
    match Statistic.next (st.entries.get? m.key.name) with
    | .ok v => .ok () ⟨st.entries.insert m.key.name v⟩
    | .error e => .error e st := by
  have hcount : ∀ key, count key st =
      match Statistic.next (st.entries.get? key.name) with
      | .ok v => .ok () ⟨st.entries.insert key.name v⟩
      | .error e => .error e st := by
    intro key
    rw [count, get_bind, Statistics.increment]
    cases st.entries.get? key.name with
    | none => rfl
    | some v =>
      rw [Statistic.next]
      cases hsucc : v.succ with
      | ok w => simp only [hsucc]; rfl
      | error e => simp only [hsucc]; rfl
  cases m with
  | hit a => exact hcount _
  | miss => exact hcount _

theorem tally_eq_ok_iff : tally m st = .ok () st' ↔
    ∃ v, Statistic.next (st.entries.get? m.key.name) = .ok v ∧
      st' = ⟨st.entries.insert m.key.name v⟩ := by
  rw [tally_eq]
  cases Statistic.next (st.entries.get? m.key.name) with
  | ok v => simp [eq_comm]
  | error e => simp

variable {st₁ : Statistics}

theorem tally_alike (halike : st.entries.Alike st'.entries)
    (hok : tally m st = .ok () st₁) :
    ∃ st₂, tally m st' = .ok () st₂ ∧ st₁.entries.Alike st₂.entries := by
  obtain ⟨v, hv, rfl⟩ := tally_eq_ok_iff.mp hok
  rw [← halike m.key.name] at hv
  exact ⟨_, tally_eq_ok_iff.mpr ⟨v, hv, rfl⟩, halike.insert m.key.name v⟩

theorem tally_comm {m m' : Mention Unit} {st₁ st₂ : Statistics} (h : tally m st = .ok () st₁)
    (h' : tally m' st₁ = .ok () st₂) :
    ∃ st₁' st₂', tally m' st = .ok () st₁' ∧ tally m st₁' = .ok () st₂' ∧
      st₂.entries.Alike st₂'.entries := by
  by_cases heq : m = m'
  · subst heq
    exact ⟨st₁, st₂, h, h', .refl _⟩
  have hne : m.key.name ≠ m'.key.name :=
    fun hname => heq (key_injective (StatisticKey.name_injective hname))
  obtain ⟨v, hv, rfl⟩ := tally_eq_ok_iff.mp h
  obtain ⟨v', hv', rfl⟩ := tally_eq_ok_iff.mp h'
  rw [OrderedMap.get?_insert, if_neg hne] at hv'
  refine ⟨_, _, tally_eq_ok_iff.mpr ⟨v', hv', rfl⟩, tally_eq_ok_iff.mpr ⟨v, ?_, rfl⟩, fun k => ?_⟩
  · rw [OrderedMap.get?_insert, if_neg hne.symm, hv]
  · simp only [OrderedMap.get?_insert]
    split_ifs with hk hk'
    · exact absurd (hk.trans hk'.symm) hne
    · rfl
    · rfl
    · rfl

theorem forM_tally_alike (halike : st.entries.Alike st'.entries)
    (hok : ms.forM tally st = .ok () st₁) :
    ∃ st₂, ms.forM tally st' = .ok () st₂ ∧ st₁.entries.Alike st₂.entries := by
  induction ms generalizing st st' with
  | nil =>
    obtain ⟨-, rfl⟩ := EStateM.Result.ok.inj hok
    exact ⟨st', rfl, halike⟩
  | cons m ms ih =>
    obtain ⟨⟨⟩, s, hs, hrest⟩ := bind_eq_ok.mp hok
    obtain ⟨s', hs', halike'⟩ := tally_alike halike hs
    obtain ⟨st₂, hst₂, halike₂⟩ := ih halike' hrest
    exact ⟨st₂, bind_eq_ok.mpr ⟨(), s', hs', hst₂⟩, halike₂⟩

theorem forM_tally_perm (hperm : ms.Perm ms') (halike : st.entries.Alike st'.entries)
    (hok : ms.forM tally st = .ok () st₁) :
    ∃ st₂, ms'.forM tally st' = .ok () st₂ ∧ st₁.entries.Alike st₂.entries := by
  induction hperm generalizing st st' st₁ with
  | nil =>
    obtain ⟨-, rfl⟩ := EStateM.Result.ok.inj hok
    exact ⟨st', rfl, halike⟩
  | cons m hperm ih =>
    obtain ⟨⟨⟩, s, hs, hrest⟩ := bind_eq_ok.mp hok
    obtain ⟨s', hs', halike'⟩ := tally_alike halike hs
    obtain ⟨st₂, hst₂, halike₂⟩ := ih halike' hrest
    exact ⟨st₂, bind_eq_ok.mpr ⟨(), s', hs', hst₂⟩, halike₂⟩
  | swap m m' ms =>
    obtain ⟨⟨⟩, s, hs, hrest⟩ := bind_eq_ok.mp hok
    obtain ⟨⟨⟩, t, ht, hrest⟩ := bind_eq_ok.mp hrest
    obtain ⟨s', hs', halike₁⟩ := tally_alike halike hs
    obtain ⟨t', ht', halike₂⟩ := tally_alike halike₁ ht
    obtain ⟨s₁, t₁, hs₁, ht₁, halike₃⟩ := tally_comm hs' ht'
    obtain ⟨st₂, hst₂, halike₄⟩ := forM_tally_alike (halike₂.trans halike₃) hrest
    exact ⟨st₂, bind_eq_ok.mpr ⟨(), s₁, hs₁, bind_eq_ok.mpr ⟨(), t₁, ht₁, hst₂⟩⟩, halike₄⟩
  | trans _ _ ih ih' =>
    obtain ⟨s, hs, halike₁⟩ := ih halike hok
    obtain ⟨st₂, hst₂, halike₂⟩ := ih' (.refl _) hs
    exact ⟨st₂, hst₂, halike₁.trans halike₂⟩

end Tallied

namespace Tallied

variable {α β : Type} {st st' : Statistics} {ms ms' : List (Mention Unit)} {x : Tallied α}
  {r : Except Fault α} {f : α → Tallied β}

/-! ### Scripts -/

/-- Counts mentions, and ends as `r` says. -/
def script (ms : List (Mention Unit)) (r : Except Fault α) : Tallied α := do
  ms.forM tally
  lift r

/-- What a computation counts and how it ends does not depend on what has been counted before. -/
def Scripted (x : Tallied α) : Prop := ∃ ms r, x = script ms r

theorem lift_eq_ok {a : α} : lift r st = .ok a st' ↔ r = .ok a ∧ st' = st :=
  lifted_eq_ok (fun _ => rfl) fun _ => rfl

theorem script_eq_ok_iff {a : α} :
    script ms r st = .ok a st' ↔ r = .ok a ∧ ms.forM tally st = .ok () st' := by
  rw [script, bind_eq_ok]
  constructor
  · rintro ⟨⟨⟩, t, hcount, hlift⟩
    obtain ⟨hr, rfl⟩ := lift_eq_ok.mp hlift
    exact ⟨hr, hcount⟩
  · rintro ⟨hr, hcount⟩
    exact ⟨(), st', hcount, lift_eq_ok.mpr ⟨hr, rfl⟩⟩

theorem script_bind_of_ok {r : Except Fault β} (a : α) (h : f a = script ms' r) :
    script ms (.ok a) >>= f = script (ms ++ ms') r := by
  have hlift : (lift (.ok a) : Tallied α) = pure a := rfl
  rw [script, script, bind_assoc, List.forM_eq_forM, List.forM_append, bind_assoc, hlift]
  simp only [pure_bind, h, script, List.forM_eq_forM]

theorem scripted_lift (r : Except Fault α) : Scripted (lift r) := ⟨[], r, rfl⟩

theorem scripted_pure (a : α) : Scripted (pure a) := scripted_lift (.ok a)

theorem scripted_tally (m : Mention α) : Scripted (tally m) := by
  refine ⟨[m.bare], .ok (), ?_⟩
  rw [script, List.forM_eq_forM, List.forM_cons, List.forM_nil, tally_bare, bind_assoc, pure_bind]
  exact (bind_pure_unit (x := tally m)).symm

theorem Scripted.bind (hx : Scripted x) (hf : ∀ a, Scripted (f a)) : Scripted (x >>= f) := by
  obtain ⟨ms, r, rfl⟩ := hx
  cases r with
  | error e => exact ⟨ms, .error e, bind_assoc _ _ _⟩
  | ok a =>
    obtain ⟨ms', r', h⟩ := hf a
    exact ⟨ms ++ ms', r', script_bind_of_ok a h⟩

theorem Scripted.ite {c : Prop} [Decidable c] {y : Tallied α} (hx : Scripted x) (hy : Scripted y) :
    Scripted (if c then x else y) := by
  split
  · exact hx
  · exact hy

theorem scripted_collect {step : α → Tallied (List β)} (hstep : ∀ a, Scripted (step a))
    (ms : List (Mention α)) : Scripted (collect step ms) := by
  induction ms with
  | nil => exact scripted_pure []
  | cons m ms ih =>
    have hrest : ∀ here, Scripted (do return here ++ (← collect step ms)) :=
      fun here => ih.bind fun _ => scripted_pure _
    refine (scripted_tally m).bind fun _ => ?_
    cases m with
    | hit a => exact (hstep a).bind hrest
    | miss => exact (scripted_pure []).bind hrest

theorem collect_pure (f : α → List β) (ms : List (Mention α)) :
    collect (fun a => pure (f a)) ms =
      script (ms.map bare) (.ok ((ms.filterMap found?).flatMap f)) := by
  induction ms with
  | nil => rfl
  | cons m ms ih =>
    have hscript : ∀ r : Except Fault (List β), script ((m :: ms).map bare) r =
        tally m >>= fun _ => script (ms.map bare) r := by
      intro r
      rw [script, List.map_cons, List.forM_eq_forM, List.forM_cons, tally_bare, bind_assoc]
      rfl
    have hrest : ∀ here,
      (do return here ++ (← collect (fun a => pure (f a)) ms) : Tallied (List β)) =
        script (ms.map bare) (.ok (here ++ (ms.filterMap found?).flatMap f)) := by
      intro here
      have hend : ∀ rest, (pure (here ++ rest) : Tallied (List β)) =
          script [] (.ok (here ++ rest)) := fun _ => rfl
      rw [ih, script_bind_of_ok _ (f := fun rest => pure (here ++ rest)) (hend _), List.append_nil]
    rw [hscript, collect]
    cases m with
    | hit a => exact congrArg (tally (.hit a) >>= ·) (funext fun _ => hrest (f a))
    | miss => exact congrArg (tally .miss >>= ·) (funext fun _ => hrest [])

end Tallied

namespace Imports

open Tallied

variable (ctx : ScanContext)

theorem scripted_unlessIgnored (dependency : String) : Scripted (unlessIgnored ctx dependency) :=
  (scripted_lift _).bind fun _ => .ite (scripted_pure _) (scripted_pure _)

theorem scripted_keepUnignored (ds : List String) : Scripted (keepUnignored ctx ds) := by
  induction ds with
  | nil => exact scripted_pure []
  | cons d ds ih =>
    exact (scripted_unlessIgnored ctx d).bind fun _ => ih.bind fun _ => scripted_pure _

theorem scripted_ofFile (language : Language) (here : Place) (words : List String) :
    Scripted (ofFile language ctx here words) := by
  have hincluded : ∀ mentions, Scripted (included ctx here mentions) := fun mentions =>
    scripted_collect (fun d => scripted_unlessIgnored ctx _) mentions
  cases language with
  | java => exact (scripted_lift _).bind (scripted_collect (scripted_unlessIgnored ctx))
  | c => exact (scripted_lift _).bind hincluded
  | cpp => exact (scripted_lift _).bind hincluded
  | objc => exact (scripted_lift _).bind hincluded
  | javascript =>
    exact (scripted_lift _).bind (scripted_collect
      fun d => (scripted_lift _).bind (scripted_unlessIgnored ctx))
  | python =>
    exact scripted_collect (fun i => (scripted_lift _).bind (scripted_keepUnignored ctx)) _

end Imports

theorem Scanner.scripted_fileResult (language : Language) (ctx : ScanContext) (file : SourceFile) :
    Tallied.Scripted (fileResult language ctx file) := by
  have hpackage : ∀ words, Tallied.Scripted (packageOf words) := fun words =>
    (Tallied.scripted_lift _).bind fun mentions =>
      (Tallied.scripted_collect (fun name => Tallied.scripted_pure [name]) mentions).bind
        fun _ => Tallied.scripted_pure _
  refine (Tallied.scripted_lift _).bind fun source => ?_
  have himports : ∀ package, Tallied.Scripted (do
      let r := blankResult language ctx source file
      let imports ← Imports.ofFile language ctx (placeOf source r) r.words
      return { r with moduleName := package, imports := imports }) := fun package =>
    (Imports.scripted_ofFile ctx language _ _).bind fun _ => Tallied.scripted_pure _
  exact .ite ((hpackage _).bind himports) ((Tallied.scripted_pure "").bind himports)

/-! ### Counting that cannot fail -/

namespace Statistics.Countable

variable {st : Statistics} {α : Type}

theorem tally (h : st.Countable) (m : Mention Unit) :
    ∃ st', Tallied.tally m st = .ok () st' ∧ st'.Countable := by
  obtain ⟨v, hv⟩ := h m
  refine ⟨_, Tallied.tally_eq_ok_iff.mpr ⟨v, hv, rfl⟩, fun m' => ?_⟩
  rw [OrderedMap.get?_insert]
  split_ifs
  · exact Statistic.exists_next_of_next hv
  · exact h m'

theorem forM_tally (h : st.Countable) (ms : List (Mention Unit)) :
    ∃ st', ms.forM Tallied.tally st = .ok () st' ∧ st'.Countable := by
  induction ms generalizing st with
  | nil => exact ⟨st, rfl, h⟩
  | cons m ms ih =>
    obtain ⟨st₁, hst₁, h₁⟩ := h.tally m
    obtain ⟨st', hst', h'⟩ := ih h₁
    exact ⟨st', bind_eq_ok.mpr ⟨(), st₁, hst₁, hst'⟩, h'⟩

theorem script (h : st.Countable) (ms : List (Mention Unit)) (a : α) :
    ∃ st', Tallied.script ms (.ok a) st = .ok a st' ∧ st'.Countable := by
  obtain ⟨st', hst', h'⟩ := h.forM_tally ms
  exact ⟨st', Tallied.script_eq_ok_iff.mpr ⟨rfl, hst'⟩, h'⟩

theorem add (h : st.Countable) {key : StatisticKey} (hhits : key ≠ .parsingHits)
    (hmisses : key ≠ .parsingMisses) (v : Statistic) : (st.add key v).Countable := by
  intro m
  have hname : key.name ≠ m.key.name := by
    cases m with
    | hit a => exact fun h => hhits (StatisticKey.name_injective h)
    | miss => exact fun h => hmisses (StatisticKey.name_injective h)
  have hget : (st.add key v).entries.get? m.key.name = st.entries.get? m.key.name := by
    rw [Statistics.add, addNamed, OrderedMap.get?_insertNew, if_neg hname, Option.or_none]
  rw [hget]
  exact h m

end Statistics.Countable

end CodeAtlas
