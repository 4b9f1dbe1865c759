import Mathlib.Logic.Basic
import Mathlib.Tactic.Lemma
import Mathlib.Data.List.Basic

/-!
Labelled transition systems: runs with the events they show, the invariant rule, and the
simulation rule by which the traces of one system are traces of another.

A label is a visible event, or `none` for a step that shows nothing. A trace collects the
visible events of a run in the order they happened.
-/

namespace St3

universe u v x

structure Lts (σ : Type u) (ε : Type v) where
  init : σ → Prop
  step : σ → Option ε → σ → Prop

namespace Lts

variable {σ : Type u} {α : Type x} {ε : Type v}

/-- The system of an executable step function, driven by commands that the run chooses
among those `ok` allows. -/
def ofStep {κ : Type*} (init : σ → Prop) (step : κ → σ → Option (σ × Option ε))
    (ok : κ → σ → Prop) : Lts σ ε where
  init := init
  step s l s' := ∃ c, ok c s ∧ step c s = some (s', l)

/-- Some steps in a row, with the events they show. -/
inductive Steps (L : Lts σ ε) : σ → List ε → σ → Prop
  | refl (s : σ) : Steps L s [] s
  | head {s s' s'' : σ} {l : Option ε} {tr : List ε} (h : L.step s l s')
      (t : Steps L s' tr s'') : Steps L s (l.toList ++ tr) s''

/-- `L.Reaches tr s`: some run shows `tr` and ends in `s`. -/
inductive Reaches (L : Lts σ ε) : List ε → σ → Prop
  | init {s : σ} (h : L.init s) : Reaches L [] s
  | step {s s' : σ} {l : Option ε} {tr : List ε} (r : Reaches L tr s) (h : L.step s l s') :
      Reaches L (tr ++ l.toList) s'

variable {L : Lts σ ε} {A : Lts α ε}

lemma Steps.one {s s' : σ} {l : Option ε} (h : L.step s l s') : L.Steps s l.toList s' := by
  simpa using Steps.head h (.refl s')

lemma Steps.trans {s s' s'' : σ} {tr tr' : List ε} (h : L.Steps s tr s')
    (h' : L.Steps s' tr' s'') : L.Steps s (tr ++ tr') s'' := by
  induction h with
  | refl => simpa using h'
  | head hs _ ih => simpa [List.append_assoc] using Steps.head hs (ih h')

/-- A silent step followed by a step with label `l`. -/
lemma Steps.silent {s s' s'' : σ} {l : Option ε} (h : L.step s none s')
    (h' : L.step s' l s'') : L.Steps s l.toList s'' := by
  simpa using Steps.head h (.one h')

/-- The first visible step of a run. -/
lemma Steps.uncons {s s' : σ} {e : ε} {tr : List ε} (h : L.Steps s (e :: tr) s') :
    ∃ s₁ s₂, L.Steps s [] s₁ ∧ L.step s₁ (some e) s₂ ∧ L.Steps s₂ tr s' := by
  generalize ht : e :: tr = t at h
  induction h with
  | refl => cases ht
  | @head s s₁ s₂ l tr' hstep hrest ih =>
    cases l with
    | none =>
      obtain ⟨u, v, hu, hv, hrest'⟩ := ih (by simpa using ht)
      exact ⟨u, v, by simpa using Steps.head hstep hu, hv, hrest'⟩
    | some e' =>
      simp only [Option.toList_some, List.singleton_append, List.cons.injEq] at ht
      obtain ⟨rfl, rfl⟩ := ht
      exact ⟨s, s₁, .refl s, hstep, hrest⟩

lemma Reaches.trans {s s' : σ} {tr tr' : List ε} (h : L.Reaches tr s) (h' : L.Steps s tr' s') :
    L.Reaches (tr ++ tr') s' := by
  induction h' generalizing tr with
  | refl => simpa using h
  | head hs _ ih => simpa [List.append_assoc] using ih (h.step hs)

/-- A run that shows `tr ++ tr'` was at a state with the trace `tr`, and went on from there. -/
lemma Reaches.between {tr tr' : List ε} {s : σ} (h : L.Reaches (tr ++ tr') s) :
    ∃ s', L.Reaches tr s' ∧ L.Steps s' tr' s := by
  generalize htr : tr ++ tr' = whole at h
  induction h generalizing tr' with
  | @init s h =>
    obtain ⟨rfl, rfl⟩ := List.append_eq_nil_iff.mp htr
    exact ⟨s, .init h, .refl s⟩
  | @step _ s' l tr₁ r h ih =>
    rcases List.eq_nil_or_concat tr' with rfl | ⟨front, e, rfl⟩
    · rw [List.append_nil] at htr
      exact ⟨s', htr ▸ r.step h, .refl s'⟩
    · cases l with
      | none =>
        obtain ⟨s₁, hr, hs⟩ := ih (by simpa using htr)
        exact ⟨s₁, hr, by simpa using hs.trans (.one h)⟩
      | some e' =>
        rw [List.concat_eq_append, ← List.append_assoc] at htr
        obtain ⟨rfl, he⟩ := List.append_inj' htr rfl
        obtain ⟨s₁, hr, hs⟩ := ih rfl
        refine ⟨s₁, hr, ?_⟩
        rw [List.concat_eq_append, he]
        exact hs.trans (.one h)

/-- **The invariant rule.** What holds at the start and is kept by every step from a
reachable state holds in every reachable state. -/
theorem Reaches.invariant (inv : σ → Prop) (h0 : ∀ s, L.init s → inv s)
    (hs : ∀ {tr s l s'}, L.Reaches tr s → inv s → L.step s l s' → inv s')
    {tr : List ε} {s : σ} (h : L.Reaches tr s) : inv s := by
  induction h with
  | init h => exact h0 _ h
  | step r h ih => exact hs r ih h

/-- From every state in `P` some steps, which show `k` events or more, lead to a state in `Q`. -/
def Leads (L : Lts σ ε) (P : σ → Prop) (k : ℕ) (Q : σ → Prop) : Prop :=
  ∀ s, P s → ∃ tr s', L.Steps s tr s' ∧ k ≤ tr.length ∧ Q s'

lemma Leads.refl (P : σ → Prop) : L.Leads P 0 P :=
  fun s hs => ⟨[], s, .refl s, Nat.zero_le _, hs⟩

lemma Leads.trans {P Q R : σ → Prop} {k k' : ℕ} (h : L.Leads P k Q) (h' : L.Leads Q k' R) :
    L.Leads P (k + k') R := by
  intro s hs
  obtain ⟨tr, s₁, hsteps, hk, hq⟩ := h s hs
  obtain ⟨tr', s₂, hsteps', hk', hr⟩ := h' s₁ hq
  exact ⟨tr ++ tr', s₂, hsteps.trans hsteps', by rw [List.length_append]; omega, hr⟩

lemma Leads.head {P Q R : σ → Prop} {k : ℕ} (h : L.Leads P 0 Q) (h' : L.Leads Q k R) :
    L.Leads P k R := by
  simpa using h.trans h'

lemma Leads.mono {P Q R : σ → Prop} {k : ℕ} (h : L.Leads P k Q) (hqr : ∀ s, Q s → R s) :
    L.Leads P k R := by
  intro s hs
  obtain ⟨tr, s', hsteps, hk, hq⟩ := h s hs
  exact ⟨tr, s', hsteps, hk, hqr s' hq⟩

lemma Leads.exists {ι : Type*} {P : ι → σ → Prop} {Q : σ → Prop} {k : ℕ}
    (h : ∀ i, L.Leads (P i) k Q) : L.Leads (fun s => ∃ i, P i s) k Q := by
  rintro s ⟨i, hs⟩
  exact h i s hs

/-- **The rule for loops**: what leads back to itself with an event leads back to itself with as
many events as one likes. -/
lemma Leads.iterate {P : σ → Prop} (h : L.Leads P 1 P) (k : ℕ) : L.Leads P k P := by
  induction k with
  | zero => exact .refl P
  | succ k ih => exact ih.trans h

/-! ### Runs of an executable system -/

section
variable {κ : Type*} {init : σ → Prop} {next : κ → σ → Option (σ × Option ε)}
  {ok : κ → σ → Prop} [∀ c s, Decidable (ok c s)]

/-- The run that a list of commands describes: its trace and its last state. -/
def runs (next : κ → σ → Option (σ × Option ε)) (ok : κ → σ → Prop)
    [∀ c s, Decidable (ok c s)] : List κ → σ → Option (List ε × σ)
  | [], s => some ([], s)
  | c :: cs, s =>
    if ok c s then
      (next c s).bind fun q => (runs next ok cs q.1).map fun r => (q.2.toList ++ r.1, r.2)
    else none

/-- The run of two lists of commands is one of the first, and then one of the second. -/
lemma runs_append {cs cs' : List κ} {s s' : σ} {tr : List ε}
    (h : runs next ok (cs ++ cs') s = some (tr, s')) :
    ∃ tr₁ s₁ tr₂, runs next ok cs s = some (tr₁, s₁) ∧ runs next ok cs' s₁ = some (tr₂, s') := by
  induction cs generalizing s tr with
  | nil => exact ⟨[], s, tr, rfl, h⟩
  | cons c cs ih =>
    simp only [List.cons_append, runs, Option.ite_none_right_eq_some, Option.bind_eq_some_iff,
      Option.map_eq_some_iff, Prod.mk.injEq] at h
    obtain ⟨hok, ⟨s₁, l⟩, hs, ⟨tr', s₂⟩, hr, -, rfl⟩ := h
    obtain ⟨tr₁, s₃, tr₂, h₁, h₂⟩ := ih hr
    exact ⟨l.toList ++ tr₁, s₃, tr₂, by simp [runs, hok, hs, h₁], h₂⟩

lemma steps_of_runs {cs : List κ} {s s' : σ} {tr : List ε} (h : runs next ok cs s = some (tr, s')) :
    (ofStep init next ok).Steps s tr s' := by
  induction cs generalizing s tr with
  | nil =>
    simp only [runs, Option.some.injEq, Prod.mk.injEq] at h
    obtain ⟨rfl, rfl⟩ := h
    exact .refl s
  | cons c cs ih =>
    simp only [runs, Option.ite_none_right_eq_some, Option.bind_eq_some_iff,
      Option.map_eq_some_iff, Prod.mk.injEq] at h
    obtain ⟨hok, ⟨s₁, l⟩, hs, ⟨tr', s₂⟩, hr, rfl, rfl⟩ := h
    exact .head ⟨c, hok, hs⟩ (ih hr)

lemma reaches_of_runs {cs : List κ} {s s' : σ} {tr : List ε} (h0 : init s)
    (h : runs next ok cs s = some (tr, s')) : (ofStep init next ok).Reaches tr s' := by
  simpa using (Reaches.init (L := ofStep init next ok) h0).trans (steps_of_runs h)

/-- What an observation of the end of a run shows is true of a reachable state. -/
lemma exists_reaches_of_runs {β : Type*} (f : List ε × σ → β) {cs : List κ} {s : σ} {v : β}
    (h0 : init s) (h : (runs next ok cs s).map f = some v) :
    ∃ tr s', (ofStep init next ok).Reaches tr s' ∧ f (tr, s') = v := by
  obtain ⟨⟨tr, s'⟩, hr, rfl⟩ := Option.map_eq_some_iff.mp h
  exact ⟨tr, s', reaches_of_runs h0 hr, rfl⟩

end

/-- `rel` is a simulation of `L` by `A`: every step of `L` is matched by steps of `A` that
show the same event. -/
structure Simulation (L : Lts σ ε) (A : Lts α ε) (rel : σ → α → Prop) : Prop where
  init : ∀ s, L.init s → ∃ a, A.init a ∧ rel s a
  step : ∀ {s a l s'}, rel s a → L.step s l s' → ∃ a', A.Steps a l.toList a' ∧ rel s' a'

/-- **The simulation rule.** Every trace of the simulated system is a trace of the other,
ending in related states. -/
theorem Simulation.reaches {rel : σ → α → Prop} (sim : Simulation L A rel) {tr : List ε}
    {s : σ} (h : L.Reaches tr s) : ∃ a, A.Reaches tr a ∧ rel s a := by
  induction h with
  | init h =>
    obtain ⟨a, ha, hr⟩ := sim.init _ h
    exact ⟨a, .init ha, hr⟩
  | step _ h ih =>
    obtain ⟨a, ha, hr⟩ := ih
    obtain ⟨a', hs, hr'⟩ := sim.step hr h
    exact ⟨a', ha.trans hs, hr'⟩

/-- Steps are matched as well. -/
theorem Simulation.steps {rel : σ → α → Prop} (sim : Simulation L A rel) {tr : List ε}
    {s s' : σ} (h : L.Steps s tr s') {a : α} (hr : rel s a) :
    ∃ a', A.Steps a tr a' ∧ rel s' a' := by
  induction h generalizing a with
  | refl => exact ⟨a, .refl a, hr⟩
  | head h _ ih =>
    obtain ⟨a₁, hs, hr₁⟩ := sim.step hr h
    obtain ⟨a', ht, hr'⟩ := ih hr₁
    exact ⟨a', hs.trans ht, hr'⟩

end Lts

end St3
