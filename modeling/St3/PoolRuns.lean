import St3.PoolIdle

/-!
Runs of the pool that show what an observer sees of its steps, and the invariants that are the
business of one worker alone.
-/

namespace St3.Pool

variable {n : ℕ} {J C E : Type*} [DecidableEq J] [DecidableEq C] [Fintype C] {cfg : Config n}

/-! ### Observers -/

/-- The pool, where an observer sees `see cmd s` of a step. -/
def ltsSeeing (cfg : Config n) (see : Cmd n J C → St n J C → Option E)
    (ok : Cmd n J C → St n J C → Prop) : Lts (St n J C) E :=
  .ofStep (· = init) (fun cmd s => (step cfg cmd s).map (·, see cmd s)) ok

section
variable {see : Cmd n J C → St n J C → Option E} {ok : Cmd n J C → St n J C → Prop}

lemma seeing_step {s s' : St n J C} {e : Option E} (h : (ltsSeeing cfg see ok).step s e s') :
    ∃ cmd, ok cmd s ∧ step cfg cmd s = some s' ∧ e = see cmd s := by
  obtain ⟨cmd, hok, hstep⟩ := h
  obtain ⟨s₁, hs, he⟩ := Option.map_eq_some_iff.mp hstep
  cases he
  exact ⟨cmd, hok, hs, rfl⟩

lemma step_seeing {cmd : Cmd n J C} {s s' : St n J C} (hok : ok cmd s)
    (h : step cfg cmd s = some s') : (ltsSeeing cfg see ok).step s (see cmd s) s' :=
  ⟨cmd, hok, Option.map_eq_some_iff.mpr ⟨s', h, rfl⟩⟩

/-- Steps that are `ok` are `ok'`, where that asks for less. -/
lemma steps_weaken {ok' : Cmd n J C → St n J C → Prop} (hok : ∀ cmd s, ok cmd s → ok' cmd s)
    {tr : List E} {s s' : St n J C} (h : (ltsSeeing cfg see ok).Steps s tr s') :
    (ltsSeeing cfg see ok').Steps s tr s' := by
  induction h with
  | refl => exact .refl _
  | head h _ ih =>
    obtain ⟨cmd, hcmd, hs⟩ := h
    exact .head ⟨cmd, hok _ _ hcmd, hs⟩ ih

/-- What is reached with an observer is reached without. -/
lemma reaches_of_seeing {tr : List E} {s : St n J C} (h : (ltsSeeing cfg see ok).Reaches tr s) :
    ∃ tr', (ltsWhen cfg ok).Reaches tr' s := by
  induction h with
  | init h => exact ⟨[], .init h⟩
  | step r h ih =>
    obtain ⟨tr', hr⟩ := ih
    obtain ⟨cmd, hok, hs, rfl⟩ := seeing_step h
    exact ⟨_, hr.step (l := none) ⟨cmd, hok, by simp [hs]⟩⟩

/-- The trace and the last state of the run that gives each of these commands so many times in
a row. -/
def runsSeeing (cfg : Config n) (see : Cmd n J C → St n J C → Option E)
    (ok : Cmd n J C → St n J C → Prop) [∀ cmd s, Decidable (ok cmd s)]
    (script : List (ℕ × Cmd n J C)) : Option (List E × St n J C) :=
  Lts.runs (fun cmd s => (step cfg cmd s).map (·, see cmd s)) ok
    (script.flatMap fun q => List.replicate q.1 q.2) init

lemma exists_seeing (cfg : Config n) (see : Cmd n J C → St n J C → Option E)
    (ok : Cmd n J C → St n J C → Prop) [∀ cmd s, Decidable (ok cmd s)]
    (script : List (ℕ × Cmd n J C)) {β : Type*} (f : List E × St n J C → β) {v : β}
    (h : (runsSeeing cfg see ok script).map f = some v) :
    ∃ tr s, (ltsSeeing cfg see ok).Reaches tr s ∧ f (tr, s) = v :=
  Lts.exists_reaches_of_runs f rfl h

end

/-! ### Restricted runs -/

/-- A run whose steps are all `ok` is one whose steps are all `ok'`, if that is so at every
state it can be in. -/
lemma reaches_when {ok ok' : Cmd n J C → St n J C → Prop}
    (hok : ∀ {tr cmd s}, (ltsWhen cfg ok).Reaches tr s → ok cmd s → ok' cmd s)
    {tr : List Empty} {s : St n J C} (h : (ltsWhen cfg ok).Reaches tr s) :
    (ltsWhen cfg ok').Reaches tr s := by
  induction h with
  | init h => exact .init h
  | step r h ih =>
    obtain ⟨cmd, hcmd, hstep⟩ := h
    exact ih.step ⟨cmd, hok r hcmd, hstep⟩

/-! ### One worker -/

/-- **The rule for what one worker keeps by itself**: what holds when a thread enters
`Pool::run`, and survives every access of the worker whatever the answer, holds in every run. -/
theorem worker_invariant {ok : Cmd n J C → St n J C → Prop} {w : Fin n} (inv : Worker n J → Prop)
    (h0 : inv .init) (hstart : inv (.start cfg.tuning w))
    (hnext : ∀ {tr s r spurious}, (ltsWhen cfg ok).Reaches tr s → ok (.worker w spurious) s →
      (s.worker w).next cfg w = some r → inv (s.worker w) → r.All inv)
    (hcall : ∀ {l c k c' k'}, l.pc = .run c k → inv l → inv (l.goto (.run c' k')))
    (hdone : ∀ {l c k}, l.pc = .run c k → inv l → inv (l.goto .complete))
    {tr : List Empty} {s : St n J C} (h : (ltsWhen cfg ok).Reaches tr s) : inv (s.worker w) := by
  have hset : ∀ {s : St n J C} {u : Fin n} {l : Worker n J}, inv (s.worker w) →
      (u = w → inv l) → inv ((s.setWorker u l).worker w) := by
    intro s u l hs hl
    by_cases hu : u = w
    · subst hu
      simpa [St.setWorker] using hl rfl
    · simpa [St.setWorker, Ne.symm hu] using hs
  refine invariant (fun s => inv (s.worker w)) h0 ?_ h
  intro _ cmd s s' hreach hs hok _ ht
  cases ht with
  | run hq =>
    refine hset hs fun hu => ?_
    subst hu
    exact hstart
  | refused => exact hs
  | @worker u spurious r l sh hr hserve =>
    refine hset (s := { s with shared := sh }) hs fun hu => ?_
    subst hu
    exact (hnext hreach hok hr hs).serve hserve
  | @jobCall u op wakes hpc =>
    refine hset (s := { s with accepted := s.accepted ++ op.job?.toList }) hs fun hu => ?_
    subst hu
    exact hcall hpc hs
  | @jobDone u wakes hpc =>
    refine hset hs fun hu => ?_
    subst hu
    exact hdone hpc hs
  | call => exact hs
  | caller => exact hs
  | drop => exact hs

/-- A pool of two workers that never spin. -/
def twoWorkers : Config 2 :=
  ⟨1, .almostTokio, 64, Tuning.almostTokio_accepted, Nat.two_pos, Nat.le_of_ble_eq_true rfl⟩

end St3.Pool
