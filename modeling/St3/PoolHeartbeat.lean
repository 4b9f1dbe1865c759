import St3.PoolRuns
import St3.PoolLedger

/-!
The heartbeat of a worker: how many jobs it runs between two looks at whether to share.

Two counters bound them. The countdown goes down with every job of the private queue, and the
run of the slot comes to an end at the boundary, before the next job of the private queue.
-/

namespace St3.Pool

variable {n : ℕ} {J C : Type*}

/-! ### What is seen of a worker -/

inductive Beat
  /-- A job is run. -/
  | job
  /-- A call of `promote` or `share`. -/
  | look
  /-- The private queue is found empty. -/
  | dry
  deriving DecidableEq

/-- The beat that goes with the next access of a worker. -/
def Worker.beat (l : Worker n J) : Option Beat :=
  match l.pc with
  | .begin _ => some .job
  | .promote _ => some .look
  | .share _ => some .look
  | .popMine => if l.mine.isEmpty then some .dry else none
  | _ => none

def beatOf (w : Fin n) (cmd : Cmd n J C) (s : St n J C) : Option Beat :=
  match cmd with
  | .worker u _ => if u = w then (s.worker w).beat else none
  | _ => none

/-! ### The jobs that are left until the next look -/

/-- The point of the code lies between the slot and the private queue. -/
def After.atBoundary : After J → Bool
  | .capped => true
  | .took boundary _ => boundary
  | _ => false

/-- How many jobs a worker at a point of its code runs at most before it looks again or finds its
queue empty: `most` between two looks, `rounds` after the next boundary, and what the slot gives
up to there. -/
def Pc.left (limit most lifoRun rounds : ℕ) : Pc n J → ℕ
  | .top | .takeSlot | .run .. | .complete => limit - lifoRun + rounds
  | .begin _ => 1 + (limit - lifoRun) + rounds
  | .boundary | .capLook | .capTake _ | .capPush .. | .capLen _ | .capped | .reset | .popMine =>
    rounds
  | .pullInjector b _ => if b then rounds else most
  | .pullLen b _ => if b then rounds else most
  | .nudge _ after => if after.atBoundary then rounds else most
  | .promote _ | .share _ => 0
  | _ => most

/-- The bound: every job of the private queue comes with a run of the slot. -/
def Tuning.beats (t : Tuning) : ℕ := t.promoteEvery * (t.lifoRunLimit + 1)

def Worker.left (t : Tuning) (l : Worker n J) : ℕ :=
  l.pc.left t.lifoRunLimit t.beats l.lifoRun ((l.untilPromote - 1) * (t.lifoRunLimit + 1))

/-- The countdown is up, and the slot is taken only while its run has not come to an end. -/
structure Worker.Beating (t : Tuning) (l : Worker n J) : Prop where
  countdown : l.pc.gone = false → 0 < l.untilPromote ∧ l.untilPromote ≤ t.promoteEvery
  slot : l.pc = .takeSlot → l.lifoRun < t.lifoRunLimit

lemma Worker.resume_untilPromote (t : Tuning) (l : Worker n J) (a : After J) :
    (l.resume t a).untilPromote = l.untilPromote ∨
      (l.resume t a).untilPromote = t.promoteEvery := by
  unfold resume goto
  cases a with
  | took boundary taken => cases boundary <;> (try (dsimp only; split)) <;> exact .inl rfl
  | stole prep got => cases prep <;> exact .inl rfl
  | refilled => exact .inr rfl
  | _ => exact .inl rfl

lemma Worker.resume_beating {t : Tuning} (ht : t.Accepted) {l : Worker n J}
    (h : 0 < l.untilPromote ∧ l.untilPromote ≤ t.promoteEvery) (a : After J) :
    (l.resume t a).Beating t where
  countdown _ := by
    have := ht.promote
    rcases resume_untilPromote t l a with he | he <;> rw [he] <;> omega
  slot hpc := by
    unfold resume goto at hpc
    cases a with
    | took boundary taken =>
      cases boundary <;> (try (dsimp only at hpc; split at hpc)) <;> cases hpc
    | stole prep got => cases prep <;> (try (dsimp only at hpc; split at hpc)) <;> cases hpc
    | _ => cases hpc

lemma Worker.popMine_beating {t : Tuning} (ht : t.Accepted) {l : Worker n J}
    (h : 0 < l.untilPromote ∧ l.untilPromote ≤ t.promoteEvery) : (l.popMine t).Beating t := by
  have hp := ht.promote
  unfold popMine goto
  split
  · dsimp only
    split
    · exact ⟨fun _ => ⟨hp, le_rfl⟩, fun hpc => by cases hpc⟩
    · exact ⟨fun _ => ⟨by dsimp only; omega, by dsimp only; omega⟩, fun hpc => by cases hpc⟩
  · split <;> exact ⟨fun _ => h, fun hpc => by cases hpc⟩

attribute [local grind =] Req.All Worker.goto Worker.found Worker.again
attribute [local grind] Pc.gone

lemma Worker.next_beating {cfg : Config n} {w : Fin n} {l : Worker n J} {r : Req n J (Worker n J)}
    (h : l.next cfg w = some r) (hl : l.Beating cfg.tuning) : r.All (Beating cfg.tuning) := by
  have hacc := cfg.accepted
  have hup : 0 < l.untilPromote ∧ l.untilPromote ≤ cfg.tuning.promoteEvery := by
    refine hl.countdown ?_
    cases hpc : l.pc <;> first | rfl | simp [next, hpc] at h
  obtain ⟨mine, u, sp, rng, lr, e, pc⟩ := l
  cases pc
  case run c wakes =>
    simp only [next, Option.map_eq_some_iff] at h
    obtain ⟨r, hr, rfl⟩ := h
    exact (Req.all_of_forall (fun _ => ⟨fun _ => hup, fun hpc => by cases hpc⟩) r).map
  case nudge p after =>
    simp only [next] at h
    split at h <;> cases h
    · exact fun _ => resume_beating hacc hup _
    · exact (Req.all_of_forall (fun _ => ⟨fun _ => hup, fun hpc => by cases hpc⟩) _).map
  case stealCall prep c =>
    simp only [next] at h
    split at h <;> cases h
    · exact fun _ => resume_beating hacc hup _
    · exact (Req.all_of_forall (fun _ => ⟨fun _ => hup, fun hpc => by cases hpc⟩) _).map
  all_goals simp only [next, Option.some.injEq, reduceCtorEq] at h
  all_goals try subst h
  case popMine => exact fun _ => popMine_beating hacc hup
  case pullLen b taken =>
    intro s
    dsimp only
    split_ifs
    · exact ⟨fun _ => hup, fun hpc => by cases hpc⟩
    · exact resume_beating hacc hup _
  case top =>
    intro s
    simp only [goto]
    split_ifs with hlr
    · exact ⟨fun _ => hup, fun _ => hlr⟩
    · exact ⟨fun _ => hup, fun hpc => by cases hpc⟩
  case endSearching | readySlot | exit =>
    have hset : ∀ {m : List J} {sp : ℕ} {rng : BitVec 64} {lr : ℕ} {e : Bool} {pc : Pc n J},
        pc ≠ .takeSlot → Beating cfg.tuning ⟨m, u, sp, rng, lr, e, pc⟩ :=
      fun hpc => ⟨fun _ => hup, fun he => absurd he hpc⟩
    grind
  all_goals
    simp only [Req.All, goto]
    -- one goal for each answer and each way on from it
    repeat' first | intro _ | refine And.intro ?_ ?_ | split
    all_goals first
      | exact ⟨fun _ => hup, fun hpc => by cases hpc⟩
      | exact resume_beating hacc hup _

/-! ### Every job is paid for -/

lemma rounds_le {t : Tuning} {u : ℕ} (h : 0 < u ∧ u ≤ t.promoteEvery) :
    (u - 1) * (t.lifoRunLimit + 1) + (t.lifoRunLimit + 1) ≤ t.beats := by
  obtain ⟨k, rfl⟩ : ∃ k, u = k + 1 := ⟨u - 1, by omega⟩
  have hle := Nat.mul_le_mul_right (t.lifoRunLimit + 1) h.2
  rw [Nat.succ_mul] at hle
  exact hle

lemma Pc.left_le {limit most lifoRun rounds : ℕ} (h : rounds + (limit + 1) ≤ most) (pc : Pc n J) :
    pc.left limit most lifoRun rounds ≤ most := by
  cases pc <;> simp only [left] <;> (try split_ifs) <;> omega

lemma Worker.left_le {t : Tuning} {l : Worker n J} (h : l.Beating t) : l.left t ≤ t.beats := by
  unfold left
  by_cases hg : l.pc.gone
  · cases hpc : l.pc <;> simp only [hpc, Pc.gone, Bool.false_eq_true] at hg <;> exact le_rfl
  · exact Pc.left_le (rounds_le (h.countdown (by simpa using hg))) _

lemma Worker.resume_left {t : Tuning} (ht : t.Accepted) {l : Worker n J}
    (h : 0 < l.untilPromote ∧ l.untilPromote ≤ t.promoteEvery) (a : After J) :
    (l.resume t a).left t ≤
      if a.atBoundary then (l.untilPromote - 1) * (t.lifoRunLimit + 1) else t.beats := by
  cases a with
  | capped => exact Nat.le_refl _
  | took boundary taken =>
    cases boundary with
    | true => exact Nat.le_refl _
    | false => exact left_le (resume_beating ht h _)
  | _ => exact left_le (resume_beating ht h _)

lemma Worker.begin_left {cfg : Config n} {w : Fin n} {l : Worker n J} {r : Req n J (Worker n J)}
    (h : l.next cfg w = some r) (hb : l.beat = some .job) :
    r.All fun l' => l'.left cfg.tuning + 1 ≤ l.left cfg.tuning := by
  obtain ⟨mine, u, sp, rng, lr, e, pc⟩ := l
  cases pc
  case begin j =>
    simp only [next, Option.some.injEq] at h
    subst h
    simp only [Req.All, left, goto, Pc.left]
    omega
  case popMine =>
    simp only [beat] at hb
    split_ifs at hb
    cases hb
  all_goals cases hb

lemma Worker.popMine_left {t : Tuning} {l : Worker n J} (h : 0 < l.untilPromote)
    (hmine : l.mine ≠ []) :
    (l.popMine t).left t ≤ (l.untilPromote - 1) * (t.lifoRunLimit + 1) := by
  unfold popMine
  cases hlast : l.mine.getLast? with
  | none => exact absurd (List.getLast?_eq_none_iff.mp hlast) hmine
  | some j =>
    dsimp only
    split_ifs with hone
    · exact Nat.zero_le _
    · obtain ⟨k, hk⟩ : ∃ k, l.untilPromote = k + 2 := ⟨l.untilPromote - 2, by omega⟩
      simp only [left, Pc.left, hk, Nat.add_succ_sub_one, Nat.succ_mul, Nat.add_sub_cancel]
      omega

/-- A step that runs no job, is no look and does not find the private queue empty. -/
lemma Worker.next_left {cfg : Config n} {w : Fin n} {l : Worker n J} {r : Req n J (Worker n J)}
    (h : l.next cfg w = some r) (hl : l.Beating cfg.tuning) (hb : l.beat = none) :
    r.All fun l' => l'.left cfg.tuning ≤ l.left cfg.tuning := by
  have hacc := cfg.accepted
  have hup : 0 < l.untilPromote ∧ l.untilPromote ≤ cfg.tuning.promoteEvery := by
    refine hl.countdown ?_
    cases hpc : l.pc <;> first | rfl | simp [next, hpc] at h
  have hnext := next_beating h hl
  have hrounds := rounds_le hup
  have hslot := hl.slot
  obtain ⟨mine, u, sp, rng, lr, e, pc⟩ := l
  -- where the bound is not used up yet, any step will do
  have hmost : pc.left cfg.tuning.lifoRunLimit cfg.tuning.beats lr
      ((u - 1) * (cfg.tuning.lifoRunLimit + 1)) = cfg.tuning.beats →
      r.All fun l' => l'.left cfg.tuning ≤ left cfg.tuning ⟨mine, u, sp, rng, lr, e, pc⟩ := by
    intro hpc
    refine hnext.mono fun l' hl' => ?_
    show l'.left cfg.tuning ≤ pc.left _ _ _ _
    rw [hpc]
    exact left_le hl'
  cases pc
  case run c wakes =>
    simp only [next, Option.map_eq_some_iff] at h
    obtain ⟨r, hr, rfl⟩ := h
    refine Req.All.map (Req.all_of_forall ?_ r)
    exact fun _ => Nat.le_refl _
  case nudge p after =>
    simp only [next] at h
    split at h <;> cases h
    · exact fun _ => resume_left hacc hup after
    · refine Req.All.map (Req.all_of_forall ?_ _)
      exact fun _ => Nat.le_refl _
  case begin | promote | share => cases hb
  case popMine =>
    simp only [next, Option.some.injEq] at h
    subst h
    refine fun _ => popMine_left hup.1 ?_
    rintro rfl
    simp [beat] at hb
  case pullInjector b taken =>
    cases b with
    | false => exact hmost rfl
    | true =>
      simp only [next, Option.some.injEq] at h
      subst h
      refine ⟨fun _ => ?_, Nat.le_refl _⟩
      dsimp only
      split_ifs <;> exact Nat.le_refl _
  case pullLen b taken =>
    simp only [next, Option.some.injEq] at h
    subst h
    intro s
    dsimp only
    split_ifs
    · cases b <;> exact Nat.le_refl _
    · exact (resume_left hacc hup (.took b taken)).trans (by cases b <;> exact Nat.le_refl _)
  case takeSlot =>
    have hlt : lr < cfg.tuning.lifoRunLimit := hslot rfl
    simp only [next, Option.some.injEq] at h
    subst h
    simp only [Req.All, left, goto, Pc.left]
    exact ⟨fun _ => by omega, by omega⟩
  case out | panicked => cases h
  case top | complete | boundary | capLook | capTake | capPush | capLen | capped | reset =>
    simp only [next, Option.some.injEq] at h
    subst h
    simp only [Req.All, left, goto]
    grind [Pc.left, After.atBoundary]
  all_goals exact hmost rfl

/-! ### The heartbeat over a run -/

section
variable [DecidableEq J] [DecidableEq C] [Fintype C] {cfg : Config n} {w : Fin n}

lemma beating {ok : Cmd n J C → St n J C → Prop} {tr : List Empty} {s : St n J C}
    (h : (ltsWhen cfg ok).Reaches tr s) : (s.worker w).Beating cfg.tuning := by
  have hp := cfg.accepted.promote
  refine worker_invariant (Worker.Beating cfg.tuning) ?_ ?_ ?_ ?_ ?_ h
  · exact ⟨(fun h => by cases h), fun h => by cases h⟩
  · exact ⟨fun _ => ⟨hp, le_rfl⟩, fun h => by cases h⟩
  · exact fun _ _ hr hl => Worker.next_beating hr hl
  · intro l c k c' k' hpc hl
    exact ⟨fun _ => hl.countdown (by rw [hpc]; rfl), fun h => by cases h⟩
  · intro l c k hpc hl
    exact ⟨fun _ => hl.countdown (by rw [hpc]; rfl), fun h => by cases h⟩

/-- A step uses up what it shows. -/
def Paid (e : Option Beat) (before after : ℕ) : Prop :=
  (e = none → after ≤ before) ∧ (e = some .job → after + 1 ≤ before)

lemma left_step {ok : Cmd n J C → St n J C → Prop} {tr : List Empty} {s s' : St n J C}
    {cmd : Cmd n J C} (h : (ltsWhen cfg ok).Reaches tr s) (hstep : step cfg cmd s = some s') :
    Paid (beatOf w cmd s) ((s.worker w).left cfg.tuning) ((s'.worker w).left cfg.tuning) := by
  have hstay : ∀ {s' : St n J C}, s'.worker w = s.worker w →
      Paid none ((s.worker w).left cfg.tuning) ((s'.worker w).left cfg.tuning) := by
    intro s' hw
    rw [hw]
    exact ⟨fun _ => le_rfl, fun h => by cases h⟩
  cases (step_trans hstep).2 with
  | @run u hq =>
    by_cases hu : u = w
    · subst hu
      have hout := homes h u
      rw [if_pos hq] at hout
      refine ⟨fun _ => ?_, fun h => by cases h⟩
      have hle := rounds_le (t := cfg.tuning) ⟨cfg.accepted.promote, le_rfl⟩
      simp only [St.setWorker, Function.update_self, Worker.start, Worker.left, hout.1, Pc.left]
      omega
    · exact hstay (by simp [St.setWorker, Ne.symm hu])
  | refused => exact hstay rfl
  | @worker u spurious r l sh hr hserve =>
    by_cases hu : u = w
    · subst hu
      simp only [beatOf, if_pos, St.setWorker, Function.update_self]
      exact ⟨fun hb => (Worker.next_left hr (beating h) hb).serve hserve,
        fun hb => (Worker.begin_left hr hb).serve hserve⟩
    · rw [beatOf, if_neg hu]
      exact hstay (by simp [St.setWorker, Ne.symm hu])
  | @jobCall u op wakes hpc =>
    by_cases hu : u = w
    · subst hu
      refine ⟨fun _ => ?_, fun h => by cases h⟩
      simp [St.setWorker, Worker.left, Worker.goto, hpc, Pc.left]
    · exact hstay (by simp [St.setWorker, Ne.symm hu])
  | @jobDone u wakes hpc =>
    by_cases hu : u = w
    · subst hu
      refine ⟨fun _ => ?_, fun h => by cases h⟩
      simp [St.setWorker, Worker.left, Worker.goto, hpc, Pc.left]
    · exact hstay (by simp [St.setWorker, Ne.symm hu])
  | call => exact hstay rfl
  | caller => exact hstay rfl
  | drop => exact hstay rfl

/-- The jobs since the last look, or since the private queue was last found empty, and those
that are left, are within the bound. -/
lemma jobs_left {ok : Cmd n J C → St n J C → Prop} {tr : List Beat} {s : St n J C}
    (h : (ltsSeeing cfg (beatOf w) ok).Reaches tr s) {l m : List Beat} (htr : tr = l ++ m)
    (hlook : .look ∉ m) (hdry : .dry ∉ m) :
    m.count .job + (s.worker w).left cfg.tuning ≤ cfg.tuning.beats := by
  have hle : ∀ {tr : List Beat} {s : St n J C}, (ltsSeeing cfg (beatOf w) ok).Reaches tr s →
      (s.worker w).left cfg.tuning ≤ cfg.tuning.beats := fun h =>
    Worker.left_le (beating (reaches_of_seeing h).choose_spec)
  induction h generalizing m with
  | init h =>
    obtain ⟨-, rfl⟩ := List.append_eq_nil_iff.mp htr.symm
    simpa using hle (.init h)
  | @step s s' e tr r hstep ih =>
    rcases List.eq_nil_or_concat m with rfl | ⟨front, b, rfl⟩
    · simpa using hle (r.step hstep)
    · obtain ⟨cmd, -, hs, rfl⟩ := seeing_step hstep
      obtain ⟨hnone, hjob⟩ := left_step (w := w) (reaches_of_seeing r).choose_spec hs
      cases he : beatOf w cmd s with
      | none =>
        have := ih (m := front.concat b) (by simpa [he] using htr) hlook hdry
        have := hnone he
        omega
      | some b' =>
        rw [he, List.concat_eq_append, ← List.append_assoc] at htr
        obtain ⟨rfl, hb⟩ := List.append_inj' htr rfl
        obtain rfl : b' = b := by simpa using hb
        have := ih (m := front) rfl (by simp_all) (by simp_all)
        cases b' with
        | job =>
          have := hjob he
          simp only [List.concat_eq_append, List.count_append, List.count_singleton_self]
          omega
        | look => simp at hlook
        | dry => simp at hdry

/-- **The heartbeat bound.** In every run, a worker runs at most
`promote_every * (lifo_run_limit + 1)` jobs in any stretch with no call of `promote` or `share`
in which its private queue is never found empty, and it never takes one from a countdown of
zero. -/
theorem heartbeat {tr : List Beat} {s : St n J C}
    (h : (ltsSeeing cfg (beatOf w) fun _ _ => True).Reaches tr s) :
    (∀ l m r, tr = l ++ m ++ r → .look ∉ m → .dry ∉ m →
      m.count .job ≤ cfg.tuning.promoteEvery * (cfg.tuning.lifoRunLimit + 1)) ∧
    ((s.worker w).pc = .popMine → 0 < (s.worker w).untilPromote) := by
  constructor
  · rintro l m r rfl hlook hdry
    obtain ⟨s', hs', -⟩ := h.between
    have hjobs := jobs_left hs' rfl hlook hdry
    exact le_trans (Nat.le_add_right _ _) hjobs
  · intro hpc
    obtain ⟨tr', hs⟩ := reaches_of_seeing h
    exact ((beating hs).countdown (by rw [hpc]; rfl)).1

end

/-- A pool of one worker that takes five jobs at a time, looks with every second one, and runs
one job of the slot after each. -/
def busy : Config 1 :=
  .single 1
    { Tuning.locality with
      injectorBatch := 5, lifoRunLimit := 1, promoteEvery := 2, roundsBeforePark := 0 }
    (by decide)

/-- The job that the worker runs submits `j` to it. The worker runs `j` next, and then goes on for
`k` accesses. -/
def Busy.jobs (w : Fin 1) (j : Fin 8) (k : ℕ) : List (ℕ × Cmd 1 (Fin 8) (Fin 1)) :=
  [(1, .jobCall w (.submitLocal w j)), (2, .worker w false), (1, .jobDone w), (4, .worker w false),
    (1, .jobDone w), (k, .worker w false)]

/-- As many jobs as the bound allows are run between the second look and the third. -/
theorem heartbeat_attained : ∃ (tr : List Beat) (s : St 1 (Fin 8) (Fin 1)),
    (ltsSeeing busy (beatOf 0) fun _ _ => True).Reaches tr s ∧
      tr = [Beat.dry, .look, .job, .job, .look] ++ [Beat.job, .job, .job, .job] ++
        [Beat.look, .job] ∧
      busy.tuning.promoteEvery * (busy.tuning.lifoRunLimit + 1) = 4 ∧
      (∀ l m r, tr = l ++ m ++ r → .look ∉ m → .dry ∉ m →
        m.count .job ≤ busy.tuning.promoteEvery * (busy.tuning.lifoRunLimit + 1)) ∧
      ((s.worker 0).pc = .popMine → 0 < (s.worker 0).untilPromote) := by
  obtain ⟨tr, s, hr, hv⟩ := exists_seeing (J := Fin 8) (C := Fin 1) busy (beatOf 0)
    (fun _ _ => True)
    (([0, 1, 2, 3, 4].flatMap fun j => [(1, Cmd.call 0 (.submit none j)), (2, .caller 0 false)]) ++
      [(1, Cmd.run 0), (31, .worker 0 false)] ++ Busy.jobs 0 5 8 ++ Busy.jobs 0 6 7 ++
      Busy.jobs 0 7 8)
    Prod.fst (v := [Beat.dry, .look, .job, .job, .look] ++ [Beat.job, .job, .job, .job] ++
      [Beat.look, .job]) (by decide +kernel)
  exact ⟨tr, s, hr, hv, rfl, heartbeat hr⟩

end St3.Pool
