import St3.PoolSearch

/-!
The life of a worker: a thread enters `Pool::run`, looks for work, runs jobs, goes to sleep and
wakes up, and leaves. Five accesses lead from one phase to another, and no other access does.
-/

namespace St3.Pool

variable {n : ℕ} {J C L L' : Type*}

/-! ### Phases -/

inductive Phase
  | out
  | awake
  /-- Between the start of a job and the count of its end. -/
  | job
  /-- Between setting the bit of the worker and clearing it. -/
  | asleep
  | leaving
  | panicked
  deriving DecidableEq

def Pc.phase : Pc n J → Phase
  | .out => .out
  | .panicked => .panicked
  | .run .. | .complete => .job
  | .checkInjector | .checkInbox | .checkSlot => .asleep
  | .cancel | .recheckRunning | .park | .woken | .leave => .asleep
  | .exit => .leaving
  | pc => if pc.stealing = some true then .asleep else .awake

/-- What an access of worker `w` in phase `p` leads to. -/
def Req.Lives (w : Fin n) (p : Phase) : Req n J (Worker n J) → Prop
  | .handle u _ k => u = w ∧ p = .awake ∧ k.pc.phase = .job
  | .complete u k => u = w ∧ p = .job ∧ k.pc.phase = .awake
  | .setBit u k => u = w ∧ p = .awake ∧ k.pc.phase = .asleep
  | .clearBit u k => u = w ∧ p = .asleep ∧ (k.pc.phase = .awake ∨ k.pc = .exit)
  | .putQueue u k => u = w ∧ p = .leaving ∧ (k true).pc = .out ∧ (k false).pc = .panicked
  | r => r.All fun l => l.pc.phase = p ∨ p = .awake ∧ l.pc = .exit

/-- An access that is part of no change of phase. -/
def Req.plays : Req n J L → Bool
  | .handle .. | .complete .. | .setBit .. | .clearBit .. | .putQueue .. => false
  | _ => true

lemma Req.plays_map (f : L → L') (r : Req n J L) : (r.map f).plays = r.plays := by
  cases r <;> rfl

lemma Req.lives_iff {r : Req n J (Worker n J)} {w : Fin n} {p : Phase} (hr : r.plays) :
    r.Lives w p ↔ r.All fun l => l.pc.phase = p ∨ p = .awake ∧ l.pc = .exit := by
  cases r <;> first | exact Iff.rfl | cases hr

lemma Notify.next_plays {p : Notify n} {r : Req n J (Notify n)} (h : p.next = some r) :
    r.plays := by
  cases p <;> simp only [next, Option.some.injEq, reduceCtorEq] at h <;> subst h <;> rfl

lemma Call.next_plays {cfg : Config n} {c : Call n J} {r : Req n J (Call n J)}
    (h : c.next cfg = some r) : r.plays := by
  cases c with
  | notify p =>
    simp only [next, Option.map_eq_some_iff] at h
    obtain ⟨r, hr, rfl⟩ := h
    rw [Req.plays_map, Notify.next_plays hr]
  | idle => cases h
  | _ =>
    simp only [next, Option.some.injEq] at h
    subst h
    rfl

/-- The phase in which `steal_once` and the others are called. -/
def After.phase : After J → Phase
  | .stole prep _ => if some prep = some true then .asleep else .awake
  | _ => .awake

lemma Pc.nudge_phase (p : Notify n) (a : After J) : (Pc.nudge p a).phase = a.phase := by
  cases a <;> rfl

lemma After.shares_phase {a : After J} (h : a.shares) : a.phase = .awake := by
  cases a <;> first | rfl | cases h

lemma Worker.resume_phase (t : Tuning) (l : Worker n J) (a : After J) :
    (l.resume t a).pc.phase = a.phase := by
  unfold resume goto
  cases a with
  | took boundary taken => cases boundary <;> (try (dsimp only; split)) <;> rfl
  | stole prep got => cases prep <;> (try (dsimp only; split)) <;> rfl
  | _ => rfl

lemma Worker.popMine_phase (t : Tuning) (l : Worker n J) : (l.popMine t).pc.phase = .awake := by
  unfold popMine goto
  split
  · dsimp only
    split <;> rfl
  · split <;> rfl

/-- **The step of a worker.** -/
lemma Worker.next_lives {cfg : Config n} {w : Fin n} {l : Worker n J} {r : Req n J (Worker n J)}
    (h : l.next cfg w = some r) (hl : l.Idle) : r.Lives w l.pc.phase := by
  obtain ⟨mine, u, sp, rng, lr, e, pc⟩ := l
  have hpush := hl.pushes
  cases pc
  case run c wakes =>
    simp only [next, Option.map_eq_some_iff] at h
    obtain ⟨r, hr, rfl⟩ := h
    rw [Req.lives_iff (by rw [Req.plays_map, Call.next_plays hr])]
    exact (Req.all_of_forall (fun _ => .inl rfl) r).map
  case nudge p after =>
    simp only [next] at h
    split at h <;> cases h
    · exact fun _ => .inl ((resume_phase _ _ _).trans (Pc.nudge_phase p after).symm)
    · rw [Req.lives_iff (by rw [Req.plays_map, Notify.next_plays ‹_›])]
      refine (Req.all_of_forall (fun _ => .inl ?_) _).map
      exact (Pc.nudge_phase _ after).trans (Pc.nudge_phase _ after).symm
  case stealCall prep c =>
    simp only [next] at h
    split at h <;> cases h
    · exact fun _ => .inl ((resume_phase _ _ _).trans (by cases prep <;> rfl))
    · rw [Req.lives_iff (by rw [Req.plays_map, Call.next_plays ‹_›])]
      exact (Req.all_of_forall (fun _ => .inl rfl) _).map
  case exit =>
    have hmine : mine = [] := hl.mine rfl
    subst hmine
    simp only [next, Option.some.injEq] at h
    subst h
    exact ⟨rfl, rfl, rfl, rfl⟩
  all_goals simp only [next, Option.some.injEq, reduceCtorEq] at h
  all_goals try subst h
  case share after =>
    have hphase := After.shares_phase hpush
    intro _
    dsimp only
    split_ifs
    · exact .inl ((resume_phase _ _ _).trans hphase)
    · exact .inl rfl
  case sharePop left shared after =>
    have hphase := After.shares_phase hpush
    intro _
    dsimp only
    split
    · exact .inl rfl
    · split_ifs
      · exact .inl ((Pc.nudge_phase _ _).trans hphase)
      · exact .inl ((resume_phase _ _ _).trans hphase)
  case popMine => exact fun _ => .inl (popMine_phase _ _)
  case begin | complete | announce => exact ⟨rfl, rfl, rfl⟩
  case cancel | woken => exact ⟨rfl, rfl, .inl rfl⟩
  case leave => exact ⟨rfl, rfl, .inr rfl⟩
  case checkRunning =>
    intro s
    dsimp only
    split_ifs
    · exact .inr ⟨rfl, rfl⟩
    · exact .inl rfl
    · exact .inl rfl
  case endSearching got =>
    split_ifs at h <;> cases h <;> first | exact fun _ => .inl rfl | exact .inl rfl
  case readySlot =>
    split_ifs at h <;> cases h <;>
      first | exact fun _ => .inl rfl | exact ⟨fun _ => .inl rfl, .inl rfl⟩
  all_goals
    simp only [Req.Lives, Req.All, goto]
    -- one goal for each answer and each way on from it
    repeat' first | intro _ | refine And.intro ?_ ?_ | split
    all_goals first
      | exact .inl rfl
      | exact .inl (resume_phase _ _ _)

/-! ### Coming to rest -/

/-- The worker has looked everywhere, and parks, is on its way out, or out. -/
def Pc.resting : Pc n J → Bool
  | .park | .leave | .exit | .out => true
  | _ => false

/-- The points that a worker comes to rest from. -/
def Pc.atDoor : Pc n J → Bool
  | .checkRunning | .recheckRunning | .leave | .exit => true
  | _ => false

lemma Worker.resume_resting (t : Tuning) (l : Worker n J) (a : After J) :
    (l.resume t a).pc.resting = false := by
  unfold resume goto
  split <;> (try split) <;> rfl

lemma Worker.popMine_resting (t : Tuning) (l : Worker n J) :
    (l.popMine t).pc.resting = false := by
  unfold popMine goto
  split
  · dsimp only
    split <;> rfl
  · split <;> rfl

lemma Worker.next_resting {cfg : Config n} {w : Fin n} {l : Worker n J}
    {r : Req n J (Worker n J)} (h : l.next cfg w = some r) :
    r.All fun l' => l'.pc.resting → l.pc.atDoor := by
  obtain ⟨mine, u, sp, rng, lr, e, pc⟩ := l
  have hfree : ∀ {l' : Worker n J} {b : Bool}, l'.pc.resting = false → l'.pc.resting → b :=
    fun h h' => by simp [h] at h'
  cases pc
  case checkRunning | recheckRunning | leave | exit =>
    exact Req.all_of_forall (fun _ _ => rfl) r
  case run c wakes =>
    simp only [next, Option.map_eq_some_iff] at h
    obtain ⟨r, hr, rfl⟩ := h
    exact (Req.all_of_forall (fun _ => hfree rfl) r).map
  case nudge p after =>
    simp only [next] at h
    split at h <;> cases h
    · exact fun _ => hfree (resume_resting _ _ _)
    · exact (Req.all_of_forall (fun _ => hfree rfl) _).map
  case stealCall prep c =>
    simp only [next] at h
    split at h <;> cases h
    · exact fun _ => hfree (resume_resting _ _ _)
    · exact (Req.all_of_forall (fun _ => hfree rfl) _).map
  all_goals simp only [next, Option.some.injEq, reduceCtorEq] at h
  all_goals try subst h
  case popMine => exact fun _ => hfree (popMine_resting _ _)
  case endSearching got =>
    split_ifs at h <;> cases h <;> first | exact fun _ => hfree rfl | exact hfree rfl
  case readySlot =>
    split_ifs at h <;> cases h <;>
      first | exact fun _ => hfree rfl | exact ⟨fun _ => hfree rfl, hfree rfl⟩
  all_goals
    simp only [Req.All, goto]
    -- one goal for each answer and each way on from it
    repeat' first | refine And.intro ?_ ?_ | split | intro _
    all_goals first
      | exact absurd ‹_› Bool.false_ne_true
      | exact absurd ((resume_resting _ _ _).symm.trans ‹_›) Bool.false_ne_true

/-! ### The system -/

/-- The graph of the phases. -/
inductive Phase.Next : Phase → Phase → Prop
  | stay (p : Phase) : Next p p
  | enter : Next .out .awake
  | start : Next .awake .job
  | finish : Next .job .awake
  | announce : Next .awake .asleep
  | resume : Next .asleep .awake
  | stop : Next .awake .leaving
  | stopped : Next .asleep .leaving
  | leave : Next .leaving .out

/-- The bits, the jobs that were started, and those that were counted, when an access is part of
no change of phase. -/
lemma serve_plays {r : Req n J L} (hr : r.plays) {cap : ℕ} {spurious : Bool}
    {s s' : Shared n J} {l : L} (hs : serve cap spurious s r = some (l, s')) :
    (∀ u, s'.sleeping u → s.sleeping u) ∧ s'.completed = s.completed ∧ s'.handled = s.handled := by
  cases r <;> simp only [serve] at hs
  case handle | complete | setBit | clearBit | putQueue => cases hr
  case popDeque | pushDeque | book => split at hs <;> cases hs <;> exact ⟨fun _ h => h, rfl, rfl⟩
  case park => split at hs <;> (try split at hs) <;> cases hs <;> exact ⟨fun _ h => h, rfl, rfl⟩
  case claim c note k =>
    cases hs
    refine ⟨fun u hu => ?_, ?_, ?_⟩
    · by_cases hc : u = c
      · subst hc
        simp [Shared.setSleeping] at hu
      · split at hu <;> simpa [Shared.setSleeping, Shared.setOwed, hc] using hu
    · split <;> rfl
    · split <;> rfl
  all_goals cases hs; exact ⟨fun _ h => h, rfl, rfl⟩

/-- The runs that were started. -/
def Shared.started (s : Shared n J) : ℕ := s.handled.countP fun q => q.2 = .run

def Pc.inJob (pc : Pc n J) : Bool := decide (pc.phase = .job)

/-- The workers in a job. -/
def St.inJob (s : St n J C) : Finset (Fin n) := {w | (s.worker w).pc.inJob}

/-- What holds of the lives of all workers in every run. -/
structure Lives (s : St n J C) : Prop where
  sleeping : ∀ w, s.shared.sleeping w → (s.worker w).pc.phase = .asleep
  resting : ∀ w, (s.worker w).pc.resting → (s.shared.deque w).stored = []
  completed : ∑ w, s.shared.completed w + s.inJob.card = s.shared.started

section
variable {s : St n J C} {w : Fin n} {l : Worker n J} {sh : Shared n J}

lemma Lives.setWorker (h : Lives s) (hw : sh.sleeping w → l.pc.phase = .asleep)
    (hs : ∀ u, u ≠ w → sh.sleeping u → s.shared.sleeping u)
    (hp : l.pc.resting → (sh.deque w).stored = [])
    (hd : ∀ u, u ≠ w → (s.shared.deque u).stored = [] → (sh.deque u).stored = [])
    (hc : ∑ u, sh.completed u + l.pc.inJob.toNat + s.shared.started =
      ∑ u, s.shared.completed u + (s.worker w).pc.inJob.toNat + sh.started) :
    Lives ({ s with shared := sh }.setWorker w l) where
  sleeping u hu := by
    by_cases huw : u = w
    · subst huw
      simpa [St.setWorker] using hw hu
    · simpa [St.setWorker, huw] using h.sleeping u (hs u huw hu)
  resting u hu := by
    by_cases huw : u = w
    · subst huw
      exact hp (by simpa [St.setWorker] using hu)
    · exact hd u huw (h.resting u (by simpa [St.setWorker, huw] using hu))
  completed := by
    have hcard := card_setWorker s w l sh Pc.inJob
    have hold := h.completed
    unfold St.inJob at *
    simp only [St.setWorker] at hcard ⊢
    omega

/-- A worker on its way out adds nothing to its deque. -/
lemma Worker.next_atDoor {cfg : Config n} {l : Worker n J} {r : Req n J (Worker n J)}
    (h : l.next cfg w = some r) (hpc : l.pc.atDoor) : r.feeds = none := by
  obtain ⟨mine, u, sp, rng, lr, e, pc⟩ := l
  cases pc
  case checkRunning | recheckRunning | leave =>
    simp only [next, Option.some.injEq] at h
    subst h
    rfl
  case exit => cases mine <;> simp only [next, Option.some.injEq] at h <;> subst h <;> rfl
  all_goals cases hpc

lemma Lives.worker {cfg : Config n} (h : Lives s) (hi : Idle s) {spurious : Bool}
    {r : Req n J (Worker n J)} (hr : (s.worker w).next cfg w = some r)
    (hs : serve cfg.cap spurious s.shared r = some (l, sh)) :
    Lives ({ s with shared := sh }.setWorker w l) := by
  have hlives := Worker.next_lives hr (hi.idle w)
  have hp : l.pc.resting → (sh.deque w).stored = [] := by
    intro hl
    have hdoor := (Worker.next_resting hr).serve hs hl
    refine serve_stored (by rw [Worker.next_atDoor hr hdoor]; simp) hs ?_
    cases hpc : (s.worker w).pc <;> rw [hpc] at hdoor <;> try cases hdoor
    case checkRunning | recheckRunning => exact hi.dry w (by rw [hpc]; rfl)
    case leave | exit => exact h.resting w (by rw [hpc]; rfl)
  have hd : ∀ u, u ≠ w → (s.shared.deque u).stored = [] → (sh.deque u).stored = [] :=
    fun u hu => serve_stored (fun hf => hu (Worker.next_feeds hr hf)) hs
  have hold := h.sleeping w
  cases r
  case handle u j k =>
    obtain ⟨rfl, hpc, hk⟩ := hlives
    cases hs
    refine h.setWorker (fun hu => ?_) (fun _ _ h => h) hp hd ?_
    · exact absurd (hpc.symm.trans (hold hu)) (by decide)
    · simp [Pc.inJob, hpc, hk, Shared.started, Shared.setOwed]
      omega
  case complete u k =>
    obtain ⟨rfl, hpc, hk⟩ := hlives
    cases hs
    refine h.setWorker (fun hu => ?_) (fun _ _ h => h) hp hd ?_
    · exact absurd (hpc.symm.trans (hold hu)) (by decide)
    · have hsum :=
        Sums.sum_fun_update (fun m : ℕ => m) s.shared.completed u (s.shared.completed u + 1)
      simp [Pc.inJob, hpc, hk, Shared.started]
      omega
  case setBit u k =>
    obtain ⟨rfl, hpc, hk⟩ := hlives
    cases hs
    refine h.setWorker (fun _ => hk) (fun v hv hb => ?_) hp hd ?_
    · simpa [Shared.setSleeping, hv] using hb
    · simp [Pc.inJob, hpc, hk, Shared.started, Shared.setSleeping]
  case clearBit u k =>
    obtain ⟨rfl, hpc, hk⟩ := hlives
    cases hs
    refine h.setWorker (fun hu => ?_) (fun v hv hb => ?_) hp hd ?_
    · simp [Shared.setSleeping] at hu
    · simpa [Shared.setSleeping, hv] using hb
    · have hnot : l.pc.phase ≠ .job := by
        rcases hk with hk | hk
        · simp [hk]
        · simp [hk, Pc.phase]
      simp [Pc.inJob, hpc, hnot, Shared.started, Shared.setSleeping]
  case putQueue u k =>
    obtain ⟨rfl, hpc, htrue, hfalse⟩ := hlives
    have hsleep : ¬ s.shared.sleeping u := fun hu => absurd (hpc.symm.trans (hold hu)) (by decide)
    have hjob : l.pc.phase ≠ .job := by
      simp only [serve] at hs
      split_ifs at hs <;> cases hs
      · simp [hfalse, Pc.phase]
      · simp [htrue, Pc.phase]
    have hsame : sh.sleeping = s.shared.sleeping ∧ sh.completed = s.shared.completed ∧
        sh.handled = s.shared.handled := by
      simp only [serve] at hs
      split_ifs at hs <;> cases hs <;> exact ⟨rfl, rfl, rfl⟩
    obtain ⟨hb, hcomp, hhand⟩ := hsame
    refine h.setWorker (fun hu => ?_) (fun v _ hv => by rwa [hb] at hv) hp hd ?_
    · rw [hb] at hu
      exact absurd hu hsleep
    · simp [Pc.inJob, hpc, hjob, Shared.started, hcomp, hhand]
  all_goals
    obtain ⟨hb, hcomp, hhand⟩ := serve_plays (by rfl) hs
    have hnext := ((Req.lives_iff (by rfl)).mp hlives).serve hs
    refine h.setWorker (fun hu => ?_) (fun u _ => hb u) hp hd ?_
    · have hasleep := hold (hb w hu)
      rcases hnext with hsame | ⟨hpc, -⟩
      · rw [hsame, hasleep]
      · exact absurd (hpc.symm.trans hasleep) (by decide)
    · have hjob : l.pc.inJob = (s.worker w).pc.inJob := by
        rcases hnext with hsame | ⟨hpc, hexit⟩
        · rw [Pc.inJob, Pc.inJob, hsame]
        · rw [Pc.inJob, Pc.inJob, hpc, hexit]
          rfl
      rw [hjob, hcomp, Shared.started, Shared.started, hhand]

end

/-- The access of a worker leads along the graph. -/
lemma Phase.Next.worker [DecidableEq C] {cfg : Config n} {s : St n J C} {w : Fin n}
    {l : Worker n J} {sh : Shared n J} (hh : Homes s) (hi : Idle s) {spurious : Bool}
    {r : Req n J (Worker n J)} (hr : (s.worker w).next cfg w = some r)
    (hs : serve cfg.cap spurious s.shared r = some (l, sh)) :
    Phase.Next (s.worker w).pc.phase l.pc.phase := by
  have hlives := Worker.next_lives hr (hi.idle w)
  cases r
  case handle u j k =>
    obtain ⟨-, hpc, hk⟩ := hlives
    cases hs
    rw [hpc, hk]
    exact .start
  case complete u k =>
    obtain ⟨-, hpc, hk⟩ := hlives
    cases hs
    rw [hpc, hk]
    exact .finish
  case setBit u k =>
    obtain ⟨-, hpc, hk⟩ := hlives
    cases hs
    rw [hpc, hk]
    exact .announce
  case clearBit u k =>
    obtain ⟨-, hpc, hk⟩ := hlives
    cases hs
    rw [hpc]
    rcases hk with hk | hk <;> rw [hk]
    · exact .resume
    · exact .stopped
  case putQueue u k =>
    obtain ⟨rfl, hpc, htrue, -⟩ := hlives
    simp only [serve, hh.of_next hr, Bool.false_eq_true, if_false] at hs
    cases hs
    rw [hpc, htrue]
    exact .leave
  all_goals
    rcases ((Req.lives_iff (by rfl)).mp hlives).serve hs with hsame | ⟨hpc, hexit⟩
    · rw [hsame]
      exact .stay _
    · rw [hpc, hexit]
      exact .stop

variable [DecidableEq J] [DecidableEq C] [Fintype C] {cfg : Config n}

lemma lives {ok : Cmd n J C → St n J C → Prop} {tr : List Empty} {s : St n J C}
    (h : (ltsWhen cfg ok).Reaches tr s) : Lives s := by
  refine invariant Lives ?_ ?_ h
  · refine ⟨fun w hw => by simp [init, Shared.init] at hw, fun w _ => rfl, ?_⟩
    simp [init, Shared.init, St.inJob, Worker.init, Pc.inJob, Pc.phase, Shared.started]
  · intro _ cmd s s' hreach hs _ _ ht
    have hidle := idle hreach
    cases ht with
    | @run w hq =>
      have hw := homes hreach w
      rw [if_pos hq] at hw
      refine hs.setWorker (fun hb => ?_) (fun _ _ hb => hb) (fun hp => by cases hp)
        (fun _ _ hd => hd) ?_
      · have hasleep := hs.sleeping w hb
        rw [hw.1] at hasleep
        cases hasleep
      · rw [hw.1]
        rfl
    | refused => exact hs
    | worker hr hserve => exact hs.worker hidle hr hserve
    | @jobCall w op wakes hpc hj =>
      have hacc : Lives { s with accepted := s.accepted ++ op.job?.toList } :=
        ⟨hs.sleeping, hs.resting, hs.completed⟩
      refine hacc.setWorker (fun hb => ?_) (fun _ _ hb => hb) (fun hp => by cases hp)
        (fun _ _ hd => hd) ?_
      · have hasleep := hs.sleeping w hb
        rw [hpc] at hasleep
        cases hasleep
      · simp only [hpc]
        rfl
    | @jobDone w wakes hpc =>
      refine hs.setWorker (fun hb => ?_) (fun _ _ hb => hb) (fun hp => by cases hp)
        (fun _ _ hd => hd) ?_
      · have hasleep := hs.sleeping w hb
        rw [hpc] at hasleep
        cases hasleep
      · rw [hpc]
        rfl
    | call => exact ⟨hs.sleeping, hs.resting, hs.completed⟩
    | caller hr hserve =>
      obtain ⟨hb, hcomp, hhand⟩ := serve_plays (Call.next_plays hr) hserve
      refine ⟨fun w hw => hs.sleeping w (hb w hw), fun w hw => ?_, ?_⟩
      · exact serve_stored (by rw [Call.next_feeds hr]; simp) hserve (hs.resting w hw)
      · have hold := hs.completed
        simp only [St.setCaller, Shared.started, hcomp, hhand] at hold ⊢
        exact hold
    | drop hw hc =>
      refine ⟨hs.sleeping, fun w _ => rfl, ?_⟩
      have hold := hs.completed
      have hdrop : ∀ js : List J,
          (js.map fun j => (j, Act.drop)).countP (fun q => q.2 = .run) = 0 := by
        intro js
        induction js <;> simp_all
      simp only [Shared.started, Shared.drop, List.countP_append, hdrop] at hold ⊢
      exact hold

/-- **The life of a worker.** In every run, a worker's deque is in its place just while no thread
runs it; a worker that is on its way out, or out, has nothing in its private queue, so that the
loop that gives its jobs back finds none, and nothing in its deque; its bit is set only while it
is between setting and clearing it; and every step leads along the graph of the phases. -/
theorem worker_life {tr : List Empty} {s : St n J C} (h : (lts cfg J C).Reaches tr s) (w : Fin n) :
    (s.shared.queue w = true ↔ (s.worker w).pc.phase = .out) ∧
    ((s.worker w).pc.phase = .leaving ∨ (s.worker w).pc.phase = .out →
      (s.worker w).mine = [] ∧ (s.shared.deque w).stored = []) ∧
    (s.shared.sleeping w = true → (s.worker w).pc.phase = .asleep) ∧
    ∀ cmd s', step cfg cmd s = some s' →
      Phase.Next (s.worker w).pc.phase (s'.worker w).pc.phase := by
  have hhome := homes h w
  have hidle := idle h
  have hlives := lives h
  have hout : (s.worker w).pc.phase = .out ↔ (s.worker w).pc = .out := by
    cases hpc : (s.worker w).pc <;> simp [Pc.phase] <;> split <;> simp
  have hleaving : (s.worker w).pc.phase = .leaving → (s.worker w).pc = .exit := by
    cases hpc : (s.worker w).pc <;> simp [Pc.phase] <;> split <;> simp
  refine ⟨?_, ?_, hlives.sleeping w, ?_⟩
  · rw [hout]
    split_ifs at hhome with hq
    · exact ⟨fun _ => hhome.1, fun _ => hq⟩
    · exact ⟨fun h => absurd h hq, fun h => by simp [h, Pc.gone] at hhome⟩
  · rintro (hl | ho)
    · have hpc := hleaving hl
      exact ⟨(hidle.idle w).mine (by rw [hpc]; rfl), hlives.resting w (by rw [hpc]; rfl)⟩
    · have hpc := hout.mp ho
      refine ⟨?_, hlives.resting w (by rw [hpc]; rfl)⟩
      split_ifs at hhome
      · exact hhome.2
      · simp [hpc, Pc.gone] at hhome
  · intro cmd s' hstep
    obtain ⟨-, ht⟩ := step_trans hstep
    have hset : ∀ {t : St n J C} {u : Fin n} {l : Worker n J}, t.worker = s.worker →
        Phase.Next (s.worker u).pc.phase l.pc.phase →
        Phase.Next (s.worker w).pc.phase ((t.setWorker u l).worker w).pc.phase := by
      intro t u l he hnext
      by_cases hw : w = u
      · subst hw
        simpa [St.setWorker] using hnext
      · simpa [St.setWorker, hw, he] using Phase.Next.stay _
    cases ht with
    | @run u hq =>
      have hu := homes h u
      rw [if_pos hq] at hu
      refine hset rfl ?_
      rw [hu.1]
      exact .enter
    | refused => exact .stay _
    | worker hr hserve => exact hset rfl (.worker (homes h) hidle hr hserve)
    | jobCall hpc => exact hset rfl (by rw [hpc]; exact .stay _)
    | jobDone hpc => exact hset rfl (by rw [hpc]; exact .stay _)
    | call => exact .stay _
    | caller => exact .stay _
    | drop => exact .stay _

/-- A worker asleep: its bit is set, and its deque is empty. -/
theorem worker_life_asleep : ∃ s : St 2 (Fin 1) (Fin 1), s.shared.sleeping 0 = true ∧
    ((s.shared.queue 0 = true ↔ (s.worker 0).pc.phase = .out) ∧
    ((s.worker 0).pc.phase = .leaving ∨ (s.worker 0).pc.phase = .out →
      (s.worker 0).mine = [] ∧ (s.shared.deque 0).stored = []) ∧
    (s.shared.sleeping 0 = true → (s.worker 0).pc.phase = .asleep) ∧
    ∀ cmd s', step twoWorkers cmd s = some s' →
      Phase.Next (s.worker 0).pc.phase (s'.worker 0).pc.phase) := by
  obtain ⟨tr, s, hr, hv⟩ := exists_reaches (J := Fin 1) (C := Fin 1) twoWorkers
    (fun _ _ => True) [(1, .run 0), (30, .worker 0 false)] (fun s => s.shared.sleeping 0)
    (v := true) (by decide)
  exact ⟨s, hv, worker_life hr 0⟩

/-- The jobs whose handle was run, each as often as it was. -/
def Shared.runs (s : Shared n J) : List J := (s.handled.filter fun q => q.2 = .run).map Prod.fst

omit [DecidableEq J] in
lemma Shared.mem_runs {s : Shared n J} {j : J} : j ∈ s.runs ↔ (j, Act.run) ∈ s.handled := by
  simp [runs]

/-- **The counters account for every job that was started.** In every run, the jobs that the
workers have counted in `completed`, and those that a worker is in, are as many as the accepted
jobs that were run. -/
theorem completed_counts {tr : List Empty} {s : St n J C} (h : (lts cfg J C).Reaches tr s) :
    ∑ w, s.shared.completed w + s.inJob.card =
      (s.accepted.filter fun j => (j, Act.run) ∈ s.shared.handled).length := by
  have hledger := ledger h
  -- a job that was run was accepted, and run once
  have hcount : ∀ j, s.shared.runs.count j ≤ s.accepted.count j := by
    intro j
    have hfilter : s.shared.runs.count j ≤ (s.shared.handled.map Prod.fst).count j :=
      (List.Sublist.map _ List.filter_sublist).count_le j
    have hle : (s.shared.handled.map Prod.fst).count j ≤ s.count j := by
      simp only [St.count, Shared.count]
      omega
    exact (hfilter.trans hle).trans (hledger.count j).le
  have hnodup : s.shared.runs.Nodup := List.nodup_iff_count_le_one.mpr fun j =>
    (hcount j).trans (List.nodup_iff_count_le_one.mp hledger.nodup j)
  have hperm : s.shared.runs.Perm (s.accepted.filter fun j => (j, Act.run) ∈ s.shared.handled) := by
    refine (List.perm_ext_iff_of_nodup hnodup (hledger.nodup.filter _)).mpr fun j => ?_
    simp only [Shared.mem_runs, List.mem_filter, decide_eq_true_eq]
    refine ⟨fun hj => ⟨?_, hj⟩, fun hj => hj.2⟩
    have hpos : 0 < s.shared.runs.count j := List.count_pos_iff.mpr (Shared.mem_runs.mpr hj)
    exact List.count_pos_iff.mp (hpos.trans_le (hcount j))
  rw [(lives h).completed, Shared.started, List.countP_eq_length_filter, ← hperm.length_eq,
    Shared.runs, List.length_map]

/-- One job was counted, and the worker is in the other one. -/
theorem completed_counts_second : ∃ s : St 1 (Fin 2) (Fin 1),
    s.shared.completed 0 = 1 ∧ s.inJob.card = 1 ∧
      ∑ w, s.shared.completed w + s.inJob.card =
        (s.accepted.filter fun j => (j, Act.run) ∈ s.shared.handled).length := by
  obtain ⟨tr, s, hr, hv⟩ := exists_reaches (J := Fin 2) (C := Fin 1)
    (⟨1, .locality, 64, by decide, by decide, by decide⟩ : Config 1) (fun _ _ => True)
    [(1, .call 0 (.submit none 0)), (2, .caller 0 false), (1, .call 0 (.submit none 1)),
      (2, .caller 0 false), (1, .run 0), (22, .worker 0 false), (1, .jobDone 0),
      (21, .worker 0 false)]
    (fun s => (s.shared.completed 0, s.inJob.card)) (v := (1, 1)) (by decide)
  obtain ⟨hc, hj⟩ := Prod.mk.inj hv
  exact ⟨s, hc, hj, completed_counts hr⟩

end St3.Pool
