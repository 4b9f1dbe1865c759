import St3.PoolRuns
import Mathlib.Data.Fintype.EquivFin

/-!
A pool of one worker, run step by step from a state in which nobody is asleep: where each access
of the worker leads, and each call of a job and of a caller.
-/

namespace St3.Pool.Solo

variable {J C L E : Type*}

/-! ### What an access does -/

/-- What the worker can find outside its private queue, but for its sharing deque, which stays
empty. -/
structure Places (J : Type*) where
  slot : Option J
  inbox : List J
  injector : List J

/-- The jobs are in these places, and the worker is awake. -/
structure Places.Shown (v : Places J) (sh : Shared 1 J) : Prop where
  slot : sh.slot 0 = v.slot
  inbox : sh.inbox 0 = v.inbox
  injector : sh.injector = v.injector
  stored : (sh.deque 0).stored = []
  awake : sh.sleeping 0 = false

lemma Places.Shown.candidate {v : Places J} {sh : Shared 1 J} (h : v.Shown sh)
    (blocked : Option (Fin 1)) : candidate sh.sleeping blocked = none := by
  cases hc : Pool.candidate sh.sleeping blocked with
  | none => rfl
  | some c =>
    have hasleep := (candidate_some hc).1
    rw [Subsingleton.elim c 0, h.awake] at hasleep
    cases hasleep

/-- What a thread goes on with after an access, and where the jobs are then. -/
inductive Answer (v : Places J) : Req 1 J L → L → Places J → Prop
  | load {k : Shared 1 J → L} {l : L} (hk : ∀ sh, v.Shown sh → k sh = l) : Answer v (.load k) l v
  | takeSlot {o : Option J} (ho : v.slot = o) (k : Option J → L) :
      Answer v (.takeSlot 0 k) (k o) { v with slot := none }
  | replaceSlot {o : Option J} (ho : v.slot = o) (j : J) (k : Option J → L) :
      Answer v (.replaceSlot 0 j k) (k o) { v with slot := some j }
  | pushInbox (j : J) (l : L) : Answer v (.pushInbox 0 j l) l { v with inbox := v.inbox ++ [j] }
  | popInbox {o : Option J} (ho : v.inbox.head? = o) (k : Option J → L) :
      Answer v (.popInbox 0 k) (k o) { v with inbox := v.inbox.tail }
  | pushInjector (j : J) (l : L) :
      Answer v (.pushInjector j l) l { v with injector := v.injector ++ [j] }
  | popInjector {o : Option J} (ho : v.injector.head? = o) (k : Option J → L) :
      Answer v (.popInjector 0 k) (k o) { v with injector := v.injector.tail }
  | handle (j : J) (l : L) : Answer v (.handle 0 j l) l v
  | complete (l : L) : Answer v (.complete 0 l) l v

lemma Answer.of_eq {v v' : Places J} {r : Req 1 J L} {l l' : L} (h : Answer v r l v')
    (he : l = l') : Answer v r l' v' :=
  he ▸ h

lemma Answer.serve {v v' : Places J} {r : Req 1 J L} {l : L} (h : Answer v r l v') (cap : ℕ)
    {sh : Shared 1 J} (hv : v.Shown sh) :
    ∃ sh', Pool.serve cap false sh r = some (l, sh') ∧ v'.Shown sh' := by
  obtain ⟨hslot, hinbox, hinjector, hstored, hawake⟩ := hv
  cases h with
  | load hk => exact ⟨sh, by simp [Pool.serve, hk sh ⟨hslot, hinbox, hinjector, hstored, hawake⟩],
      hslot, hinbox, hinjector, hstored, hawake⟩
  | takeSlot ho k =>
    exact ⟨sh.setSlot 0 none, by rw [Pool.serve, hslot, ho], by simp [Shared.setSlot], hinbox,
      hinjector, hstored, hawake⟩
  | replaceSlot ho j k =>
    exact ⟨sh.setSlot 0 (some j), by rw [Pool.serve, hslot, ho], by simp [Shared.setSlot], hinbox,
      hinjector, hstored, hawake⟩
  | pushInbox j l =>
    exact ⟨_, rfl, hslot, by simp [Shared.setInbox, hinbox], hinjector, hstored, hawake⟩
  | popInbox ho k =>
    exact ⟨sh.setInbox 0 v.inbox.tail, by rw [Pool.serve, hinbox, ho], hslot,
      by simp [Shared.setInbox], hinjector, hstored, hawake⟩
  | pushInjector j l => exact ⟨_, rfl, hslot, hinbox, by simp [hinjector], hstored, hawake⟩
  | popInjector ho k =>
    exact ⟨{ sh.setOwed 0 false with injector := v.injector.tail },
      by rw [Pool.serve, hinjector, ho],
      hslot, hinbox, rfl, hstored, hawake⟩
  | handle j l => exact ⟨_, rfl, hslot, hinbox, hinjector, hstored, hawake⟩
  | complete l => exact ⟨_, rfl, hslot, hinbox, hinjector, hstored, hawake⟩

/-! ### Steps -/

variable [DecidableEq J] [DecidableEq C] [Fintype C]

/-- The worker, a caller, and the places, in a pool that is not dropped. -/
structure At (l : Worker 1 J) (c : C) (p : Call 1 J) (v : Places J) (s : St 1 J C) : Prop where
  worker : s.worker 0 = l
  caller : s.caller c = p
  shown : v.Shown s.shared
  live : s.dropped = false

variable (cfg : Config 1) {see : Cmd 1 J C → St 1 J C → Option E} {l l' : Worker 1 J} {c : C}
  {p p' : Call 1 J} {v v' : Places J} {s : St 1 J C}

lemma At.access (h : At l c p v s) {r : Req 1 J (Worker 1 J)} (hr : l.next cfg 0 = some r)
    (ha : Answer v r l' v') :
    ∃ s', step cfg (.worker 0 false) s = some s' ∧ At l' c p v' s' := by
  obtain ⟨sh', hs, hv'⟩ := ha.serve cfg.cap h.shown
  refine ⟨{ s with shared := sh' }.setWorker 0 l', ?_, ?_⟩
  · simp [step, h.live, h.worker, hr, hs]
  · exact ⟨by simp [St.setWorker], h.caller, hv', h.live⟩

lemma At.callerAccess (h : At l c p v s) {r : Req 1 J (Call 1 J)} (hr : p.next cfg = some r)
    (ha : Answer v r p' v') :
    ∃ s', step cfg (.caller c false) s = some s' ∧ At l c p' v' s' := by
  obtain ⟨sh', hs, hv'⟩ := ha.serve cfg.cap h.shown
  refine ⟨{ s with shared := sh' }.setCaller c p', ?_, ?_⟩
  · simp [step, h.live, h.caller, hr, hs]
  · exact ⟨h.worker, by simp [St.setCaller], hv', h.live⟩

omit [DecidableEq C] [Fintype C] in
lemma accept_fresh {op : Op 1 J} (hop : ∀ j ∈ op.job?, j ∉ s.accepted) :
    s.accept op = some { s with accepted := s.accepted ++ op.job?.toList } := by
  unfold St.accept
  cases hj : op.job? with
  | none => simp
  | some j => simp [hop j (by simp [hj])]

/-- The job that is run makes a call. -/
lemma At.jobCall (h : At l c p v s) {wakes : ℕ} (hpc : l.pc = .run .idle wakes) {op : Op 1 J}
    (hop : ∀ j ∈ op.job?, j ∉ s.accepted) :
    ∃ s', step cfg (.jobCall 0 op) s = some s' ∧
      At (l.goto (.run (.start cfg.tuning op) (wakes + op.wakes))) c p v s' := by
  refine ⟨{ s with accepted := s.accepted ++ op.job?.toList }.setWorker 0
    (l.goto (.run (.start cfg.tuning op) (wakes + op.wakes))), ?_, ?_⟩
  · simp only [step, h.live, h.worker, hpc, accept_fresh hop, Bool.false_eq_true, if_false,
      Option.map_some]
  · exact ⟨by simp [St.setWorker], h.caller, h.shown, h.live⟩

lemma At.jobDone (h : At l c p v s) {wakes : ℕ} (hpc : l.pc = .run .idle wakes) :
    ∃ s', step cfg (.jobDone 0) s = some s' ∧ At (l.goto .complete) c p v s' := by
  refine ⟨s.setWorker 0 (l.goto .complete), ?_, ?_⟩
  · simp [step, h.live, h.worker, hpc]
  · exact ⟨by simp [St.setWorker], h.caller, h.shown, h.live⟩

/-- The caller makes a call. -/
lemma At.call (h : At l c .idle v s) {op : Op 1 J} (hop : ∀ j ∈ op.job?, j ∉ s.accepted) :
    ∃ s', step cfg (.call c op) s = some s' ∧ At l c (.start cfg.tuning op) v s' := by
  refine ⟨{ s with accepted := s.accepted ++ op.job?.toList }.setCaller c
    (.start cfg.tuning op), ?_, ?_⟩
  · simp only [step, h.live, h.caller, accept_fresh hop, Bool.false_eq_true, if_false,
      Option.map_some]
  · exact ⟨h.worker, by simp [St.setCaller], h.shown, h.live⟩

/-! ### Self-wakes -/

/-- A job calls `submit_local` for its worker, once at most, and makes no other call. -/
def SelfWaking (cmd : Cmd 1 J C) (s : St 1 J C) : Prop :=
  match cmd with
  | .jobCall w op => (s.worker w).pc = .run .idle 0 ∧ ∃ j, op = .submitLocal w j
  | _ => True

/-- Steps of the worker, and of jobs that wake themselves, are `ok` where the places are so. -/
structure Grants (ok : Cmd 1 J C → St 1 J C → Prop) (good : Places J → Prop) : Prop where
  worker : ∀ {l c p v s}, At l c p v s → good v → ok (.worker 0 false) s
  jobCall : ∀ {l c p v s}, At l c p v s → good v → l.pc = .run .idle 0 →
    ∀ j, ok (.jobCall 0 (.submitLocal 0 j)) s
  jobDone : ∀ {l c p v s}, At l c p v s → good v → ok (.jobDone 0) s
  slot : ∀ {v : Places J} (o : Option J), good v → good { v with slot := o }

/-- The worker has completed a job. -/
def ran (cmd : Cmd 1 J C) (s : St 1 J C) : Option Unit :=
  match cmd with
  | .worker w _ => if (s.worker w).pc = .complete then some () else none
  | _ => none

section
variable {cfg} {ok : Cmd 1 J C → St 1 J C → Prop} {good : Places J → Prop}
  (hg : Grants ok good) (hv : good v)

include hg hv

lemma leads_access {r : Req 1 J (Worker 1 J)} (hr : l.next cfg 0 = some r) (ha : Answer v r l' v') :
    (ltsSeeing cfg ran ok).Leads (At l c p v) 0 (At l' c p v') := by
  intro s hs
  obtain ⟨s', hstep, hs'⟩ := hs.access cfg hr ha
  exact ⟨_, s', .one (step_seeing (hg.worker hs hv) hstep), Nat.zero_le _, hs'⟩

lemma leads_head {r : Req 1 J (Worker 1 J)} {k : ℕ} {Q : St 1 J C → Prop} (l' : Worker 1 J)
    (hr : l.next cfg 0 = some r) (ha : Answer v r l' v')
    (h : (ltsSeeing cfg ran ok).Leads (At l' c p v') k Q) :
    (ltsSeeing cfg ran ok).Leads (At l c p v) k Q := by
  exact (leads_access hg hv hr ha).head h

/-- A job is started, and wakes itself. -/
lemma leads_wake [Infinite J] (ht : cfg.tuning.localWakes) {j : J} (hpc : l.pc = .begin j) :
    (ltsSeeing cfg ran ok).Leads (At l c p v) 0
      fun s => ∃ j', At (l.goto (.run (.replace 0 j') 1)) c p v s := by
  intro s hs
  obtain ⟨s₁, h₁, hs₁⟩ := hs.access cfg (by rw [Worker.next, hpc]) (.handle j _)
  obtain ⟨j', hj'⟩ := Infinite.exists_notMem_finset s₁.accepted.toFinset
  have hfresh : ∀ j ∈ (Op.submitLocal (0 : Fin 1) j').job?, j ∉ s₁.accepted := by
    simpa [Op.job?] using hj'
  obtain ⟨s₂, h₂, hs₂⟩ := hs₁.jobCall cfg rfl hfresh
  refine ⟨_, s₂, .head (step_seeing (hg.worker hs hv) h₁)
    (.one (step_seeing (hg.jobCall hs₁ hv rfl j') h₂)), Nat.zero_le _, j', ?_⟩
  rw [Call.start, if_pos ht] at hs₂
  exact hs₂

/-- The call finds the worker awake, and the job returns. -/
lemma leads_done (hpc : l.pc = .run (.wakeLoad 0 false) 1) :
    (ltsSeeing cfg ran ok).Leads (At l c p v) 1 (At (l.goto .top) c p v) := by
  intro s hs
  have hload : ∀ sh, v.Shown sh → l.goto (.run (if sh.sleeping 0 then .wakeClaim 0 false else
      Call.published 0 false) 1) = l.goto (.run .idle 1) := by
    intro sh hsh
    simp [hsh.awake, Call.published]
  obtain ⟨s₁, h₁, hs₁⟩ := hs.access cfg (by rw [Worker.next, hpc]; rfl) (.load hload)
  obtain ⟨s₂, h₂, hs₂⟩ := hs₁.jobDone cfg rfl
  obtain ⟨s₃, h₃, hs₃⟩ := hs₂.access cfg rfl (.complete _)
  have hran : ran (.worker 0 false) s₂ = some () := by simp [ran, hs₂.worker, Worker.goto]
  refine ⟨_, s₃, .head (step_seeing (hg.worker hs hv) h₁)
    (.head (step_seeing (hg.jobDone hs₁ hv) h₂) (.one (step_seeing (hg.worker hs₂ hv) h₃))), ?_,
    hs₃⟩
  simp only [hran, Option.toList_some, List.length_append, List.length_singleton]
  omega

/-- A job that finds the slot empty wakes itself, and returns. -/
lemma leads_selfWake [Infinite J] (ht : cfg.tuning.localWakes) {j : J} (hpc : l.pc = .begin j)
    (hslot : v.slot = none) :
    (ltsSeeing cfg ran ok).Leads (At l c p v) 1
      fun s => ∃ j', At (l.goto .top) c p { v with slot := some j' } s := by
  refine (leads_wake hg hv ht hpc).head (Lts.Leads.exists fun j' => ?_)
  have hreplace : (ltsSeeing cfg ran ok).Leads (At (l.goto (.run (.replace 0 j') 1)) c p v) 0
      (At (l.goto (.run (.wakeLoad 0 false) 1)) c p { v with slot := some j' }) :=
    leads_access hg hv rfl (.replaceSlot hslot j' _)
  have hdone : (ltsSeeing cfg ran ok).Leads
      (At (l.goto (.run (.wakeLoad 0 false) 1)) c p { v with slot := some j' }) 1
      (At (l.goto .top) c p { v with slot := some j' }) :=
    leads_done hg (hg.slot (some j') hv) rfl
  exact (hreplace.trans hdone).mono fun s hs => ⟨j', hs⟩

end

/-- The worker is at the top of the loop. -/
def AtTop (mine : List J) (lifoRun : ℕ) (c : C) (p : Call 1 J) (v : Places J) (s : St 1 J C) :
    Prop :=
  ∃ l : Worker 1 J, At l c p v s ∧ l.pc = .top ∧ l.mine = mine ∧ l.lifoRun = lifoRun

section
variable {cfg} {ok : Cmd 1 J C → St 1 J C → Prop} {good : Places J → Prop}
  (hg : Grants ok good) (hv : good v) (ht : cfg.tuning.localWakes) {mine : List J}

include hg hv ht

/-- The job of the slot wakes itself, as long as the slot may be served. -/
lemma leads_slot [Infinite J] {r : ℕ} (hr : r < cfg.tuning.lifoRunLimit) {y : J}
    (hslot : v.slot = some y) :
    (ltsSeeing cfg ran ok).Leads (AtTop mine r c p v) 1
      fun s => ∃ y', AtTop mine (r + 1) c p { v with slot := some y' } s := by
  rintro s ⟨l, hs, hpc, hmine, hrun⟩
  have htop : (ltsSeeing cfg ran ok).Leads (At l c p v) 0 (At (l.goto .takeSlot) c p v) :=
    leads_access hg hv (by rw [Worker.next, hpc]) (.load fun _ _ => by rw [hrun, if_pos hr])
  have htake : (ltsSeeing cfg ran ok).Leads (At (l.goto .takeSlot) c p v) 0
      (At { l with lifoRun := l.lifoRun + 1, spins := 0, pc := .begin y } c p
        { v with slot := none }) :=
    leads_access hg hv rfl (.takeSlot hslot _)
  have hwake := leads_selfWake hg (hg.slot none hv) ht (c := c) (p := p)
    (l := { l with lifoRun := l.lifoRun + 1, spins := 0, pc := .begin y }) rfl rfl
  obtain ⟨tr, s', hsteps, hlen, y', hs'⟩ := (htop.trans (htake.trans hwake)) s hs
  exact ⟨tr, s', hsteps, by omega, y', _, hs', rfl, hmine, by simp [Worker.goto, hrun]⟩

/-- The whole run of the slot. -/
lemma leads_slots [Infinite J] {k r : ℕ} (hk : r + k = cfg.tuning.lifoRunLimit) {y : J}
    (hslot : v.slot = some y) :
    (ltsSeeing cfg ran ok).Leads (AtTop mine r c p v) k
      fun s => ∃ y', AtTop mine cfg.tuning.lifoRunLimit c p { v with slot := some y' } s := by
  induction k generalizing r v y with
  | zero =>
    rw [Nat.add_zero] at hk
    refine (Lts.Leads.refl _).mono fun s hs => ⟨y, ?_⟩
    rwa [← hk, ← hslot]
  | succ k ih =>
    rw [Nat.add_comm k 1]
    refine (leads_slot hg hv ht (by omega) hslot).trans (Lts.Leads.exists fun y' => ?_)
    exact ih (hg.slot _ hv) (by omega) rfl

end

/-! ### Calls of a caller -/

section
variable {cfg} {ok : Cmd 1 J C → St 1 J C → Prop}

lemma leads_caller (hok : ∀ s, At l c p v s → ok (.caller c false) s) {r : Req 1 J (Call 1 J)}
    {k : ℕ} {Q : St 1 J C → Prop} (p' : Call 1 J) (hr : p.next cfg = some r) (ha : Answer v r p' v')
    (h : (ltsSeeing cfg ran ok).Leads (At l c p' v') k Q) :
    (ltsSeeing cfg ran ok).Leads (At l c p v) k Q := by
  intro s hs
  obtain ⟨s₁, h₁, hs₁⟩ := hs.callerAccess cfg hr ha
  obtain ⟨tr, s', hsteps, hlen, hq⟩ := h s₁ hs₁
  exact ⟨tr, s', .head (step_seeing (hok s hs) h₁) hsteps, hlen, hq⟩

/-- A caller hands over a job that the pool has not seen. -/
lemma leads_call [Infinite J] (op : J → Op 1 J) (hop : ∀ j, (op j).job? = some j)
    (hok : ∀ s j, ok (.call c (op j)) s) :
    (ltsSeeing cfg ran ok).Leads (At l c .idle v) 0
      fun s => ∃ j, At l c (.start cfg.tuning (op j)) v s := by
  intro s hs
  obtain ⟨j, hj⟩ := Infinite.exists_notMem_finset s.accepted.toFinset
  have hfresh : ∀ j' ∈ (op j).job?, j' ∉ s.accepted := by simpa [hop] using hj
  obtain ⟨s₁, h₁, hs₁⟩ := hs.call cfg hfresh
  exact ⟨_, s₁, .one (step_seeing (hok s j) h₁), Nat.zero_le _, j, hs₁⟩

/-- A thread runs the only worker. -/
lemma leads_run (hok : ∀ s, ok (.run 0) s) (c : C) :
    (ltsSeeing cfg ran ok).Leads (· = init) 0
      (At (.start cfg.tuning 0) c .idle ⟨none, [], []⟩) := by
  rintro s rfl
  have hstep : step cfg (.run 0) (init : St 1 J C) = some (({ init with
      shared := Shared.init.takeQueue 0 } : St 1 J C).setWorker 0 (.start cfg.tuning 0)) := by
    simp [step, init, Shared.init]
  refine ⟨_, _, .one (step_seeing (hok init) hstep), Nat.zero_le _, ?_⟩
  exact ⟨by simp [St.setWorker], rfl, ⟨rfl, rfl, rfl, rfl, rfl⟩, rfl⟩

end

end St3.Pool.Solo
