import St3.PoolSlotless
import St3.PoolSolo

/-!
Displaced work in a pool of one worker that shares it: the first displaced job goes to the
inbox, and later ones to the injector, which the boundary serves ahead of the inbox.
-/

namespace St3.Pool.Solo

variable {J C : Type*}

/-! ### Displaced jobs -/

/-- The job that a call has taken out of the slot, and not put anywhere yet. -/
def displacing : Call 1 J → Option J
  | .inboxEmpty _ d => some d
  | .overflow _ d => some d
  | .displace _ d => some d
  | _ => none

def displacingIn : Pc 1 J → Option J
  | .run call _ => displacing call
  | _ => none

/-- A displaced job that has not been taken up again. -/
def Waiting (D : J) (s : St 1 J C) : Prop :=
  D ∈ s.shared.inbox 0 ∨ D ∈ s.shared.injector ∨ displacingIn (s.worker 0).pc = some D ∨
    ∃ c, displacing (s.caller c) = some D

/-- The job that the next access of a thread displaces from the slot. -/
def displaced (cmd : Cmd 1 J C) (s : St 1 J C) : Option J :=
  match cmd with
  | .worker w _ =>
    match (s.worker w).pc with
    | .run (.replace v _) _ => s.shared.slot v
    | _ => none
  | .caller c _ =>
    match s.caller c with
    | .replace v _ => s.shared.slot v
    | _ => none
  | _ => none

/-- The jobs that wait to be run. -/
def queued (s : St 1 J C) : ℕ :=
  (s.shared.slot 0).toList.length + (s.shared.inbox 0).length + s.shared.injector.length +
    (s.shared.deque 0).stored.length + (s.worker 0).mine.length

variable [DecidableEq J] [DecidableEq C] [Fintype C]

/-- Nothing comes from outside. -/
def Unaided (cmd : Cmd 1 J C) (s : St 1 J C) : Prop :=
  SelfWaking cmd s ∧ ∀ c op, cmd ≠ .call c op

/-- How many jobs are completed while a displaced job waits is bounded by the count of jobs
that were queued when it was displaced; after that only `ok` steps are made. -/
def DisplacedBound (cfg : Config 1) (ok : Cmd 1 J C → St 1 J C → Prop) : Prop :=
  ∃ B : ℕ → ℕ, ∀ tr (s s' : St 1 J C) cmd D, (ltsSeeing cfg ran SelfWaking).Reaches tr s →
    SelfWaking cmd s → step cfg cmd s = some s' → displaced cmd s = some D →
      ∀ m s'', (ltsSeeing cfg ran fun cmd s => ok cmd s ∧ Waiting D s).Steps s' m s'' →
        m.length ≤ B (queued s)

/-! ### Without local wakes -/

/-- Nothing is displaced where nothing is ever put into the slot. -/
lemma displaced_none {cfg : Config 1} (ht : cfg.tuning.localWakes = false) {tr : List Unit}
    {s : St 1 J C} (h : (ltsSeeing cfg ran SelfWaking).Reaches tr s) (cmd : Cmd 1 J C) :
    displaced cmd s = none := by
  obtain ⟨tr', hr⟩ := reaches_of_seeing h
  have hslot := (slotless ht hr).slot
  unfold displaced
  split
  · split <;> first | exact hslot _ | rfl
  · split <;> first | exact hslot _ | rfl
  · rfl

/-! ### The loop in which a displaced job waits for ever -/

section
variable {cfg : Config 1} {D : J}

omit [DecidableEq J] [DecidableEq C] [Fintype C] in
lemma grants : Grants (fun (cmd : Cmd 1 J C) s => Unaided cmd s ∧ Waiting D s)
    fun v => v.inbox = [D] := by
  have hwait : ∀ {l : Worker 1 J} {c : C} {p : Call 1 J} {v : Places J} {s : St 1 J C},
      At l c p v s → v.inbox = [D] → Waiting D s := by
    intro l c p v s hs hv
    refine .inl ?_
    simp [hs.shown.inbox, hv]
  constructor
  · exact fun hs hv => ⟨⟨trivial, nofun⟩, hwait hs hv⟩
  · intro l c p v s hs hv hpc j
    exact ⟨⟨⟨by rw [hs.worker, hpc], j, rfl⟩, nofun⟩, hwait hs hv⟩
  · exact fun hs hv => ⟨⟨trivial, nofun⟩, hwait hs hv⟩
  · exact fun _ hv => hv

variable (hwakes : cfg.tuning.localWakes) (hshare : cfg.tuning.shareDisplaced)
  (hinbox : cfg.tuning.stealableInbox = false)

include hwakes hshare hinbox

omit hwakes in
/-- At the boundary the only job of the injector is taken, ahead of the inbox. -/
lemma leads_refill {c : C} {p : Call 1 J} {y z : J} {l : Worker 1 J} (hpc : l.pc = .top)
    (hmine : l.mine = []) (hrun : l.lifoRun = cfg.tuning.lifoRunLimit) :
    (ltsSeeing cfg ran fun cmd s => Unaided cmd s ∧ Waiting D s).Leads
      (At l c p ⟨some y, [D], [z]⟩) 0
      fun s => ∃ l', At l' c p ⟨some y, [D], []⟩ s ∧
        l'.pc = .popMine ∧ l'.mine = [z] ∧ l'.lifoRun = 0 := by
  obtain ⟨mine, u, sp, rng, lr, e, pc⟩ := l
  dsimp only at hpc hmine hrun
  subst hpc hmine hrun
  have hg := grants (C := C) (D := D)
  refine leads_head hg rfl ⟨[], u, sp, rng, cfg.tuning.lifoRunLimit, e, .boundary⟩ rfl
    (.load fun _ _ => congrArg (Worker.goto _) (if_neg (lt_irrefl _))) ?_
  refine leads_head hg rfl ⟨[], u, sp, rng, cfg.tuning.lifoRunLimit, true, .capped⟩ rfl
    (.load fun _ _ => by simp [hinbox]) ?_
  refine leads_head hg rfl ⟨[], u, sp, rng, cfg.tuning.lifoRunLimit, true, .pullInjector true 0⟩ rfl
    (.load fun _ _ => by simp [hshare, Worker.goto]) ?_
  have hlen : (ltsSeeing cfg ran fun cmd s => Unaided cmd s ∧ Waiting D s).Leads
      (At ⟨[z], u, sp, rng, cfg.tuning.lifoRunLimit, true, .pullLen true 1⟩ c p ⟨some y, [D], []⟩) 0
      fun s => ∃ l', At l' c p ⟨some y, [D], []⟩ s ∧
        l'.pc = .popMine ∧ l'.mine = [z] ∧ l'.lifoRun = 0 := by
    refine leads_head hg rfl ⟨[z], u, sp, rng, cfg.tuning.lifoRunLimit, true, .reset⟩ rfl
      (.load fun sh hsh => by rw [hsh.injector]; rfl) ?_
    refine leads_head hg rfl ⟨[z], u, sp, rng, 0, true, .popMine⟩ rfl (.load fun _ _ => rfl) ?_
    exact (Lts.Leads.refl _).mono fun s hs => ⟨_, hs, rfl, rfl, rfl⟩
  by_cases hbatch : 1 < cfg.tuning.injectorBatch
  · refine leads_head hg rfl ⟨[z], u, sp, rng, cfg.tuning.lifoRunLimit, true, .pullInjector true 1⟩
      rfl (.of_eq (.popInjector rfl _) (by simp [hbatch])) ?_
    exact leads_head hg rfl _ rfl (.popInjector rfl _) hlen
  · exact leads_head hg rfl ⟨[z], u, sp, rng, cfg.tuning.lifoRunLimit, true, .pullLen true 1⟩
      rfl (.of_eq (.popInjector rfl _) (by simp [hbatch])) hlen

omit hwakes hshare hinbox in
/-- The only private job is run next, whether or not the worker looks at whether to share. -/
lemma leads_popMine {good : Places J → Prop} {ok : Cmd 1 J C → St 1 J C → Prop}
    (hg : Grants ok good) {v : Places J} (hv : good v) {c : C} {p : Call 1 J} {z : J}
    {l : Worker 1 J} (hpc : l.pc = .popMine) (hmine : l.mine = [z]) :
    (ltsSeeing cfg ran ok).Leads (At l c p v) 0
      fun s => ∃ l', At l' c p v s ∧ l'.pc = .begin z ∧ l'.mine = [] ∧ l'.lifoRun = l.lifoRun := by
  obtain ⟨mine, u, sp, rng, lr, e, pc⟩ := l
  dsimp only at hpc hmine
  subst hpc hmine
  by_cases hu : u - 1 = 0
  · refine leads_head hg hv ⟨[], cfg.tuning.promoteEvery, 0, rng, lr, e, .promote z⟩ rfl
      (.load fun _ _ => by simp [Worker.popMine, hu]) ?_
    refine leads_head hg hv ⟨[], cfg.tuning.promoteEvery, 0, rng, lr, e, .begin z⟩ rfl
      (.load fun sh hsh => by simp [hsh.candidate, Worker.goto]) ?_
    exact (Lts.Leads.refl _).mono fun s hs => ⟨_, hs, rfl, rfl, rfl⟩
  · refine leads_head hg hv ⟨[], u - 1, 0, rng, lr, e, .begin z⟩ rfl
      (.load fun _ _ => by simp [Worker.popMine, hu]) ?_
    exact (Lts.Leads.refl _).mono fun s hs => ⟨_, hs, rfl, rfl, rfl⟩

/-- That job displaces the one of the slot, which goes to the injector: the inbox is not empty. -/
lemma leads_displace [Infinite J] {c : C} {p : Call 1 J} {y z : J} {l : Worker 1 J}
    (hpc : l.pc = .begin z) :
    (ltsSeeing cfg ran fun cmd s => Unaided cmd s ∧ Waiting D s).Leads
      (At l c p ⟨some y, [D], []⟩) 1
      fun s => ∃ z', At (l.goto .top) c p ⟨some z', [D], [y]⟩ s := by
  have hg := grants (C := C) (D := D)
  have hv : Places.inbox ⟨some y, [D], []⟩ = [D] := rfl
  refine (leads_wake hg hv hwakes hpc).head (Lts.Leads.exists fun z' => ?_)
  refine leads_head hg rfl (l.goto (.run (.inboxEmpty 0 y) 1)) rfl
    (.of_eq (.replaceSlot rfl z' _) (by simp [hshare, hinbox, Worker.goto])) ?_
  refine leads_head hg rfl (l.goto (.run (.overflow 0 y) 1)) rfl
    (.load fun sh hsh => by simp [hsh.inbox, Worker.goto]) ?_
  refine leads_head hg rfl (l.goto (.run (.wakeLoad 0 false) 1)) rfl (.pushInjector y _) ?_
  exact (leads_done hg rfl rfl).mono fun s hs => ⟨z', hs⟩

/-- **The loop**: the jobs of the slot and of the injector change places, and the inbox is never
looked at. -/
lemma leads_loop [Infinite J] {c : C} {p : Call 1 J} :
    (ltsSeeing cfg ran fun (cmd : Cmd 1 J C) s => Unaided cmd s ∧ Waiting D s).Leads
      (fun s => ∃ y z, AtTop [] 0 c p ⟨some y, [D], [z]⟩ s) 1
      fun s => ∃ y z, AtTop [] 0 c p ⟨some y, [D], [z]⟩ s := by
  refine Lts.Leads.exists fun y => Lts.Leads.exists fun z => ?_
  have hg := grants (C := C) (D := D)
  have hv : Places.inbox ⟨some y, [D], [z]⟩ = [D] := rfl
  intro s hs
  obtain ⟨tr₁, s₁, hsteps₁, -, y', l, hl, hpc, hmine, hrun⟩ :=
    leads_slots hg hv hwakes (Nat.zero_add cfg.tuning.lifoRunLimit) rfl s hs
  obtain ⟨tr₂, s₂, hsteps₂, -, l', hl', hpc', hmine', hrun'⟩ :=
    leads_refill hshare hinbox hpc hmine hrun s₁ hl
  obtain ⟨tr₃, s₃, hsteps₃, -, l₃, hl₃, hpc₃, hmine₃, hrun₃⟩ :=
    leads_popMine hg rfl hpc' hmine' s₂ hl'
  obtain ⟨tr₄, s₄, hsteps₄, hlen, z', hz'⟩ :=
    leads_displace hwakes hshare hinbox hpc₃ s₃ hl₃
  refine ⟨_, s₄, ((hsteps₁.trans hsteps₂).trans hsteps₃).trans hsteps₄, ?_, z', y', _, hz', rfl,
    hmine₃, hrun₃.trans hrun'⟩
  rw [List.length_append]
  omega

/-! ### The way into the loop -/

omit hshare hinbox in
/-- Calls of a caller fill the slot and the injector, and are about to displace the job of the
slot. -/
lemma leads_filled [Infinite J] (c : C) :
    (ltsSeeing cfg ran SelfWaking).Leads (· = init) 0 fun s => ∃ D z y : J,
      At (.start cfg.tuning 0) c (.replace 0 y) ⟨some D, [], [z]⟩ s := by
  have hcall : ∀ (s : St 1 J C) op, SelfWaking (.call c op) s := fun _ _ => trivial
  have hok : ∀ {l : Worker 1 J} {p : Call 1 J} {v : Places J} (s : St 1 J C), At l c p v s →
      SelfWaking (.caller c false) s := fun _ _ => trivial
  have hlocal : ∀ j : J, Call.start cfg.tuning (.submitLocal (0 : Fin 1) j) = .replace 0 j :=
    fun j => if_pos hwakes
  refine (leads_run (fun _ => trivial) c).head ?_
  refine (leads_call (.submitLocal 0) (fun _ => rfl) fun s j => hcall s _).head
    (Lts.Leads.exists fun D => ?_)
  rw [hlocal]
  refine leads_caller hok (.wakeLoad 0 false) rfl (.replaceSlot rfl D _) ?_
  refine leads_caller hok .idle rfl (.load fun sh hsh => by simp [hsh.awake, Call.published]) ?_
  refine (leads_call (.submit none) (fun _ => rfl) fun s j => hcall s _).head
    (Lts.Leads.exists fun z => ?_)
  refine leads_caller hok (.notify (wake none)) rfl (.pushInjector z _) ?_
  refine leads_caller hok .idle rfl (.load fun sh hsh => by simp [hsh.candidate, Call.ofNotify]) ?_
  refine (leads_call (.submitLocal 0) (fun _ => rfl) fun s j => hcall s _).mono ?_
  rintro s ⟨y, hs⟩
  rw [hlocal] at hs
  exact ⟨D, z, y, hs⟩

omit hwakes hshare in
/-- The displaced job goes to the inbox. -/
lemma leads_inbox {l : Worker 1 J} {c : C} {y z : J} :
    (ltsSeeing cfg ran fun (cmd : Cmd 1 J C) s => Unaided cmd s ∧ Waiting D s).Leads
      (At l c (.inboxEmpty 0 D) ⟨some y, [], [z]⟩) 0 (At l c .idle ⟨some y, [D], [z]⟩) := by
  have hmoving : ∀ {p : Call 1 J} {v : Places J}, displacing p = some D → ∀ s : St 1 J C,
      At l c p v s → Unaided (.caller c false) s ∧ Waiting D s := by
    intro p v hp s hs
    exact ⟨⟨trivial, nofun⟩, .inr (.inr (.inr ⟨c, by rw [hs.caller, hp]⟩))⟩
  refine leads_caller (hmoving rfl) (.displace 0 D) rfl
    (.load fun sh hsh => by simp [hsh.inbox]) ?_
  refine leads_caller (hmoving rfl) (.wakeLoad 0 false) rfl
    (.of_eq (.pushInbox D _) (by rw [hinbox])) ?_
  refine leads_caller (fun s hs => ⟨⟨trivial, nofun⟩, .inl ?_⟩) .idle rfl
    (.load fun sh hsh => by simp [hsh.awake, Call.published]) (.refl _)
  simp [hs.shown.inbox]

/-- A displaced job may wait while as many jobs as one likes are completed. -/
lemma starved [Infinite J] (c : C) : ∃ tr cmd D, ∃ s s' : St 1 J C,
    (ltsSeeing cfg ran SelfWaking).Reaches tr s ∧ SelfWaking cmd s ∧ step cfg cmd s = some s' ∧
      displaced cmd s = some D ∧ ∀ k, ∃ m s'',
        (ltsSeeing cfg ran fun cmd s => Unaided cmd s ∧ Waiting D s).Steps s' m s'' ∧
          k ≤ m.length := by
  obtain ⟨tr, s, hsteps, -, D, z, y, hs⟩ := leads_filled hwakes c (init : St 1 J C) rfl
  have hreach : (ltsSeeing cfg ran SelfWaking).Reaches tr s := by
    simpa using (Lts.Reaches.init (L := ltsSeeing cfg ran SelfWaking) rfl).trans hsteps
  obtain ⟨s', hstep, hs'⟩ := hs.callerAccess cfg rfl
    (.of_eq (.replaceSlot rfl y _) (if_pos ⟨hinbox, hshare⟩))
  refine ⟨tr, .caller c false, D, s, s', hreach, trivial, hstep, ?_, fun k => ?_⟩
  · simp [displaced, hs.caller, hs.shown.slot]
  · obtain ⟨tr₁, s₁, hsteps₁, -, hs₁⟩ := leads_inbox hinbox s' hs'
    obtain ⟨tr₂, s₂, hsteps₂, hk, -⟩ :=
      (leads_loop hwakes hshare hinbox).iterate k s₁ ⟨y, z, _, hs₁, rfl, rfl, rfl⟩
    refine ⟨_, s₂, hsteps₁.trans hsteps₂, ?_⟩
    rw [List.length_append]
    omega

omit hwakes in
lemma not_displacedBound [Infinite J] (c : C) {ok : Cmd 1 J C → St 1 J C → Prop}
    (hok : ∀ cmd s, Unaided cmd s → ok cmd s) (hwakes : cfg.tuning.localWakes) :
    ¬ DisplacedBound cfg ok := by
  rintro ⟨B, hB⟩
  obtain ⟨tr, cmd, D, s, s', hreach, hcmd, hstep, hdisplaced, hlong⟩ :=
    starved (J := J) hwakes hshare hinbox c
  obtain ⟨m, s'', hsteps, hlen⟩ := hlong (B (queued s) + 1)
  have hsteps' : (ltsSeeing cfg ran fun cmd s => ok cmd s ∧ Waiting D s).Steps s' m s'' :=
    steps_weaken (fun cmd s h => ⟨hok cmd s h.1, h.2⟩) hsteps
  have := hB tr s s' cmd D hreach hcmd hstep hdisplaced m s'' hsteps'
  omega

end

/-- **Displaced work is starved in every pool with local wakes.** Where the displaced jobs of one
worker are shared through the injector, the count of jobs that are completed while one of them
waits has a bound if and only if `submit_local` never uses the slot; and so it is where nothing
is submitted from outside any more. -/
theorem displaced_bounded [Infinite J] [Nonempty C] (cfg : Config 1)
    (hshare : cfg.tuning.shareDisplaced) (hinbox : cfg.tuning.stealableInbox = false) :
    (DisplacedBound (J := J) (C := C) cfg SelfWaking ↔ cfg.tuning.localWakes = false) ∧
    (DisplacedBound (J := J) (C := C) cfg Unaided ↔ cfg.tuning.localWakes = false) := by
  obtain ⟨c⟩ := ‹Nonempty C›
  have hnone : ∀ ok : Cmd 1 J C → St 1 J C → Prop, cfg.tuning.localWakes = false →
      DisplacedBound cfg ok := by
    intro ok ht
    refine ⟨fun _ => 0, fun tr s s' cmd D hreach _ _ hd => ?_⟩
    rw [displaced_none ht hreach cmd] at hd
    cases hd
  constructor
  · refine ⟨fun h => ?_, hnone _⟩
    by_contra hwakes
    exact not_displacedBound hshare hinbox c (fun _ _ h => h.1) (by simpa using hwakes) h
  · refine ⟨fun h => ?_, hnone _⟩
    by_contra hwakes
    exact not_displacedBound hshare hinbox c (fun _ _ h => h) (by simpa using hwakes) h

/-- A pool of one worker that shares displaced jobs, in which the jobs of the slot come back to it
or to the injector. -/
def sharing (localWakes : Bool) : Config 1 :=
  .single 1 { Tuning.locality with shareDisplaced := true, localWakes := localWakes }
    (by cases localWakes <;> decide)

/-- Nothing is displaced in the pool without local wakes. -/
theorem displaced_bounded_spread :
    DisplacedBound (J := ℕ) (C := Fin 1) (sharing false) SelfWaking :=
  (displaced_bounded (sharing false) rfl rfl).1.mpr rfl

/-- The pool with local wakes has no bound, even though it is accepted and shares. -/
theorem displaced_not_bounded : ¬ ∀ cfg : Config 1, cfg.tuning.shareDisplaced →
    cfg.tuning.stealableInbox = false → DisplacedBound (J := ℕ) (C := Fin 1) cfg SelfWaking := by
  intro h
  have hnot : ¬ DisplacedBound (J := ℕ) (C := Fin 1) (sharing true) SelfWaking :=
    not_displacedBound rfl rfl 0 (fun _ _ h => h.1) rfl
  exact hnot (h (sharing true) rfl rfl)

end St3.Pool.Solo
