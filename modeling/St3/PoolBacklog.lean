import St3.PoolSlotless

/-!
The private queue of a worker, which no peer can reach, and how long it gets.

Two of its three refills start from an empty queue. The third one, at the boundary between the
slot and the queue, starts from whatever is there.
-/

namespace St3.Pool

variable {n : ℕ} {J C : Type*}

/-! ### The bound at each point of the code -/

/-- The most jobs in the private queue at a point of the code, where `every` is the length of
the heartbeat and `batch` that of a refill from the injector. -/
def Pc.room (every batch : ℕ) : Pc n J → ℕ
  | .pullInjector b taken => if b then every + taken else taken
  | .pullLen b taken => if b then every + taken else taken
  | .nudge _ (.took b taken) => if b then every + taken else taken
  | .reset | .popMine => every + batch
  | .moveInbox moved => moved
  | .sharePush .. => every + batch - 2
  | _ => every + batch - 1

/-- A refill under way has not reached its end. -/
def Pc.filling (every batch : ℕ) : Pc n J → Prop
  | .pullInjector _ taken => taken < batch
  | .pullLen _ taken => taken ≤ batch
  | .nudge _ (.took _ taken) => taken ≤ batch
  | .moveInbox moved => moved < every
  | _ => True

structure Worker.Backlog (t : Tuning) (l : Worker n J) : Prop where
  mine : l.mine.length ≤ l.pc.room t.promoteEvery t.injectorBatch
  filling : l.pc.filling t.promoteEvery t.injectorBatch

/-- Before a refill at the boundary the queue is no longer than the heartbeat. -/
def Worker.Sparing (t : Tuning) (l : Worker n J) : Prop :=
  l.pc = .capped → l.slotBudgetExhausted → t.shareDisplaced →
    t.injectorBatch = 1 ∨ l.mine.length ≤ t.promoteEvery

instance (t : Tuning) (l : Worker n J) [DecidableEq J] : Decidable (l.Sparing t) := by
  unfold Worker.Sparing
  infer_instance

lemma Worker.Backlog.le {t : Tuning} (ht : t.Accepted) {l : Worker n J} (h : l.Backlog t) :
    l.mine.length ≤ t.promoteEvery + t.injectorBatch := by
  obtain ⟨hlimit, hp, hb⟩ := ht
  obtain ⟨mine, u, sp, rng, lr, e, pc⟩ := l
  obtain ⟨hmine, hfill⟩ := h
  dsimp only at hmine hfill ⊢
  cases pc
  case nudge p after =>
    cases after <;> simp only [Pc.room, Pc.filling] at hmine hfill <;> (try split_ifs at hmine) <;>
      omega
  all_goals simp only [Pc.room, Pc.filling] at hmine hfill
  all_goals try split_ifs at hmine
  all_goals omega

/-! ### What an access does to the queue -/

lemma Worker.resume_backlog {t : Tuning} (ht : t.Accepted) {l : Worker n J} {p : Notify n}
    {a : After J} (h : (l.goto (.nudge p a)).Backlog t) : (l.resume t a).Backlog t := by
  obtain ⟨hlimit, hp, hb⟩ := ht
  obtain ⟨hmine, hfill⟩ := h
  unfold resume
  unfold goto at *
  cases a with
  | took boundary taken =>
    simp only [Pc.room, Pc.filling] at hmine hfill
    cases boundary with
    | true =>
      simp only [if_true] at hmine
      exact ⟨by simp only [Pc.room]; omega, trivial⟩
    | false =>
      simp only [Bool.false_eq_true, if_false] at hmine
      dsimp only
      split_ifs <;> exact ⟨by simp only [Pc.room]; omega, trivial⟩
  | stole prep got =>
    simp only [Pc.room] at hmine
    cases prep <;> dsimp only <;> (try split_ifs) <;> exact ⟨hmine, trivial⟩
  | _ => exact ⟨hmine, trivial⟩

lemma Worker.popMine_backlog {t : Tuning} (ht : t.Accepted) {l : Worker n J}
    (h : l.mine.length ≤ t.promoteEvery + t.injectorBatch) : (l.popMine t).Backlog t := by
  obtain ⟨hlimit, hp, hb⟩ := ht
  unfold popMine goto
  cases hlast : l.mine.getLast? with
  | some j =>
    have hlen : l.mine.dropLast.length = l.mine.length - 1 := List.length_dropLast
    dsimp only
    split_ifs <;> exact ⟨by simp only [Pc.room]; omega, trivial⟩
  | none =>
    have hnil : l.mine = [] := List.getLast?_eq_none_iff.mp hlast
    dsimp only
    split_ifs
    · exact ⟨by simp [hnil], trivial⟩
    · exact ⟨by simp [hnil], hp⟩

/-- `share` is not called in the middle of a refill. -/
lemma After.shares_room (every batch : ℕ) (p : Notify n) {a : After J} (h : a.shares) :
    (Pc.nudge p a).room every batch = every + batch - 1 ∧ (Pc.nudge p a).filling every batch := by
  cases a <;> first | exact ⟨rfl, trivial⟩ | cases h

attribute [local grind =] Req.All Worker.goto Worker.found Worker.again
attribute [local grind] Pc.room Pc.filling Pc.bare Worker.Backlog

lemma Worker.next_backlog {cfg : Config n} {w : Fin n} {l : Worker n J}
    {r : Req n J (Worker n J)} (h : l.next cfg w = some r) (hidle : l.Idle)
    (hspare : l.Sparing cfg.tuning) (hl : l.Backlog cfg.tuning) : r.All (Backlog cfg.tuning) := by
  have hacc := cfg.accepted
  have ⟨hlimit, hp, hb⟩ := cfg.accepted
  obtain ⟨mine, u, sp, rng, lr, e, pc⟩ := l
  have hmine := hidle.mine
  cases pc
  case run c wakes =>
    simp only [next, Option.map_eq_some_iff] at h
    obtain ⟨r, hr, rfl⟩ := h
    exact (Req.all_of_forall (fun _ => ⟨hl.mine, trivial⟩) r).map
  case nudge p after =>
    simp only [next] at h
    split at h <;> cases h
    · exact fun _ => resume_backlog hacc hl
    · refine Req.All.map (Req.all_of_forall (fun _ => ⟨?_, ?_⟩) _)
      · cases after <;> exact hl.mine
      · cases after <;> exact hl.filling
  case stealCall prep c =>
    simp only [next] at h
    split at h <;> cases h
    · exact fun _ => resume_backlog (p := .done) hacc ⟨hl.mine, trivial⟩
    · exact (Req.all_of_forall (fun _ => ⟨hl.mine, trivial⟩) _).map
  all_goals simp only [next, Option.some.injEq, reduceCtorEq] at h
  all_goals try subst h
  case popMine => exact fun _ => popMine_backlog hacc hl.mine
  case pullLen b taken =>
    intro s
    dsimp only
    split_ifs
    · exact ⟨hl.mine, hl.filling⟩
    · exact resume_backlog (p := .done) hacc ⟨hl.mine, hl.filling⟩
  case moveInbox moved =>
    have hfew := hl.filling
    have hlen := hl.mine
    have hmod := Nat.mod_le cfg.tuning.promoteEvery (2 ^ cfg.bits)
    simp only [Pc.room, Pc.filling] at hlen hfew
    refine ⟨fun j => ?_, ?_⟩
    · dsimp only
      split_ifs <;> refine ⟨?_, ?_⟩ <;>
        simp only [again, goto, Pc.room, Pc.filling, List.length_append, List.length_singleton] <;>
        omega
    · dsimp only
      split_ifs <;> exact ⟨by simp only [again, goto, Pc.room]; omega, trivial⟩
  case pullInjector b taken =>
    have hfew := hl.filling
    have hlen := hl.mine
    simp only [Pc.room, Pc.filling] at hlen hfew
    refine ⟨fun j => ?_, hlen, hfew.le⟩
    dsimp only
    split_ifs <;> refine ⟨?_, ?_⟩ <;>
      simp only [Pc.room, Pc.filling, List.length_append, List.length_singleton] <;>
      (try split_ifs at hlen ⊢) <;> omega
  case capped =>
    intro s
    have hlen := hl.mine
    simp only [Pc.room] at hlen
    simp only [goto]
    split_ifs with hcap
    · rw [Bool.and_eq_true] at hcap
      rcases hspare rfl hcap.1 hcap.2 with hone | hle
      · exact ⟨by simp only [Pc.room, if_true]; omega, hb⟩
      · exact ⟨by simpa [Pc.room] using hle, hb⟩
    · exact ⟨by simp only [Pc.room]; omega, trivial⟩
  case share after =>
    obtain ⟨hroom, hfill⟩ := After.shares_room cfg.tuning.promoteEvery cfg.tuning.injectorBatch
      (.done : Notify n) hidle.pushes
    intro s
    dsimp only
    split_ifs
    · exact resume_backlog hacc ⟨hroom ▸ hl.mine, hfill⟩
    · exact ⟨hl.mine, trivial⟩
  case sharePop left shared after =>
    have hlen := hl.mine
    have hroom := fun p : Notify n =>
      After.shares_room cfg.tuning.promoteEvery cfg.tuning.injectorBatch p hidle.pushes
    intro s
    dsimp only
    split
    · simp only [Pc.room, List.length_cons] at hlen
      exact ⟨by simp only [Pc.room]; omega, trivial⟩
    · split_ifs
      · exact ⟨(hroom _).1 ▸ hl.mine, (hroom _).2⟩
      · exact resume_backlog (p := .done) hacc ⟨(hroom _).1 ▸ hl.mine, (hroom _).2⟩
  case steal | stealNext | stealPush | release =>
    have hstole : ∀ {l' : Worker n J} {prep got}, l'.mine = mine →
        (l'.resume cfg.tuning (.stole prep got)).Backlog cfg.tuning := fun he =>
      resume_backlog (p := .done) hacc ⟨he ▸ hl.mine, trivial⟩
    grind
  case sharePush | popInbox | popDeque | denySearching | stealInbox => grind
  case endSearching | readySlot | exit => grind
  all_goals
    have hlen := hl.mine
    simp only [Pc.room] at hlen
    simp only [Req.All, goto]
    -- one goal for each answer and each way on from it
    repeat' first | intro _ | refine And.intro ?_ ?_ | split
    all_goals exact ⟨by simp only [Pc.room]; omega, trivial⟩

/-! ### The queue over a run -/

section
variable [DecidableEq J] [DecidableEq C] [Fintype C] {cfg : Config n}

/-- No worker starts a refill at the boundary with a queue longer than the heartbeat. -/
def Sparing (cfg : Config n) (_ : Cmd n J C) (s : St n J C) : Prop :=
  ∀ w, (s.worker w).Sparing cfg.tuning

instance (cmd : Cmd n J C) (s : St n J C) : Decidable (Sparing cfg cmd s) := by
  unfold Sparing
  infer_instance

lemma backlog {tr : List Empty} {s : St n J C} (h : (ltsWhen cfg (Sparing cfg)).Reaches tr s)
    (w : Fin n) : (s.worker w).Backlog cfg.tuning := by
  refine worker_invariant (Worker.Backlog cfg.tuning) ?_ ?_ ?_ ?_ ?_ h
  · exact ⟨Nat.zero_le _, trivial⟩
  · exact ⟨Nat.zero_le _, trivial⟩
  · exact fun hreach hok hr hl => Worker.next_backlog hr ((idle hreach).idle w) (hok w) hl
  · intro l c k c' k' hpc hl
    exact ⟨by simpa [hpc, Worker.goto, Pc.room] using hl.mine, trivial⟩
  · intro l c k hpc hl
    exact ⟨by simpa [hpc, Worker.goto, Pc.room] using hl.mine, trivial⟩

/-- Where nothing is put into a slot, nothing is taken at the boundary, or one job is, no refill
at the boundary finds a long queue. -/
lemma sparing (ht : cfg.tuning.localWakes = false ∨ cfg.tuning.shareDisplaced = false ∨
    cfg.tuning.injectorBatch = 1) {tr : List Empty} {s : St n J C}
    (h : (lts cfg J C).Reaches tr s) : (ltsWhen cfg (Sparing cfg)).Reaches tr s := by
  refine reaches_when (fun hreach _ => ?_) h
  intro w _ hexhausted hshare
  rcases ht with hplain | hno | hone
  · simp [((slotless hplain hreach).worker w).exhausted] at hexhausted
  · simp [hno] at hshare
  · exact .inl hone

/-- **The private backlog is bounded while the refills at the boundary are spare.** In every run
in which no refill at the boundary of more than one job starts with a queue longer than
`promote_every`, no worker has more than `promote_every + injector_batch` jobs of its own; and
that is every run without local wakes, without the refill, or with single jobs. -/
theorem backlog_bounded {tr : List Empty} {s : St n J C} (w : Fin n) :
    ((ltsWhen cfg (Sparing cfg)).Reaches tr s →
      (s.worker w).mine.length ≤ cfg.tuning.promoteEvery + cfg.tuning.injectorBatch) ∧
    (cfg.tuning.localWakes = false ∨ cfg.tuning.shareDisplaced = false ∨
      cfg.tuning.injectorBatch = 1 → (lts cfg J C).Reaches tr s →
        (s.worker w).mine.length ≤ cfg.tuning.promoteEvery + cfg.tuning.injectorBatch) := by
  have hbound : (ltsWhen cfg (Sparing cfg)).Reaches tr s →
      (s.worker w).mine.length ≤ cfg.tuning.promoteEvery + cfg.tuning.injectorBatch :=
    fun h => (backlog h w).le cfg.accepted
  exact ⟨hbound, fun ht h => hbound (sparing ht h)⟩

end

/-- A pool of one worker that comes to the boundary after every job of its slot, and takes two
jobs from the injector there. -/
def refilling : Config 1 :=
  .single 1
    { Tuning.locality with
      lifoRunLimit := 1, promoteEvery := 1, injectorBatch := 2, shareDisplaced := true
      roundsBeforePark := 0 }
    (by decide)

/-- A pool of one worker that takes six jobs from the injector at once. -/
def plainly : Config 1 := .single 1 { Tuning.throughput with injectorBatch := 6 } (by decide)

/-- Six jobs go to the injector, and one by `submit_local`. -/
def sixSubmitted (c w : Fin 1) : List (ℕ × Cmd 1 (Fin 9) (Fin 1)) :=
  ((List.finRange 9).take 6).flatMap
    (fun j => [(1, Cmd.call c (.submit none j)), (2, .caller c false)]) ++
    [(1, Cmd.call c (.submitLocal w 6)), (2, .caller c false)]

/-- The first refill of one pool, and a refill of another. -/
theorem backlog_bounded_refill :
    (∃ s : St 1 (Fin 9) (Fin 1), (s.worker 0).mine.length = 2 ∧
      (s.worker 0).mine.length ≤
        refilling.tuning.promoteEvery + refilling.tuning.injectorBatch) ∧
    ∃ s : St 1 (Fin 9) (Fin 1), (s.worker 0).mine.length = 6 ∧
      (s.worker 0).mine.length ≤ plainly.tuning.promoteEvery + plainly.tuning.injectorBatch := by
  obtain ⟨tr, s, hr, hv⟩ := exists_reaches (J := Fin 9) (C := Fin 1) refilling (Sparing refilling)
    (sixSubmitted 0 0 ++ [(1, Cmd.run 0), (3, .worker 0 false), (1, .jobDone 0),
      (7, .worker 0 false)])
    (fun s => (s.worker 0).mine.length) (v := 2) (by decide +kernel)
  obtain ⟨tr', s', hr', hv'⟩ := exists_reaches (J := Fin 9) (C := Fin 1) plainly (fun _ _ => True)
    (sixSubmitted 0 0 ++ [(1, Cmd.run 0), (20, .worker 0 false)])
    (fun s => (s.worker 0).mine.length) (v := 6) (by decide +kernel)
  exact ⟨⟨s, hv, (backlog_bounded 0).1 hr⟩, s', hv', (backlog_bounded 0).2 (.inl rfl) hr'⟩

/-- The third refill at the boundary finds two jobs in the private queue, and makes them four. -/
theorem backlog_exceeded : ¬ ∀ (n : ℕ) (cfg : Config n) (tr : List Empty)
    (s : St n (Fin 9) (Fin 1)) (w : Fin n), (lts cfg (Fin 9) (Fin 1)).Reaches tr s →
      (s.worker w).mine.length ≤ cfg.tuning.promoteEvery + cfg.tuning.injectorBatch := by
  intro h
  obtain ⟨tr, s, hr, hv⟩ := exists_reaches (J := Fin 9) (C := Fin 1) refilling (fun _ _ => True)
    (sixSubmitted 0 0 ++ [(1, Cmd.run 0), (3, .worker 0 false), (1, .jobDone 0),
      (13, .worker 0 false), (1, .jobCall 0 (.submitLocal 0 7)), (2, .worker 0 false),
      (1, .jobDone 0), (4, .worker 0 false), (1, .jobDone 0),
      (13, .worker 0 false), (1, .jobCall 0 (.submitLocal 0 8)), (2, .worker 0 false),
      (1, .jobDone 0), (4, .worker 0 false), (1, .jobDone 0), (6, .worker 0 false)])
    (fun s => (s.worker 0).mine.length) (v := 4) (by decide +kernel)
  have hbound := h 1 refilling tr s 0 hr
  rw [hv] at hbound
  revert hbound
  decide

end St3.Pool
