import St3.PoolLife

/-!
The end of a pool: `shut_down` leaves no worker asleep, and what a pool that nobody runs any more
has not run is in its injector, its slots and its inboxes.
-/

namespace St3.Pool

variable {n : ℕ} {J C L : Type*}

/-! ### `shut_down` -/

/-- `shut_down` is under way and has yet to unpark the worker. -/
def Call.rouses (c : Call n J) (w : Fin n) : Prop :=
  match c with
  | .unparkAll i => i ≤ w
  | _ => False

def Pc.rouses (pc : Pc n J) (w : Fin n) : Prop :=
  match pc with
  | .run c _ => c.rouses w
  | _ => False

/-- The pool goes on running, and no permit is taken. -/
def Req.steady : Req n J L → Bool
  | .stop _ | .park .. => false
  | _ => true

lemma Req.steady_map {L' : Type*} (f : L → L') (r : Req n J L) : (r.map f).steady = r.steady := by
  cases r <;> rfl

lemma serve_steady {r : Req n J L} (hr : r.steady) {cap : ℕ} {spurious : Bool}
    {s s' : Shared n J} {l : L} (hs : serve cap spurious s r = some (l, s')) :
    s'.running = s.running ∧ ∀ w, s.permit w → s'.permit w := by
  cases r <;> simp only [serve] at hs
  case stop | park => cases hr
  case popDeque | pushDeque | book | putQueue =>
    split at hs <;> cases hs <;> exact ⟨rfl, fun _ h => h⟩
  case claim => cases hs; split <;> exact ⟨rfl, fun _ h => h⟩
  case unpark u k =>
    cases hs
    refine ⟨rfl, fun w hw => ?_⟩
    by_cases hu : w = u <;> simp [Shared.setPermit, hu, hw]
  all_goals cases hs; exact ⟨rfl, fun _ h => h⟩

lemma Notify.next_steady {p : Notify n} {r : Req n J (Notify n)} (h : p.next = some r) :
    r.steady := by
  cases p <;> simp only [next, Option.some.injEq, reduceCtorEq] at h <;> subst h <;> rfl

lemma Call.next_steady {cfg : Config n} {c : Call n J} {r : Req n J (Call n J)}
    (h : c.next cfg = some r) (hc : c ≠ .stop) : r.steady := by
  cases c with
  | notify p =>
    simp only [next, Option.map_eq_some_iff] at h
    obtain ⟨r, hr, rfl⟩ := h
    rw [Req.steady_map, Notify.next_steady hr]
  | idle => cases h
  | stop => exact absurd rfl hc
  | _ =>
    simp only [next, Option.some.injEq] at h
    subst h
    rfl

lemma Worker.next_steady {cfg : Config n} {w : Fin n} {l : Worker n J} {r : Req n J (Worker n J)}
    (h : l.next cfg w = some r) (hpush : l.pc.pushes) (hrun : ∀ c k, l.pc ≠ .run c k)
    (hpark : l.pc ≠ .park) : r.steady := by
  obtain ⟨mine, u, sp, rng, lr, e, pc⟩ := l
  cases pc
  case run c k => exact absurd rfl (hrun c k)
  case park => exact absurd rfl hpark
  case nudge p after =>
    simp only [next] at h
    split at h <;> cases h
    · rfl
    · rw [Req.steady_map, Notify.next_steady ‹_›]
  case stealCall prep c =>
    simp only [next] at h
    split at h <;> cases h
    · rfl
    · have hne : c ≠ .stop := by
        rintro rfl
        cases hpush
      rw [Req.steady_map, Call.next_steady ‹_› hne]
  case exit => cases mine <;> simp only [next, Option.some.injEq] at h <;> subst h <;> rfl
  all_goals simp only [next, Option.some.injEq, reduceCtorEq] at h
  case endSearching | readySlot => split_ifs at h <;> cases h <;> rfl
  all_goals
    subst h
    rfl

/-- A worker parks when it has seen the pool running. -/
lemma Worker.parks {cfg : Config n} {w : Fin n} {l l' : Worker n J} {r : Req n J (Worker n J)}
    (h : l.next cfg w = some r) {cap : ℕ} {spurious : Bool} {s s' : Shared n J}
    (hs : serve cap spurious s r = some (l', s')) (hl : l'.pc = .park) : s.running = true := by
  have hdoor := (next_resting h).serve hs (by rw [hl]; rfl)
  obtain ⟨mine, u, sp, rng, lr, e, pc⟩ := l
  cases pc
  case checkRunning =>
    simp only [next, Option.some.injEq] at h
    subst h
    cases hs
    dsimp only at hl
    split_ifs at hl <;> cases hl
  case recheckRunning =>
    simp only [next, Option.some.injEq] at h
    subst h
    cases hs
    by_contra hrun
    simp [goto, hrun] at hl
  case leave =>
    simp only [next, Option.some.injEq] at h
    subst h
    cases hs
    cases hl
  case exit =>
    cases mine <;> simp only [next, Option.some.injEq] at h <;> subst h
    · simp only [serve] at hs
      split_ifs at hs <;> cases hs <;> cases hl
    · cases hs
      cases hl
  all_goals cases hdoor

/-- What one access of a call does about a worker that is to be unparked. -/
lemma Call.rouses_step {cfg : Config n} {c c' : Call n J} {r : Req n J (Call n J)}
    (h : c.next cfg = some r) {cap : ℕ} {spurious : Bool} {s s' : Shared n J}
    (hs : serve cap spurious s r = some (c', s')) :
    (s'.running = false → s.running = false ∨ ∀ w, c'.rouses w) ∧
      (∀ w, c.rouses w → c'.rouses w ∨ s'.permit w) ∧ ∀ w, s.permit w → s'.permit w := by
  by_cases hstop : c = .stop
  · subst hstop
    simp only [next, Option.some.injEq] at h
    subst h
    cases hs
    exact ⟨fun _ => .inr fun w => Fin.le_def.mpr (Nat.zero_le _), fun _ h => h.elim, fun _ h => h⟩
  · obtain ⟨hrun, hpermit⟩ := serve_steady (next_steady h hstop) hs
    refine ⟨fun hr => .inl (hrun ▸ hr), fun w hw => ?_, hpermit⟩
    cases c with
    | unparkAll i =>
      simp only [next, Option.some.injEq] at h
      subst h
      cases hs
      by_cases hi : i = w
      · subst hi
        exact .inr (by simp [Shared.setPermit])
      · have hlt : (i : ℕ) < w := lt_of_le_of_ne (Fin.le_def.mp hw) fun h => hi (Fin.ext h)
        rw [dif_pos (by omega)]
        exact .inl (Fin.le_def.mpr hlt)
    | _ => exact hw.elim

/-- A worker that parks has a permit, or is to be unparked, once the pool has stopped. -/
def Roused (s : St n J C) : Prop :=
  s.shared.running = false → ∀ w, (s.worker w).pc = .park →
    s.shared.permit w ∨ (∃ u, (s.worker u).pc.rouses w) ∨ ∃ c, (s.caller c).rouses w

section
variable {s : St n J C} {w : Fin n} {l : Worker n J} {sh : Shared n J}

/-- A step of a worker that makes no call. -/
lemma Roused.setWorker (h : Roused s) (hrun : sh.running = s.shared.running)
    (hpermit : ∀ u, u ≠ w → s.shared.permit u → sh.permit u)
    (hold : ∀ u, ¬ (s.worker w).pc.rouses u)
    (hl : l.pc = .park → sh.running = false → (s.worker w).pc = .park ∧
      (s.shared.permit w → sh.permit w)) :
    Roused ({ s with shared := sh }.setWorker w l) := by
  intro hr u hu
  have hcarry : ((∃ v, (s.worker v).pc.rouses u) ∨ ∃ c, (s.caller c).rouses u) →
      (∃ v, (({ s with shared := sh }.setWorker w l).worker v).pc.rouses u) ∨
        ∃ c, (s.caller c).rouses u := by
    rintro (⟨v, hv⟩ | hc)
    · have hvw : v ≠ w := fun he => hold u (he ▸ hv)
      exact .inl ⟨v, by simpa [St.setWorker, hvw] using hv⟩
    · exact .inr hc
  by_cases huw : u = w
  · subst huw
    obtain ⟨hpc, hp⟩ := hl (by simpa [St.setWorker] using hu) hr
    exact (h (hrun ▸ hr) u hpc).imp hp hcarry
  · have hpc : (s.worker u).pc = .park := by simpa [St.setWorker, huw] using hu
    exact (h (hrun ▸ hr) u hpc).imp (hpermit u huw) hcarry

lemma Pc.not_rouses {pc : Pc n J} (h : ∀ c k, pc ≠ .run c k) (u : Fin n) : ¬ pc.rouses u := by
  cases pc <;> first | exact fun h => h | exact absurd rfl (h _ _)

lemma Roused.worker {cfg : Config n} (h : Roused s) (hi : (s.worker w).Idle) {spurious : Bool}
    {r : Req n J (Worker n J)} (hr : (s.worker w).next cfg w = some r)
    (hs : serve cfg.cap spurious s.shared r = some (l, sh)) :
    Roused ({ s with shared := sh }.setWorker w l) := by
  by_cases hrun : ∃ c k, (s.worker w).pc = .run c k
  · -- the job of the worker is in a call
    obtain ⟨c, k, hpc⟩ := hrun
    simp only [Worker.next, hpc, Option.map_eq_some_iff] at hr
    obtain ⟨r, hr, rfl⟩ := hr
    rw [serve_map, Option.map_eq_some_iff] at hs
    obtain ⟨⟨c', sh⟩, hs, he⟩ := hs
    cases he
    obtain ⟨h1, h2, h3⟩ := Call.rouses_step hr hs
    intro hstop u hu
    have hne : u ≠ w := by
      rintro rfl
      simp [St.setWorker, Worker.goto] at hu
    rcases h1 hstop with hold | hall
    · rcases h hold u (by simpa [St.setWorker, hne] using hu) with hp | ⟨v, hv⟩ | hc
      · exact .inl (h3 u hp)
      · by_cases hvw : v = w
        · subst hvw
          rw [hpc] at hv
          rcases h2 u hv with hc' | hp
          · exact .inr (.inl ⟨v, by simpa [St.setWorker, Worker.goto, Pc.rouses] using hc'⟩)
          · exact .inl hp
        · exact .inr (.inl ⟨v, by simpa [St.setWorker, hvw] using hv⟩)
      · exact .inr (.inr hc)
    · exact .inr (.inl ⟨w, by simpa [St.setWorker, Worker.goto, Pc.rouses] using hall u⟩)
  · have hno : ∀ c k, (s.worker w).pc ≠ .run c k := fun c k hpc => hrun ⟨c, k, hpc⟩
    by_cases hpark : (s.worker w).pc = .park
    · simp only [Worker.next, hpark, Option.some.injEq] at hr
      subst hr
      simp only [serve] at hs
      have hleft : l.pc ≠ .park := by
        split_ifs at hs <;> cases hs <;> simp [Worker.goto]
      have hsame : sh.running = s.shared.running ∧
          ∀ u, u ≠ w → s.shared.permit u → sh.permit u := by
        split_ifs at hs <;> cases hs
        · exact ⟨rfl, fun _ _ h => h⟩
        · exact ⟨rfl, fun u hu h => by simpa [Shared.setPermit, hu] using h⟩
        · exact ⟨rfl, fun _ _ h => h⟩
      exact h.setWorker hsame.1 hsame.2 (Pc.not_rouses hno) fun hl => absurd hl hleft
    · obtain ⟨hrunning, hpermit⟩ := serve_steady (Worker.next_steady hr hi.pushes hno hpark) hs
      refine h.setWorker hrunning (fun u _ => hpermit u) (Pc.not_rouses hno) fun hl hstop => ?_
      have hseen := Worker.parks hr hs hl
      rw [hrunning, hseen] at hstop
      cases hstop

lemma Roused.caller [DecidableEq C] {cfg : Config n} (h : Roused s) {c : C} {p : Call n J}
    {spurious : Bool} {r : Req n J (Call n J)} (hr : (s.caller c).next cfg = some r)
    (hs : serve cfg.cap spurious s.shared r = some (p, sh)) :
    Roused ({ s with shared := sh }.setCaller c p) := by
  obtain ⟨h1, h2, h3⟩ := Call.rouses_step hr hs
  intro hstop u hu
  rcases h1 hstop with hold | hall
  · rcases h hold u hu with hp | hv | ⟨d, hd⟩
    · exact .inl (h3 u hp)
    · exact .inr (.inl hv)
    · by_cases hdc : d = c
      · subst hdc
        rcases h2 u hd with hp | hp
        · exact .inr (.inr ⟨d, by simpa [St.setCaller] using hp⟩)
        · exact .inl hp
      · exact .inr (.inr ⟨d, by simpa [St.setCaller, hdc] using hd⟩)
  · exact .inr (.inr ⟨c, by simpa [St.setCaller] using hall u⟩)

end

variable [DecidableEq J] [DecidableEq C] [Fintype C] {cfg : Config n}

lemma roused {ok : Cmd n J C → St n J C → Prop} {tr : List Empty} {s : St n J C}
    (h : (ltsWhen cfg ok).Reaches tr s) : Roused s := by
  refine invariant Roused ?_ ?_ h
  · intro hstop
    cases hstop
  · intro _ cmd s s' hreach hs _ _ ht
    cases ht with
    | @run w hq =>
      have hw := homes hreach w
      rw [if_pos hq] at hw
      refine hs.setWorker rfl (fun _ _ hp => hp) (fun u => ?_) fun hl => by cases hl
      rw [hw.1]
      exact fun h => h
    | refused => exact hs
    | worker hr hserve => exact hs.worker ((idle hreach).idle _) hr hserve
    | @jobCall w op wakes hpc =>
      have hacc : Roused { s with accepted := s.accepted ++ op.job?.toList } := hs
      refine hacc.setWorker rfl (fun _ _ hp => hp) (fun u => ?_) fun hl => by cases hl
      simp only [hpc]
      exact fun h => h
    | @jobDone w wakes hpc =>
      refine hs.setWorker rfl (fun _ _ hp => hp) (fun u => ?_) fun hl => by cases hl
      rw [hpc]
      exact fun h => h
    | @call c op hc =>
      intro hstop u hu
      refine (hs hstop u hu).imp id (Or.imp id ?_)
      rintro ⟨d, hd⟩
      have hdc : d ≠ c := by
        rintro rfl
        rw [hc] at hd
        exact hd
      exact ⟨d, by simpa [St.setCaller, hdc] using hd⟩
    | caller hr hserve => exact hs.caller hr hserve
    | drop hw hc => exact hs

/-- A thread, or a job that a worker runs, is in `shut_down`. -/
def St.stopping (s : St n J C) : Prop :=
  (∃ c i, s.caller c = .unparkAll i) ∨ ∃ w i k, (s.worker w).pc = .run (.unparkAll i) k

/-- **`shut_down` leaves no worker asleep.** In every run, with any number of threads and jobs
that shut the pool down: once the pool has stopped and no call of `shut_down` is under way, a
worker in `park` has a permit, and no worker comes to `park` any more. -/
theorem shut_down_wakes {tr : List Empty} {s : St n J C} (h : (lts cfg J C).Reaches tr s)
    (hstop : s.shared.running = false) (hcalls : ¬ s.stopping) :
    (∀ w, (s.worker w).pc = .park → s.shared.permit w = true) ∧
      ∀ cmd s', step cfg cmd s = some s' →
        ∀ w, (s'.worker w).pc = .park → (s.worker w).pc = .park := by
  refine ⟨fun w hw => ?_, fun cmd s' hstep w hw => ?_⟩
  · rcases roused h hstop w hw with hp | ⟨u, hu⟩ | ⟨c, hc⟩
    · exact hp
    · refine absurd (.inr ?_) hcalls
      cases hpc : (s.worker u).pc <;> rw [hpc] at hu <;> try exact hu.elim
      case run c k =>
        cases c with
        | unparkAll i => exact ⟨u, i, k, hpc⟩
        | _ => exact hu.elim
    · refine absurd (.inl ⟨c, ?_⟩) hcalls
      cases hpc : s.caller c with
      | unparkAll i => exact ⟨i, rfl⟩
      | _ => rw [hpc] at hc; exact hc.elim
  · obtain ⟨-, ht⟩ := step_trans hstep
    have hset : ∀ {t : St n J C} {u : Fin n} {l : Worker n J}, t.worker = s.worker →
        l.pc ≠ .park → ((t.setWorker u l).worker w).pc = .park → (s.worker w).pc = .park := by
      intro t u l he hl hpark
      by_cases hwu : w = u
      · subst hwu
        exact absurd (by simpa [St.setWorker] using hpark) hl
      · simpa [St.setWorker, hwu, he] using hpark
    cases ht with
    | run => exact hset rfl (by simp [Worker.start]) hw
    | refused => exact hw
    | worker hr hserve =>
      refine hset rfl (fun hl => ?_) hw
      rw [Worker.parks hr hserve hl] at hstop
      cases hstop
    | jobCall => exact hset rfl (by simp [Worker.goto]) hw
    | jobDone => exact hset rfl (by simp [Worker.goto]) hw
    | call => exact hw
    | caller => exact hw
    | drop => exact hw

/-- The worker was parked when the pool was shut down, and has its permit. -/
theorem shut_down_wakes_parked : ∃ s : St 2 (Fin 1) (Fin 1),
    (s.worker 0).pc = .park ∧ s.shared.running = false ∧
      ((∀ w, (s.worker w).pc = .park → s.shared.permit w = true) ∧
      ∀ cmd s', step twoWorkers cmd s = some s' →
        ∀ w, (s'.worker w).pc = .park → (s.worker w).pc = .park) := by
  obtain ⟨tr, s, hr, hv⟩ := exists_reaches (J := Fin 1) (C := Fin 1) twoWorkers
    (fun _ _ => True) [(1, .run 0), (37, .worker 0 false), (1, .call 0 .shutDown),
      (3, .caller 0 false)]
    (fun s => ((s.worker 0).pc, (s.worker 1).pc, s.caller 0, s.shared.running))
    (v := (.park, .out, .idle, false)) (by decide +kernel)
  simp only [Prod.mk.injEq] at hv
  obtain ⟨h0, h1, hc, hrun⟩ := hv
  refine ⟨s, h0, hrun, shut_down_wakes hr hrun ?_⟩
  rintro (⟨c, i, hci⟩ | ⟨w, i, k, hpc⟩)
  · rw [Subsingleton.elim c 0, hc] at hci
    cases hci
  · match w with
    | 0 => rw [h0] at hpc; cases hpc
    | 1 => rw [h1] at hpc; cases hpc

/-! ### What a stopped pool leaves -/

/-- Jobs are booked only while a worker has booked them. -/
def Robbed (s : St n J C) : Prop :=
  ∀ v, (s.shared.deque v).held ≠ 0 → ∃ w, (s.worker w).pc.robs = some v

omit [DecidableEq J] [DecidableEq C] [Fintype C] in
lemma Robbed.setWorker {s : St n J C} (h : Robbed s) {w : Fin n} {l : Worker n J}
    {sh : Shared n J} (hd : ∀ v, (sh.deque v).held ≠ 0 → l.pc.robs = some v ∨
      (s.shared.deque v).held ≠ 0 ∧ (s.worker w).pc.robs ≠ some v) :
    Robbed ({ s with shared := sh }.setWorker w l) := by
  intro v hv
  rcases hd v hv with hl | ⟨hold, hne⟩
  · exact ⟨w, by simpa [St.setWorker] using hl⟩
  · obtain ⟨u, hu⟩ := h v hold
    have huw : u ≠ w := by
      rintro rfl
      exact hne hu
    exact ⟨u, by simpa [St.setWorker, huw] using hu⟩

omit [DecidableEq J] [DecidableEq C] [Fintype C] in
lemma Robbed.worker {s : St n J C} (h : Robbed s) {w : Fin n} {l : Worker n J}
    {sh : Shared n J} {spurious : Bool} {r : Req n J (Worker n J)}
    (hr : (s.worker w).next cfg w = some r)
    (hs : serve cfg.cap spurious s.shared r = some (l, sh)) :
    Robbed ({ s with shared := sh }.setWorker w l) := by
  cases hpc : (s.worker w).pc
  case stealHead | stealCount =>
    simp only [Worker.next, hpc, Option.some.injEq] at hr
    subst hr
    cases hs
    exact h.setWorker fun v hv => .inr ⟨hv, by simp [hpc, Pc.robs]⟩
  case stealBook p free word oldHead count =>
    simp only [Worker.next, hpc, Option.some.injEq] at hr
    subst hr
    simp only [serve] at hs
    by_cases hcas : spurious = false ∧ (s.shared.deque (cfg.victim p)).word = word
    · rw [if_pos hcas] at hs
      cases hs
      refine h.setWorker fun v hv => ?_
      by_cases hvp : v = cfg.victim p
      · subst hvp
        exact .inl rfl
      · exact .inr ⟨by simpa [Shared.setDeque, hvp] using hv, by simp [hpc, Pc.robs]⟩
    · rw [if_neg hcas] at hs
      cases hs
      exact h.setWorker fun v hv => .inr ⟨hv, by simp [hpc, Pc.robs]⟩
  case transfer prep x =>
    simp only [Worker.next, hpc, Option.some.injEq] at hr
    subst hr
    cases hs
    refine h.setWorker fun v hv => ?_
    by_cases hvx : v = x
    · subst hvx
      exact .inl rfl
    · exact .inr ⟨by simpa [Shared.setDeque, hvx] using hv, by simp [hpc, Pc.robs, Ne.symm hvx]⟩
  case append prep x js =>
    simp only [Worker.next, hpc, Option.some.injEq] at hr
    subst hr
    have hsame := serve_quiet (r := .append w js _) trivial hs
    cases hs
    refine h.setWorker fun v hv => ?_
    by_cases hvx : v = x
    · subst hvx
      exact .inl rfl
    · exact .inr ⟨by rwa [(hsame v).held] at hv, by simp [hpc, Pc.robs, Ne.symm hvx]⟩
  case release prep x got =>
    simp only [Worker.next, hpc, Option.some.injEq] at hr
    subst hr
    cases hs
    refine h.setWorker fun v hv => .inr ?_
    by_cases hvx : v = x
    · subst hvx
      simp [Shared.setDeque] at hv
    · exact ⟨by simpa [Shared.setDeque, hvx] using hv, by simp [hpc, Pc.robs, Ne.symm hvx]⟩
  all_goals
    obtain ⟨hquiet, -⟩ := Worker.next_plain hr (by rw [hpc]; rfl) (by simp [hpc])
    refine h.setWorker fun v hv => .inr ⟨?_, by rw [hpc]; simp [Pc.robs]⟩
    rwa [(serve_quiet hquiet hs v).held] at hv

lemma robbed {ok : Cmd n J C → St n J C → Prop} {tr : List Empty} {s : St n J C}
    (h : (ltsWhen cfg ok).Reaches tr s) : Robbed s := by
  refine invariant Robbed ?_ ?_ h
  · exact fun v hv => absurd rfl hv
  · intro _ cmd s s' hreach hs _ _ ht
    cases ht with
    | @run w hq =>
      have hw := homes hreach w
      rw [if_pos hq] at hw
      exact hs.setWorker fun v hv => .inr ⟨hv, by simp [hw.1, Pc.robs]⟩
    | refused => exact hs
    | worker hr hserve => exact hs.worker hr hserve
    | @jobCall w op wakes hpc hj =>
      have hacc : Robbed { s with accepted := s.accepted ++ op.job?.toList } := hs
      exact hacc.setWorker fun v hv => .inr ⟨hv, by simp [hpc, Pc.robs]⟩
    | @jobDone w wakes hpc =>
      exact hs.setWorker fun v hv => .inr ⟨hv, by simp [hpc, Pc.robs]⟩
    | call => exact hs
    | caller hr hserve =>
      intro v hv
      refine hs v ?_
      rwa [← (serve_quiet (Call.next_quiet hr) hserve v).held]
    | drop => exact hs

/-- **What a pool that nobody runs has not run** is in its injector, its slots and its inboxes:
in every run, whenever all threads have left `Pool::run` and no call is under way, every job that
was accepted is in exactly one of these places, or was handled once, and the deques and private
queues that the workers have left behind are empty. -/
theorem stopped_leaves {tr : List Empty} {s : St n J C} (h : (lts cfg J C).Reaches tr s)
    (hw : ∀ w, (s.worker w).pc = .out) (hc : ∀ c, s.caller c = .idle) :
    (∀ j ∈ s.accepted, s.shared.injector.count j + ∑ w, (s.shared.slot w).toList.count j +
      ∑ w, (s.shared.inbox w).count j + (s.shared.handled.map Prod.fst).count j = 1) ∧
    ∀ w, (s.worker w).mine = [] ∧ (s.shared.deque w).stored = [] ∧
      (s.shared.deque w).lent = [] := by
  have hempty : ∀ w, (s.worker w).mine = [] ∧ (s.shared.deque w).stored = [] ∧
      (s.shared.deque w).lent = [] := by
    intro w
    have hhome := homes h w
    refine ⟨?_, (lives h).resting w (by rw [hw]; rfl), ((thieves h).deque w).lent ?_⟩
    · split_ifs at hhome
      · exact hhome.2
      · simp [hw, Pc.gone] at hhome
    · by_contra hheld
      obtain ⟨u, hu⟩ := robbed h w hheld
      rw [hw u] at hu
      cases hu
  refine ⟨fun j hj => ?_, hempty⟩
  have hledger := ledger h
  have hone : s.count j = 1 := by rw [hledger.count, List.count_eq_one_of_mem hledger.nodup hj]
  rw [(homes h).count_eq (fun w => by rw [hw]; rfl) fun c => by rw [hc]; rfl, Shared.count] at hone
  simpa [hempty] using hone

/-- One job was run, and the one in the slot came too late. -/
theorem stopped_leaves_slot : ∃ s : St 1 (Fin 2) (Fin 1),
    s.shared.handled = [(0, .run)] ∧ s.shared.slot 0 = some 1 ∧
      (∀ j ∈ s.accepted, s.shared.injector.count j + ∑ w, (s.shared.slot w).toList.count j +
        ∑ w, (s.shared.inbox w).count j + (s.shared.handled.map Prod.fst).count j = 1) := by
  obtain ⟨tr, s, hr, hv⟩ := exists_reaches (J := Fin 2) (C := Fin 1)
    (⟨1, .locality, 64, by decide, by decide, by decide⟩ : Config 1) (fun _ _ => True)
    [(1, .call 0 (.submit none 0)), (2, .caller 0 false), (1, .call 0 .shutDown),
      (2, .caller 0 false), (1, .run 0), (20, .worker 0 false), (1, .jobDone 0),
      (16, .worker 0 false), (1, .call 0 (.submitLocal 0 1)), (2, .caller 0 false)]
    (fun s => ((s.worker 0).pc, s.caller 0, s.shared.handled, s.shared.slot 0))
    (v := (.out, .idle, [(0, .run)], some 1)) (by decide)
  simp only [Prod.mk.injEq] at hv
  obtain ⟨hpc, hc, hh, hslot⟩ := hv
  refine ⟨s, hh, hslot, (stopped_leaves hr (fun w => ?_) fun c => ?_).1⟩
  · rw [Subsingleton.elim w 0, hpc]
  · rw [Subsingleton.elim c 0, hc]

end St3.Pool
