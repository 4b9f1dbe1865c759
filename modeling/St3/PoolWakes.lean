import St3.PoolLedger
import St3.PoolRuns
import St3.Sleepers
import Mathlib.Algebra.BigOperators.Group.Finset.Basic

/-!
The wakes of the pool: `claim_sleeper` and `wake_specific`, in the terms of sleepers and the
threads that claim them.
-/

namespace St3.Pool

open Sleepers (Event)

variable {n : ℕ} {J C L L' : Type*}

/-! ### What is seen of a wake -/

/-- `claim_sleeper` has cleared a bit, or has read the bitmap and found no candidate; or an
unpark is made. -/
def Notify.event (s : Shared n J) : Notify n → Option (Event (Fin n))
  | .load _ blocked _ hint =>
    if (candidate s.sleeping blocked).isNone then some (.gaveUp blocked hint) else none
  | .claim c _ blocked _ _ => if s.sleeping c then some (.claimed blocked c) else none
  | .unpark w _ _ _ => some (.unparked w)
  | .done => none

def Call.event (s : Shared n J) : Call n J → Option (Event (Fin n))
  | .notify p => p.event s
  | .wakeClaim w _ => if s.sleeping w then some (.called w) else none
  | .wakeUnpark w _ => some (.unparked w)
  | _ => none

/-- A worker announces its sleep in `prepare_to_park`, and takes its bit back when it finds
something there and when it goes on. -/
def Pc.event (w : Fin n) (s : Shared n J) : Pc n J → Option (Event (Fin n))
  | .nudge p _ => p.event s
  | .run call _ => call.event s
  | .stealCall _ call => call.event s
  | .announce => some (.announced w)
  | .cancel => some (.resumed w)
  | .woken => some (.resumed w)
  | .leave => some (.resumed w)
  | _ => none

def wakes (cmd : Cmd n J C) (s : St n J C) : Option (Event (Fin n)) :=
  match cmd with
  | .worker w _ => (s.worker w).pc.event w s.shared
  | .caller c _ => (s.caller c).event s.shared
  | _ => none

/-! ### Unparks under way, and candidates that may be claimed -/

def Notify.due : Notify n → Multiset (Fin n)
  | .unpark w _ _ _ => {w}
  | _ => 0

def Call.due : Call n J → Multiset (Fin n)
  | .notify p => p.due
  | .wakeUnpark w _ => {w}
  | _ => 0

def Pc.due : Pc n J → Multiset (Fin n)
  | .nudge p _ => p.due
  | .run call _ => call.due
  | .stealCall _ call => call.due
  | _ => 0

/-- The candidate is not the worker that is left out. -/
def Notify.Fair : Notify n → Prop
  | .claim c _ blocked _ _ => blocked ≠ some c
  | _ => True

def Call.Fair : Call n J → Prop
  | .notify p => p.Fair
  | _ => True

def Pc.Fair : Pc n J → Prop
  | .nudge p _ => p.Fair
  | .run call _ => call.Fair
  | .stealCall _ call => call.Fair
  | _ => True

/-! ### What one access shows -/

/-- The workers that are announced. -/
def Shared.announced (s : Shared n J) : Finset (Fin n) := {w | s.sleeping w}

/-- What a thread with the unparks `d` under way shows when it goes on with `d'`, whatever is
under way elsewhere. -/
def Told (e : Option (Event (Fin n))) (s s' : Shared n J) (d d' : Multiset (Fin n)) : Prop :=
  match e with
  | none => s'.announced = s.announced ∧ d' = d
  | some e => ∀ rest, Sleepers.Step ⟨s.announced, d + rest⟩ e ⟨s'.announced, d' + rest⟩

@[simp] lemma mem_announced {s : Shared n J} {w : Fin n} : w ∈ s.announced ↔ s.sleeping w := by
  simp [Shared.announced]

lemma announced_set (s : Shared n J) (w : Fin n) :
    (s.setSleeping w true).announced = insert w s.announced := by
  ext u
  by_cases hu : u = w <;> simp [Shared.setSleeping, hu]

lemma announced_clear (s : Shared n J) (w : Fin n) :
    (s.setSleeping w false).announced = s.announced.erase w := by
  ext u
  by_cases hu : u = w <;> simp [Shared.setSleeping, hu]

/-- An access that leaves the bits alone. -/
def Req.bitless : Req n J L → Bool
  | .setBit .. | .clearBit .. | .claim .. => false
  | _ => true

lemma serve_announced {r : Req n J L} (hr : r.bitless) {cap : ℕ} {spurious : Bool}
    {s s' : Shared n J} {l : L} (hs : serve cap spurious s r = some (l, s')) :
    s'.announced = s.announced := by
  cases r <;> simp only [serve] at hs
  case setBit | clearBit | claim => cases hr
  case popDeque | pushDeque | book | putQueue => split at hs <;> cases hs <;> rfl
  case park => split at hs <;> (try split at hs) <;> cases hs <;> rfl
  all_goals cases hs; rfl

/-- The claim of a bit. -/
lemma claim_announced (s : Shared n J) (c : Fin n) (note : Bool) :
    ((if note && s.sleeping c then s.setOwed c true else s).setSleeping c false).announced =
      s.announced.erase c := by
  rw [announced_clear]
  split <;> rfl

/-- A bit that is not set stays as it is when it is cleared. -/
lemma erase_announced {s : Shared n J} {c : Fin n} (hc : s.sleeping c = false) :
    s.announced.erase c = s.announced :=
  Finset.erase_eq_of_notMem (by simp [hc])

section
variable {s s' : Shared n J} {w : Fin n} {blocked : Option (Fin n)}

lemma told_gaveUp (h : candidate s.sleeping blocked = none) (hint : Option (Fin n)) :
    Told (some (.gaveUp blocked hint)) s s 0 ↑hint.toList := by
  intro rest
  have hgave := Sleepers.Step.gaveUp (s := ⟨s.announced, rest⟩) hint fun w hw =>
    candidate_none h (mem_announced.mp hw)
  simpa using hgave

lemma told_claimed (hw : s.sleeping w) (hb : blocked ≠ some w)
    (hs : s'.announced = s.announced.erase w) : Told (some (.claimed blocked w)) s s' 0 {w} := by
  intro rest
  have hclaim := Sleepers.Step.claimed (s := ⟨s.announced, rest⟩) (mem_announced.mpr hw) hb
  simpa [hs] using hclaim

lemma told_called (hw : s.sleeping w) (hs : s'.announced = s.announced.erase w) :
    Told (some (.called w)) s s' 0 {w} := by
  intro rest
  have hcall := Sleepers.Step.called (s := ⟨s.announced, rest⟩) (mem_announced.mpr hw)
  simpa [hs] using hcall

lemma told_unparked (hs : s'.announced = s.announced) : Told (some (.unparked w)) s s' {w} 0 := by
  intro rest
  have hunpark := Sleepers.Step.unparked (s := ⟨s.announced, {w} + rest⟩) (w := w) (by simp)
  simpa [hs] using hunpark

lemma told_announced : Told (some (.announced w)) s (s.setSleeping w true) 0 0 := by
  intro rest
  rw [announced_set]
  exact .announced w

lemma told_resumed : Told (some (.resumed w)) s (s.setSleeping w false) 0 0 := by
  intro rest
  rw [announced_clear]
  exact .resumed w

end

lemma Notify.told {p p' : Notify n} {r : Req n J (Notify n)} (h : p.next = some r) {cap : ℕ}
    {spurious : Bool} {s s' : Shared n J} (hs : serve cap spurious s r = some (p', s'))
    (hp : p.Fair) : Told (p.event s) s s' p.due p'.due ∧ p'.Fair := by
  cases p with
  | load note blocked left hint =>
    simp only [next, Option.some.injEq] at h
    subst h
    cases hs
    cases hc : candidate s.sleeping blocked with
    | some c =>
      simp only [event, hc, Option.isNone_some, Bool.false_eq_true, if_false]
      exact ⟨⟨rfl, rfl⟩, (candidate_some hc).2⟩
    | none =>
      simp only [event, hc, Option.isNone_none, if_true]
      cases hint <;> exact ⟨told_gaveUp hc _, trivial⟩
  | claim c note blocked left hint =>
    simp only [next, Option.some.injEq] at h
    subst h
    have hannounced := claim_announced s c note
    cases hc : s.sleeping c with
    | true =>
      simp only [serve, hc, if_true, Option.some.injEq, Prod.mk.injEq] at hs
      obtain ⟨rfl, rfl⟩ := hs
      simp only [event, hc, if_true]
      rw [hc] at hannounced
      exact ⟨told_claimed hc hp hannounced, trivial⟩
    | false =>
      simp only [serve, hc, Bool.false_eq_true, if_false, Option.some.injEq, Prod.mk.injEq] at hs
      obtain ⟨rfl, rfl⟩ := hs
      simp only [event, hc, Bool.false_eq_true, if_false]
      rw [hc, erase_announced hc] at hannounced
      exact ⟨⟨hannounced, rfl⟩, trivial⟩
  | unpark w note blocked left =>
    simp only [next, Option.some.injEq] at h
    subst h
    cases hs
    split <;> exact ⟨told_unparked rfl, trivial⟩
  | done => cases h

lemma Call.ofNotify_due (p : Notify n) : (Call.ofNotify p : Call n J).due = p.due := by
  cases p <;> rfl

lemma Call.ofNotify_fair {p : Notify n} (h : p.Fair) : (Call.ofNotify p : Call n J).Fair := by
  cases p <;> exact h

lemma Call.published_fair (w : Fin n) (b : Bool) :
    (Call.published w b : Call n J).due = 0 ∧ (Call.published w b : Call n J).Fair := by
  cases b <;> exact ⟨rfl, trivial⟩

attribute [local grind =] Req.All Req.bitless Worker.goto Worker.found Worker.again
attribute [local grind] Call.due Call.Fair Pc.due Pc.Fair Notify.due Notify.Fair

lemma Call.next_silent {cfg : Config n} {c : Call n J} {r : Req n J (Call n J)}
    (h : c.next cfg = some r) (hnotify : ∀ p, c ≠ .notify p) (hclaim : ∀ w b, c ≠ .wakeClaim w b)
    (hunpark : ∀ w b, c ≠ .wakeUnpark w b) :
    r.bitless ∧ c.due = 0 ∧ r.All fun c' => c'.due = 0 ∧ c'.Fair := by
  have hpublished := published_fair (n := n) (J := J)
  cases c
  case notify p => exact absurd rfl (hnotify p)
  case wakeClaim w b => exact absurd rfl (hclaim w b)
  case wakeUnpark w b => exact absurd rfl (hunpark w b)
  all_goals simp only [next, Option.some.injEq, reduceCtorEq] at h
  all_goals try subst h
  all_goals grind [wake, nudge, nudgeMany]

lemma Call.told {cfg : Config n} {c c' : Call n J} {r : Req n J (Call n J)}
    (h : c.next cfg = some r) {cap : ℕ} {spurious : Bool} {s s' : Shared n J}
    (hs : serve cap spurious s r = some (c', s')) (hc : c.Fair) :
    Told (c.event s) s s' c.due c'.due ∧ c'.Fair := by
  cases c
  case notify p =>
    simp only [next, Option.map_eq_some_iff] at h
    obtain ⟨r, hr, rfl⟩ := h
    rw [serve_map, Option.map_eq_some_iff] at hs
    obtain ⟨⟨p', sh⟩, hs, he⟩ := hs
    cases he
    obtain ⟨htold, hfair⟩ := Notify.told hr hs hc
    rw [Call.ofNotify_due]
    exact ⟨htold, Call.ofNotify_fair hfair⟩
  case wakeClaim w b =>
    simp only [next, Option.some.injEq] at h
    subst h
    have hannounced := claim_announced s w false
    cases hw : s.sleeping w with
    | true =>
      simp only [serve, hw, if_true, Option.some.injEq, Prod.mk.injEq] at hs
      obtain ⟨rfl, rfl⟩ := hs
      simp only [event, hw, if_true]
      rw [hw] at hannounced
      exact ⟨told_called hw hannounced, trivial⟩
    | false =>
      simp only [serve, hw, Bool.false_eq_true, if_false, Option.some.injEq, Prod.mk.injEq] at hs
      obtain ⟨rfl, rfl⟩ := hs
      simp only [event, hw, Bool.false_eq_true, if_false]
      rw [hw, erase_announced hw] at hannounced
      exact ⟨⟨hannounced, (published_fair w b).1⟩, (published_fair w b).2⟩
  case wakeUnpark w b =>
    simp only [next, Option.some.injEq] at h
    subst h
    cases hs
    rw [(published_fair w b).1]
    exact ⟨told_unparked rfl, (published_fair w b).2⟩
  all_goals
    obtain ⟨hbits, hdue, hall⟩ := next_silent h (by simp) (by simp) (by simp)
    obtain ⟨hdue', hfair⟩ := hall.serve hs
    exact ⟨⟨serve_announced hbits hs, hdue'.trans hdue.symm⟩, hfair⟩

/-! ### What one access of a worker shows -/

lemma Worker.resume_fair (t : Tuning) (l : Worker n J) (a : After J) :
    (l.resume t a).pc.due = 0 ∧ (l.resume t a).pc.Fair := by
  unfold resume goto
  cases a with
  | took boundary taken => cases boundary <;> (try (dsimp only; split)) <;> exact ⟨rfl, trivial⟩
  | stole prep got => cases prep <;> (try (dsimp only; split)) <;> exact ⟨rfl, trivial⟩
  | _ => exact ⟨rfl, trivial⟩

lemma Worker.popMine_fair (t : Tuning) (l : Worker n J) :
    (l.popMine t).pc.due = 0 ∧ (l.popMine t).pc.Fair := by
  unfold popMine goto
  split
  · dsimp only
    split <;> exact ⟨rfl, trivial⟩
  · split <;> exact ⟨rfl, trivial⟩

/-- The steps of a worker in which no bit and no unpark is involved. -/
def Pc.silent : Pc n J → Bool
  | .nudge .. | .run .. | .stealCall .. | .announce | .cancel | .woken | .leave => false
  | _ => true

lemma Worker.next_silent {cfg : Config n} {w : Fin n} {l : Worker n J}
    {r : Req n J (Worker n J)} (h : l.next cfg w = some r) (hpc : l.pc.silent) :
    r.bitless ∧ r.All fun l' => l'.pc.due = 0 ∧ l'.pc.Fair := by
  obtain ⟨mine, u, sp, rng, lr, e, pc⟩ := l
  cases pc
  case nudge | run | stealCall | announce | cancel | woken | leave => cases hpc
  all_goals simp only [next, Option.some.injEq, reduceCtorEq] at h
  all_goals try subst h
  all_goals grind [resume_fair, popMine_fair, nudge, nudgeMany]

lemma Notify.next_none {p : Notify n} (h : (p.next : Option (Req n J (Notify n))) = none)
    (s : Shared n J) : p.event s = none ∧ p.due = 0 := by
  cases p <;> first | exact ⟨rfl, rfl⟩ | cases h

lemma Call.next_none {cfg : Config n} {c : Call n J} (h : c.next cfg = none) (s : Shared n J) :
    c.event s = none ∧ c.due = 0 := by
  cases c with
  | notify p => exact Notify.next_none (by simpa [next] using h) s
  | idle => exact ⟨rfl, rfl⟩
  | _ => cases h

lemma Worker.told {cfg : Config n} {w : Fin n} {l l' : Worker n J} {r : Req n J (Worker n J)}
    (h : l.next cfg w = some r) {cap : ℕ} {spurious : Bool} {s s' : Shared n J}
    (hs : serve cap spurious s r = some (l', s')) (hl : l.pc.Fair) :
    Told (l.pc.event w s) s s' l.pc.due l'.pc.due ∧ l'.pc.Fair := by
  obtain ⟨mine, u, sp, rng, lr, e, pc⟩ := l
  cases pc
  case run c wakes =>
    simp only [next, Option.map_eq_some_iff] at h
    obtain ⟨r, hr, rfl⟩ := h
    rw [serve_map, Option.map_eq_some_iff] at hs
    obtain ⟨⟨c', sh⟩, hs, he⟩ := hs
    cases he
    exact Call.told hr hs hl
  case stealCall prep c =>
    simp only [next] at h
    split at h <;> cases h
    · cases hs
      obtain ⟨hevent, hdue⟩ := Call.next_none ‹_› s
      obtain ⟨hdue', hfair⟩ := resume_fair cfg.tuning
        (⟨mine, u, sp, rng, lr, e, .stealCall prep c⟩ : Worker n J) (.stole prep 1)
      simp only [Pc.event, hevent]
      exact ⟨⟨rfl, hdue'.trans hdue.symm⟩, hfair⟩
    · rw [serve_map, Option.map_eq_some_iff] at hs
      obtain ⟨⟨c', sh⟩, hs, he⟩ := hs
      cases he
      exact Call.told ‹_› hs hl
  case nudge p after =>
    simp only [next] at h
    split at h <;> cases h
    · cases hs
      obtain ⟨hevent, hdue⟩ := Notify.next_none ‹_› s
      obtain ⟨hdue', hfair⟩ := resume_fair cfg.tuning
        (⟨mine, u, sp, rng, lr, e, .nudge p after⟩ : Worker n J) after
      simp only [Pc.event, hevent]
      exact ⟨⟨rfl, hdue'.trans hdue.symm⟩, hfair⟩
    · rw [serve_map, Option.map_eq_some_iff] at hs
      obtain ⟨⟨p', sh⟩, hs, he⟩ := hs
      cases he
      exact Notify.told ‹_› hs hl
  case announce =>
    simp only [next, Option.some.injEq] at h
    subst h
    cases hs
    exact ⟨told_announced, trivial⟩
  case cancel | woken | leave =>
    simp only [next, Option.some.injEq] at h
    subst h
    cases hs
    exact ⟨told_resumed, trivial⟩
  all_goals
    obtain ⟨hbits, hall⟩ := next_silent h rfl
    obtain ⟨hdue, hfair⟩ := hall.serve hs
    exact ⟨⟨serve_announced hbits hs, hdue⟩, hfair⟩

/-! ### The pool as sleepers and claimers -/

/-- The unparks under way. -/
def St.due [Fintype C] (s : St n J C) : Multiset (Fin n) :=
  ∑ w, (s.worker w).pc.due + ∑ c, (s.caller c).due

/-- The sleepers of the pool, with the unparks under way. -/
structure Sleeping [Fintype C] (s : St n J C) (a : Sleepers.State (Fin n)) : Prop where
  state : a = ⟨s.shared.announced, s.due⟩
  worker : ∀ w, (s.worker w).pc.Fair
  caller : ∀ c, (s.caller c).Fair

section
variable [Fintype C] {s : St n J C} {sh : Shared n J} {e : Option (Event (Fin n))}

/-- What a thread shows is a step of the sleepers, whatever is under way elsewhere. -/
lemma Told.step {s s' : Shared n J} {d d' rest : Multiset (Fin n)} (h : Told e s s' d d') :
    (Sleepers.lts (Fin n)).step ⟨s.announced, d + rest⟩ e ⟨s'.announced, d' + rest⟩ := by
  cases e with
  | none =>
    obtain ⟨hs, hd⟩ := h
    exact Sleepers.State.ext hs (by rw [hd])
  | some e => exact h rest

lemma St.due_worker (s : St n J C) (w : Fin n) : s.due = (s.worker w).pc.due +
    (∑ u ∈ Finset.univ.erase w, (s.worker u).pc.due + ∑ c, (s.caller c).due) := by
  rw [St.due, ← Finset.add_sum_erase _ _ (Finset.mem_univ w), add_assoc]

lemma St.due_caller [DecidableEq C] (s : St n J C) (c : C) : s.due = (s.caller c).due +
    (∑ d ∈ Finset.univ.erase c, (s.caller d).due + ∑ w, (s.worker w).pc.due) := by
  rw [St.due, ← Finset.add_sum_erase _ _ (Finset.mem_univ c), add_comm, add_assoc]

lemma Sleeping.setWorker {a : Sleepers.State (Fin n)} (h : Sleeping s a) {w : Fin n}
    {l : Worker n J} (ht : Told e s.shared sh (s.worker w).pc.due l.pc.due) (hl : l.pc.Fair) :
    ∃ a', (Sleepers.lts (Fin n)).step a e a' ∧
      Sleeping ({ s with shared := sh }.setWorker w l) a' := by
  obtain ⟨rfl, hworker, hcaller⟩ := h
  refine ⟨_, ?_, rfl, fun u => ?_, hcaller⟩
  · rw [s.due_worker w, St.due_worker _ w]
    have hrest : ∑ u ∈ Finset.univ.erase w,
        (({ s with shared := sh }.setWorker w l).worker u).pc.due =
          ∑ u ∈ Finset.univ.erase w, (s.worker u).pc.due := by
      refine Finset.sum_congr rfl fun u hu => ?_
      simp [St.setWorker, Finset.ne_of_mem_erase hu]
    rw [hrest]
    simpa [St.setWorker] using ht.step
  · by_cases hu : u = w
    · subst hu
      simpa [St.setWorker] using hl
    · simpa [St.setWorker, hu] using hworker u

lemma Sleeping.setCaller [DecidableEq C] {a : Sleepers.State (Fin n)} (h : Sleeping s a) {c : C}
    {p : Call n J} (ht : Told e s.shared sh (s.caller c).due p.due) (hp : p.Fair) :
    ∃ a', (Sleepers.lts (Fin n)).step a e a' ∧
      Sleeping ({ s with shared := sh }.setCaller c p) a' := by
  obtain ⟨rfl, hworker, hcaller⟩ := h
  refine ⟨_, ?_, rfl, hworker, fun d => ?_⟩
  · rw [s.due_caller c, St.due_caller _ c]
    have hrest : ∑ d ∈ Finset.univ.erase c,
        (({ s with shared := sh }.setCaller c p).caller d).due =
          ∑ d ∈ Finset.univ.erase c, (s.caller d).due := by
      refine Finset.sum_congr rfl fun d hd => ?_
      simp [St.setCaller, Finset.ne_of_mem_erase hd]
    rw [hrest]
    simpa [St.setCaller] using ht.step
  · by_cases hd : d = c
    · subst hd
      simpa [St.setCaller] using hp
    · simpa [St.setCaller, hd] using hcaller d

end

lemma Call.start_fair (t : Tuning) (op : Op n J) :
    (Call.start t op).due = 0 ∧ (Call.start t op).Fair := by
  cases op with
  | submitLocal w j => by_cases ht : t.localWakes <;> simp [start, ht, due, Fair]
  | _ => exact ⟨rfl, trivial⟩

variable [DecidableEq J] [DecidableEq C] [Fintype C] {cfg : Config n}

/-- **The pool refines the sleepers**: what a step shows is a step of theirs. -/
lemma Sleeping.step {s s' : St n J C} {a : Sleepers.State (Fin n)} {cmd : Cmd n J C}
    (h : Sleeping s a) (hout : ∀ w, s.shared.queue w → (s.worker w).pc = .out)
    (hstep : Pool.step cfg cmd s = some s') :
    ∃ a', (Sleepers.lts (Fin n)).step a (wakes cmd s) a' ∧ Sleeping s' a' := by
  obtain ⟨-, ht⟩ := step_trans hstep
  cases ht with
  | @run w hq =>
    refine h.setWorker ⟨rfl, ?_⟩ trivial
    rw [hout w hq]
    rfl
  | refused => exact ⟨a, rfl, h⟩
  | worker hr hs =>
    obtain ⟨htold, hfair⟩ := Worker.told hr hs (h.worker _)
    exact h.setWorker htold hfair
  | @jobCall w op wakes hpc =>
    have hacc : Sleeping { s with accepted := s.accepted ++ op.job?.toList } a :=
      ⟨h.state, h.worker, h.caller⟩
    refine hacc.setWorker ⟨rfl, ?_⟩ (Call.start_fair cfg.tuning op).2
    simp only [hpc]
    exact (Call.start_fair cfg.tuning op).1
  | @jobDone w wakes hpc =>
    refine h.setWorker ⟨rfl, ?_⟩ trivial
    rw [hpc]
    rfl
  | @call c op hc =>
    have hacc : Sleeping { s with accepted := s.accepted ++ op.job?.toList } a :=
      ⟨h.state, h.worker, h.caller⟩
    refine hacc.setCaller ⟨rfl, ?_⟩ (Call.start_fair cfg.tuning op).2
    simp only [hc]
    exact (Call.start_fair cfg.tuning op).1
  | caller hr hs =>
    obtain ⟨htold, hfair⟩ := Call.told hr hs (h.caller _)
    exact h.setCaller htold hfair
  | drop => exact ⟨a, rfl, h.state, h.worker, h.caller⟩

end St3.Pool
