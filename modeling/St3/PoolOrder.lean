import St3.PoolLedger
import St3.PoolSlotless
import St3.Buffers

/-!
The order in which a pool without local wakes runs its jobs.

All jobs come through the injector. A worker takes up to `injector_batch` of them at once, and
only when it has nothing of its own; from there on they are in its private queue, in its deque,
or on their way into the deque of a thief that has nothing of its own either.
-/

namespace St3.Pool

variable {n : ℕ} {J C L L' : Type*}

/-! ### What is seen of a run -/

/-- A push to the injector, and the call of `Job::run`. -/
def Req.order : Req n J L → Option (Buffers.Event (Fin n) J)
  | .pushInjector j _ => some (.pushed j)
  | .handle w j _ => some (.started w j)
  | _ => none

lemma Req.order_map (f : L → L') (r : Req n J L) : (r.map f).order = r.order := by
  cases r <;> rfl

def order (cfg : Config n) : Cmd n J C → St n J C → Option (Buffers.Event (Fin n) J)
  | .worker w _, s => ((s.worker w).next cfg w).bind Req.order
  | .caller c _, s => ((s.caller c).next cfg).bind Req.order
  | _, _ => none

/-! ### Where a worker can be -/

def After.direct : After J → Bool
  | .took b _ => !b
  | .capped => false
  | _ => true

/-- Where a worker can be that never finds a job in a slot or an inbox, except where it calls
`Pool::push`, where it copies what it has booked, and where it takes from the injector. -/
def Pc.direct : Pc n J → Bool
  | .run .. | .transfer .. | .pullInjector .. => false
  | .capLook | .capTake _ | .capPush .. | .capLen _ | .stealPush .. | .stealCall .. => false
  | .pullLen b _ => !b
  | .nudge _ after | .share after | .sharePop _ _ after | .sharePush _ _ _ after => after.direct
  | _ => true

def Pc.central : Pc n J → Bool
  | .run .. | .transfer .. => true
  | .pullInjector b _ => !b
  | pc => pc.direct

/-- An access that moves no jobs, in such a pool. -/
def Req.still : Req n J L → Bool
  | .popInjector .. | .pushInjector .. | .pushDeque .. | .popDeque .. => false
  | .book .. | .transfer .. | .append .. | .handle .. => false
  | _ => true

/-- Where the next access is such an access. -/
def Pc.still : Pc n J → Bool
  | .begin _ | .run .. | .pullInjector .. | .sharePush .. | .popDeque => false
  | .stealBook .. | .transfer .. | .append .. => false
  | _ => true

/-- An access that fills no slot and no inbox, and goes on to `P` where all of them are empty. -/
def Req.Bare (P : L → Prop) : Req n J L → Prop
  | .takeSlot _ k | .popInbox _ k => P (k none)
  | .replaceSlot .. | .pushInbox .. => False
  | r => r.All P

lemma Req.Bare.map {P : L' → Prop} {f : L → L'} {r : Req n J L} (h : r.Bare fun l => P (f l)) :
    (r.map f).Bare P := by
  cases r <;> exact h

lemma Req.Bare.mono {P Q : L → Prop} {r : Req n J L} (h : r.Bare P) (hpq : ∀ l, P l → Q l) :
    r.Bare Q := by
  cases r
  case takeSlot | popInbox => exact hpq _ h
  case replaceSlot | pushInbox => exact h.elim
  all_goals
    simp only [Req.Bare] at h ⊢
    exact h.mono hpq

lemma Worker.resume_direct (t : Tuning) (l : Worker n J) {a : After J} (ha : a.direct) :
    (l.resume t a).pc.direct := by
  unfold resume goto
  cases a with
  | took boundary taken =>
    cases boundary with
    | true => cases ha
    | false => dsimp only; split <;> rfl
  | stole prep got => cases prep <;> (try (dsimp only; split)) <;> rfl
  | capped => cases ha
  | _ => rfl

lemma Worker.popMine_direct (t : Tuning) (l : Worker n J) : (l.popMine t).pc.direct := by
  unfold popMine goto
  split
  · dsimp only
    split <;> rfl
  · split <;> rfl

attribute [local grind =] Req.All Req.Bare Worker.goto Worker.found Worker.again
attribute [local grind] Pc.direct After.direct Req.still Pc.still

lemma Worker.next_direct {cfg : Config n} {w : Fin n} {l : Worker n J} {r : Req n J (Worker n J)}
    (h : l.next cfg w = some r) (hl : l.Slotless) (hi : l.Idle) (hd : l.pc.direct)
    (hs : l.pc.still) :
    r.still ∧ r.Bare fun l' => l'.pc.direct ∨ l'.pc = .pullInjector false 0 := by
  obtain ⟨mine, u, sp, rng, lr, e, pc⟩ := l
  obtain ⟨-, hlr, he⟩ := hl
  dsimp only at hlr he
  subst hlr he
  have hlimit := cfg.accepted.limit
  cases pc
  case nudge p after =>
    simp only [next] at h
    split at h <;> cases h
    · exact ⟨rfl, fun _ => .inl (resume_direct _ _ hd)⟩
    · rename_i r hr
      cases p <;> simp only [Notify.next, Option.some.injEq, reduceCtorEq] at hr <;> subst hr
      case load => exact ⟨rfl, fun _ => .inl hd⟩
      case claim => exact ⟨rfl, .inl hd, .inl hd⟩
      case unpark => exact ⟨rfl, .inl hd⟩
  case exit =>
    have hmine : mine = [] := hi.mine rfl
    subst hmine
    simp only [next, Option.some.injEq] at h
    subst h
    exact ⟨rfl, .inl rfl, .inl rfl⟩
  case stealCall => cases hd
  case run => cases hs
  all_goals simp only [next, Option.some.injEq, reduceCtorEq] at h
  all_goals try subst h
  case popMine => exact ⟨rfl, fun _ => .inl (popMine_direct _ _)⟩
  case boundary =>
    refine ⟨rfl, fun _ => .inl ?_⟩
    have hne : decide (0 = cfg.tuning.lifoRunLimit) = false := by simpa using hlimit.ne
    simp [hne, Pc.direct]
  case endSearching | readySlot | capped | denySearching => grind
  case begin | pullInjector | sharePush | popDeque | stealBook | transfer | append => cases hs
  case capLook | capTake | capPush | capLen | stealPush => cases hd
  all_goals
    refine ⟨rfl, ?_⟩
    simp only [Req.Bare, Req.All, goto]
    -- one goal for each answer and each way on from it
    repeat' first | intro _ | refine And.intro ?_ ?_ | split
    all_goals first
      | exact .inl rfl
      | exact .inr rfl
      | exact .inl hd
      | exact .inl (resume_direct _ _ hd)

lemma Req.Bare.serve {P : L → Prop} {r : Req n J L} (h : r.Bare P) {cap : ℕ} {spurious : Bool}
    {s s' : Shared n J} {l : L} (hslot : ∀ w, s.slot w = none) (hinbox : ∀ w, s.inbox w = [])
    (hs : Pool.serve cap spurious s r = some (l, s')) : P l ∧ ∀ w, s'.inbox w = [] := by
  cases r
  case takeSlot w k =>
    cases hs
    exact ⟨by rw [hslot]; exact h, hinbox⟩
  case popInbox w k =>
    cases hs
    refine ⟨by rw [hinbox]; exact h, fun u => ?_⟩
    by_cases hu : u = w
    · simp [Shared.setInbox, hu, hinbox]
    · simpa [Shared.setInbox, hu] using hinbox u
  case replaceSlot | pushInbox => exact h.elim
  all_goals
    simp only [Req.Bare] at h
    refine ⟨h.serve hs, fun u => ?_⟩
    simp only [Pool.serve] at hs
  case popDeque | pushDeque | book | putQueue => split at hs <;> cases hs <;> exact hinbox u
  case park => split at hs <;> (try split at hs) <;> cases hs <;> exact hinbox u
  case claim => cases hs; split <;> exact hinbox u
  all_goals cases hs; exact hinbox u

lemma Call.next_bare {cfg : Config n} {c : Call n J} {r : Req n J (Call n J)}
    (h : c.next cfg = some r) (hc : c.slotless) : r.Bare fun _ => True := by
  cases c with
  | notify p =>
    simp only [next, Option.map_eq_some_iff] at h
    obtain ⟨r, hr, rfl⟩ := h
    cases p <;> simp only [Notify.next, Option.some.injEq, reduceCtorEq] at hr <;> subst hr <;>
      simp [Req.map, Req.Bare, Req.All]
  | idle => cases h
  | push | stop | unparkAll =>
    simp only [next, Option.some.injEq] at h
    subst h
    trivial
  | _ => cases hc

/-- What a worker comes to. -/
structure Worker.Comes (t : Tuning) (l l' : Worker n J) : Prop where
  central : l'.pc.central
  pull : ∀ taken, l'.pc = .pullInjector false (taken + 1) → l.pc = .pullInjector false taken ∧
    l'.mine.length = l.mine.length + 1 ∧ taken + 1 < t.injectorBatch

lemma Pc.central_of_direct {pc : Pc n J} (h : pc.direct) : pc.central := by
  cases pc <;> first | exact h | cases h

/-- The next access of a worker leaves the slots and the inboxes alone. -/
lemma Worker.next_comes {cfg : Config n} {w : Fin n} {l : Worker n J} {r : Req n J (Worker n J)}
    (h : l.next cfg w = some r) (hl : l.Slotless) (hi : l.Idle) (hc : l.pc.central) :
    r.Bare (l.Comes cfg.tuning) := by
  have elsewhere : ∀ {l' : Worker n J}, l'.pc.direct → l.Comes cfg.tuning l' := fun hd =>
    ⟨Pc.central_of_direct hd, fun taken ht => by rw [ht] at hd; cases hd⟩
  cases hpc : l.pc
  case run c wakes =>
    simp only [next, hpc, Option.map_eq_some_iff] at h
    obtain ⟨r, hr, rfl⟩ := h
    have hslotless := hl.pc
    rw [hpc] at hslotless
    exact ((Call.next_bare hr hslotless).mono fun c _ => ⟨rfl, fun _ ht => by cases ht⟩).map
  case pullInjector b taken =>
    have hb : b = false := by simpa [hpc, Pc.central] using hc
    subst hb
    simp only [next, hpc, Option.some.injEq] at h
    subst h
    refine ⟨fun j => ?_, elsewhere rfl⟩
    dsimp only
    split_ifs with hlt
    · refine ⟨rfl, fun k hk => ?_⟩
      simp only [Pc.pullInjector.injEq, true_and] at hk
      obtain rfl : taken = k := by omega
      exact ⟨hpc, by simp, hlt⟩
    · exact elsewhere rfl
  case stealBook p free word oldHead count =>
    simp only [next, hpc, Option.some.injEq] at h
    subst h
    refine ⟨fun word => ?_, ⟨rfl, fun _ ht => by cases ht⟩⟩
    dsimp only [goto]
    split_ifs <;> exact elsewhere rfl
  case begin j =>
    simp only [next, hpc, Option.some.injEq] at h
    subst h
    exact ⟨rfl, fun _ ht => by cases ht⟩
  case sharePush j left shared after =>
    have ha : after.direct := by simpa [hpc, Pc.central, Pc.direct] using hc
    simp only [next, hpc, Option.some.injEq] at h
    subst h
    exact ⟨elsewhere ha, elsewhere ha⟩
  case popDeque =>
    simp only [next, hpc, Option.some.injEq] at h
    subst h
    refine ⟨fun j => elsewhere rfl, elsewhere ?_⟩
    dsimp only [goto]
    split_ifs <;> rfl
  case transfer prep v =>
    simp only [next, hpc, Option.some.injEq] at h
    subst h
    exact fun js => elsewhere rfl
  case append prep v js =>
    simp only [next, hpc, Option.some.injEq] at h
    subst h
    exact elsewhere rfl
  all_goals
    have hd : l.pc.direct := by rw [hpc] at hc ⊢; exact hc
    have hs : l.pc.still := by rw [hpc]; rfl
    refine (next_direct h hl hi hd hs).2.mono fun l' hl' => ?_
    rcases hl' with hd | hp
    · exact elsewhere hd
    · exact ⟨by rw [hp]; rfl, fun taken ht => by rw [hp] at ht; cases ht⟩

/-! ### Where the jobs are -/

/-- Outside of a call, no job is in a slot or an inbox, and a worker takes jobs from the injector
when it has none, one after the other. -/
structure Direct (cfg : Config n) (s : St n J C) : Prop where
  central : ∀ w, (s.worker w).pc.central
  inbox : ∀ w, s.shared.inbox w = []
  pull : ∀ w taken, (s.worker w).pc = .pullInjector false taken →
    (s.worker w).mine.length ≤ taken ∧ taken < cfg.tuning.injectorBatch ∧
      (s.shared.deque w).stored = []

section
variable {cfg : Config n} {s : St n J C} {w : Fin n} {l : Worker n J} {sh : Shared n J}

lemma Direct.setWorker (h : Direct cfg s) (hl : l.pc.central) (hs : ∀ w, sh.inbox w = [])
    (hd : ∀ u, u ≠ w → (s.shared.deque u).stored = [] → (sh.deque u).stored = [])
    (hp : ∀ taken, l.pc = .pullInjector false taken → l.mine.length ≤ taken ∧
      taken < cfg.tuning.injectorBatch ∧ (sh.deque w).stored = []) :
    Direct cfg ({ s with shared := sh }.setWorker w l) where
  central u := by
    by_cases hu : u = w
    · subst hu
      simpa [St.setWorker] using hl
    · simpa [St.setWorker, hu] using h.central u
  inbox := hs
  pull u := by
    by_cases hu : u = w
    · subst hu
      simpa [St.setWorker] using hp
    · intro taken ht
      obtain ⟨hlen, hlt, hnil⟩ := h.pull u taken (by simpa [St.setWorker, hu] using ht)
      exact ⟨by simpa [St.setWorker, hu] using hlen, hlt, hd u hu hnil⟩

end

variable [DecidableEq J] [DecidableEq C] [Fintype C] {cfg : Config n}

lemma direct (ht : cfg.tuning.localWakes = false) {ok : Cmd n J C → St n J C → Prop}
    {tr : List Empty} {s : St n J C} (h : (ltsWhen cfg ok).Reaches tr s) : Direct cfg s := by
  refine invariant (Direct cfg) ?_ ?_ h
  · exact ⟨fun _ => rfl, fun _ => rfl, fun _ _ h => by cases h⟩
  · intro _ cmd s s' hreach hs hok _ htrans
    have hslotless := slotless ht hreach
    have hidle := idle hreach
    cases htrans with
    | run hq => exact hs.setWorker rfl hs.inbox (fun _ _ h => h) fun _ h => by cases h
    | refused => exact hs
    | @worker w spurious r l sh hr hserve =>
      obtain ⟨hcomes, hinbox⟩ := (Worker.next_comes hr (hslotless.worker w) (hidle.idle w)
        (hs.central w)).serve hslotless.slot hs.inbox hserve
      have hidle' := hidle.worker hr hserve
      refine hs.setWorker hcomes.central hinbox (fun u hu hnil => serve_stored
        (fun hf => hu (Worker.next_feeds hr hf)) hserve hnil) fun taken hp => ?_
      cases taken with
      | zero =>
        have hmine := (hidle'.idle w).mine
        have hdry := hidle'.dry w
        simp only [St.setWorker, Function.update_self, hp] at hmine hdry
        exact ⟨by rw [hmine rfl]; exact le_rfl, cfg.accepted.batch, hdry rfl⟩
      | succ taken =>
        obtain ⟨hpc, hlen, hlt⟩ := hcomes.pull taken hp
        obtain ⟨hle, -, hnil⟩ := hs.pull w taken hpc
        refine ⟨by omega, hlt, ?_⟩
        simp only [Worker.next, hpc, Option.some.injEq] at hr
        subst hr
        exact serve_stored (by simp [Req.feeds]) hserve hnil
    | @jobCall w op =>
      have hacc : Direct cfg { s with accepted := s.accepted ++ op.job?.toList } :=
        ⟨hs.central, hs.inbox, hs.pull⟩
      exact hacc.setWorker rfl hs.inbox (fun _ _ h => h) fun _ h => by cases h
    | jobDone => exact hs.setWorker rfl hs.inbox (fun _ _ h => h) fun _ h => by cases h
    | call => exact ⟨hs.central, hs.inbox, hs.pull⟩
    | @caller c spurious r p sh hr hserve =>
      obtain ⟨-, hinbox⟩ := (Call.next_bare hr (hslotless.caller c)).serve hslotless.slot hs.inbox
        hserve
      refine ⟨hs.central, hinbox, fun w taken hp => ?_⟩
      obtain ⟨hlen, hlt, hnil⟩ := hs.pull w taken hp
      exact ⟨hlen, hlt, serve_stored (by simp [Call.next_feeds hr]) hserve hnil⟩
    | drop =>
      refine ⟨hs.central, fun _ => rfl, fun w taken hp => ?_⟩
      obtain ⟨hlen, hlt, -⟩ := hs.pull w taken hp
      exact ⟨hlen, hlt, rfl⟩

/-! ### What a worker holds -/

/-- The job that a worker is about to push back, or to run, besides its private queue. -/
def Pc.held : Pc n J → List J
  | .run .. => []
  | pc => pc.hands

/-- What a worker has booked and not copied yet. -/
def Pc.lent (s : Shared n J) : Pc n J → List J
  | .transfer _ v => (s.deque v).lent
  | _ => []

def Worker.held (l : Worker n J) : Multiset J := l.mine + l.pc.held

/-- What has left the injector for worker `w`, and was not started. -/
def St.held (s : St n J C) (w : Fin n) : Multiset J :=
  (s.worker w).held + (s.shared.deque w).stored + (s.worker w).pc.lent s.shared

def St.buffers (s : St n J C) : Buffers.State (Fin n) J :=
  ⟨s.shared.injector, s.held, s.shared.handled.map Prod.fst⟩

section
variable {s : St n J C} {w : Fin n} {l : Worker n J} {sh : Shared n J}

omit [DecidableEq J] [DecidableEq C] [Fintype C] in
/-- A step of worker `w` that changes what it holds to `js`. -/
lemma St.held_setWorker {js : Multiset J}
    (hw : l.held + (sh.deque w).stored + l.pc.lent sh = js)
    (hd : ∀ u, u ≠ w → (sh.deque u).stored = (s.shared.deque u).stored)
    (hl : ∀ u, u ≠ w → (s.worker u).pc.lent sh = (s.worker u).pc.lent s.shared) :
    ({ s with shared := sh }.setWorker w l).held = Function.update s.held w js := by
  funext u
  by_cases hu : u = w
  · subst hu
    simpa [held, setWorker] using hw
  · simp [held, setWorker, hu, hd u hu, hl u hu]

omit [DecidableEq J] [DecidableEq C] [Fintype C] in
lemma St.buffers_worker {js : Multiset J}
    (hw : l.held + (sh.deque w).stored + l.pc.lent sh = js)
    (hd : ∀ u, u ≠ w → (sh.deque u).stored = (s.shared.deque u).stored)
    (hl : ∀ u, u ≠ w → (s.worker u).pc.lent sh = (s.worker u).pc.lent s.shared) :
    ({ s with shared := sh }.setWorker w l).buffers =
      ⟨sh.injector, Function.update s.held w js, sh.handled.map Prod.fst⟩ := by
  simp only [buffers, held_setWorker hw hd hl]
  rfl

omit [DecidableEq J] [DecidableEq C] [Fintype C] in
/-- A step of worker `w` that moves jobs between places that are its own. -/
lemma St.buffers_setWorker (hi : sh.injector = s.shared.injector)
    (hh : sh.handled = s.shared.handled)
    (hw : l.held + (sh.deque w).stored + l.pc.lent sh = s.held w)
    (hd : ∀ u, u ≠ w → (sh.deque u).stored = (s.shared.deque u).stored)
    (hl : ∀ u, u ≠ w → (s.worker u).pc.lent sh = (s.worker u).pc.lent s.shared) :
    ({ s with shared := sh }.setWorker w l).buffers = s.buffers := by
  rw [buffers_worker hw hd hl, Function.update_eq_self, hi, hh]
  rfl

omit [DecidableEq J] [DecidableEq C] [Fintype C] in
lemma Pc.lent_congr {pc : Pc n J} (h : ∀ v, (sh.deque v).lent = (s.shared.deque v).lent) :
    pc.lent sh = pc.lent s.shared := by
  cases pc <;> first | exact h _ | rfl

end

/-- An access that moves no jobs leaves the containers alone. -/
structure Shared.Alike (s s' : Shared n J) : Prop where
  injector : s'.injector = s.injector
  handled : s'.handled = s.handled
  stored : ∀ v, (s'.deque v).stored = (s.deque v).stored
  lent : ∀ v, (s'.deque v).lent = (s.deque v).lent

omit [DecidableEq J] in
lemma serve_still {r : Req n J L} (hr : r.still) {cap : ℕ} {spurious : Bool} {s s' : Shared n J}
    {l : L} (hs : serve cap spurious s r = some (l, s')) : s.Alike s' := by
  cases r <;> simp only [serve] at hs
  case popInjector | pushInjector | pushDeque | popDeque | book | transfer | append | handle =>
    cases hr
  case release v k =>
    cases hs
    refine ⟨rfl, rfl, fun u => ?_, fun u => ?_⟩ <;> by_cases hu : u = v <;>
      simp [Shared.setDeque, hu]
  case putQueue => split at hs <;> cases hs <;> exact ⟨rfl, rfl, fun _ => rfl, fun _ => rfl⟩
  case park =>
    split at hs <;> (try split at hs) <;> cases hs <;>
      exact ⟨rfl, rfl, fun _ => rfl, fun _ => rfl⟩
  case claim => cases hs; split <;> exact ⟨rfl, rfl, fun _ => rfl, fun _ => rfl⟩
  all_goals cases hs; exact ⟨rfl, rfl, fun _ => rfl, fun _ => rfl⟩

omit [DecidableEq J] in
lemma Req.still_order {r : Req n J L} (hr : r.still) : r.order = none := by
  cases r <;> first | rfl | cases hr

/-- The thread has what it had, after an access that moves no jobs. -/
lemma Req.Moves.still {r : Req n J L} {j : J} {before : ℕ} {after : L → ℕ}
    (h : r.Moves j before after) (hr : r.still) {cap : ℕ} {spurious : Bool} {s s' : Shared n J}
    {l : L} (hslot : ∀ w, s.slot w = none) (hinbox : ∀ w, s.inbox w = [])
    (hbare : r.Bare fun _ => True) (hs : Pool.serve cap spurious s r = some (l, s')) :
    after l = before := by
  cases r <;> simp only [Pool.serve] at hs <;> simp only [Req.Moves] at h
  case popInjector | pushInjector | pushDeque | popDeque | book | transfer | append | handle =>
    cases hr
  case replaceSlot | pushInbox => exact hbare.elim
  case takeSlot w k =>
    cases hs
    rw [hslot]
    exact h.2
  case popInbox w k =>
    cases hs
    rw [hinbox]
    exact h.2
  case claim w note k =>
    cases hs
    cases s.sleeping w <;> [exact h.2; exact h.1]
  case putQueue => split at hs <;> cases hs <;> [exact h.2; exact h.1]
  case park => split at hs <;> (try split at hs) <;> cases hs <;> exact h
  case load | addSearching => cases hs; exact h _
  all_goals cases hs; exact h

/-! ### What each step does to the buffers -/

omit [DecidableEq J] in
lemma Pc.own_of_direct {pc : Pc n J} (h : pc.direct) (s : Shared n J) :
    pc.held = pc.hands ∧ pc.lent s = [] := by
  cases pc <;> first | exact ⟨rfl, rfl⟩ | cases h

lemma Worker.count_held {l : Worker n J} (h : l.pc.held = l.pc.hands) (j : J) :
    l.held.count j = l.count j := by
  simp [held, count, h]

section
variable {s : St n J C} {w : Fin n} {l : Worker n J} {sh : Shared n J}

omit [DecidableEq C] [Fintype C] in
/-- An access that moves no jobs leaves the buffers alone. -/
lemma Direct.still (h : Direct cfg s) (hslot : Slotless s) (hidle : Idle s) {spurious : Bool}
    {r : Req n J (Worker n J)} (hr : (s.worker w).next cfg w = some r)
    (hd : (s.worker w).pc.direct) (hstill : (s.worker w).pc.still)
    (hs : serve cfg.cap spurious s.shared r = some (l, sh)) :
    ({ s with shared := sh }.setWorker w l).buffers = s.buffers ∧ r.order = none := by
  obtain ⟨hrstill, hbare⟩ := Worker.next_direct hr (hslot.worker w) (hidle.idle w) hd hstill
  obtain ⟨hl, -⟩ := hbare.serve hslot.slot h.inbox hs
  have halike := serve_still hrstill hs
  have hcount : ∀ j, l.count j = (s.worker w).count j := fun j =>
    (Worker.next_moves hr j).still hrstill hslot.slot h.inbox (hbare.mono fun _ _ => trivial) hs
  obtain ⟨hnew, hlent⟩ : l.pc.held = l.pc.hands ∧ l.pc.lent sh = [] := by
    rcases hl with hl | hl
    · exact Pc.own_of_direct hl sh
    · rw [hl]
      exact ⟨rfl, rfl⟩
  obtain ⟨hold, hlent'⟩ := Pc.own_of_direct hd s.shared
  have hheld : l.held = (s.worker w).held := by
    ext j
    rw [Worker.count_held hnew, Worker.count_held hold, hcount]
  refine ⟨St.buffers_setWorker halike.injector halike.handled ?_ (fun u _ => halike.stored u)
    fun u _ => Pc.lent_congr halike.lent, Req.still_order hrstill⟩
  rw [St.held, hheld, halike.stored, hlent, hlent']

omit [DecidableEq J] in
/-- A call moves a job only where it pushes it to the injector. -/
lemma Call.next_order {c c' : Call n J} {r : Req n J (Call n J)} (h : c.next cfg = some r)
    (hc : c.slotless) {cap : ℕ} {spurious : Bool} {s s' : Shared n J}
    (hs : serve cap spurious s r = some (c', s')) :
    r.order = none ∧ s.Alike s' ∨
      ∃ hint j, c = .push hint j ∧ r.order = some (.pushed j) ∧
        s' = { s with injector := s.injector ++ [j] } := by
  cases c with
  | notify p =>
    simp only [next, Option.map_eq_some_iff] at h
    obtain ⟨r, hr, rfl⟩ := h
    have hstill : (r.map Call.ofNotify : Req n J (Call n J)).still := by
      cases p <;> simp only [Notify.next, Option.some.injEq, reduceCtorEq] at hr <;> subst hr <;>
        rfl
    exact .inl ⟨Req.still_order hstill, serve_still hstill hs⟩
  | push hint j =>
    simp only [next, Option.some.injEq] at h
    subst h
    cases hs
    exact .inr ⟨hint, j, rfl, rfl, rfl⟩
  | stop | unparkAll =>
    simp only [next, Option.some.injEq] at h
    subst h
    exact .inl ⟨rfl, serve_still rfl hs⟩
  | idle => cases h
  | _ => cases hc

omit [DecidableEq C] [Fintype C] in
/-- A job that a thread is about to push is nowhere else. -/
lemma St.fresh {j : J} (hsh : s.shared.count j = 0)
    (hworker : ∀ u, j ∉ (s.worker u).mine ∧ j ∉ (s.worker u).pc.held) :
    j ∉ s.buffers.queue ∧ (∀ u, j ∉ s.buffers.held u) ∧ j ∉ s.buffers.ran := by
  simp only [Shared.count, Nat.add_eq_zero_iff, Finset.sum_eq_zero_iff, Finset.mem_univ,
    forall_true_left, List.count_eq_zero] at hsh
  obtain ⟨⟨⟨⟨hinj, -⟩, -⟩, hdeque⟩, hran⟩ := hsh
  refine ⟨hinj, fun u hu => ?_, hran⟩
  simp only [buffers, held, Worker.held, Multiset.mem_add, Multiset.mem_coe] at hu
  rcases hu with ((hmine | hheld) | hstored) | hlent
  · exact (hworker u).1 hmine
  · exact (hworker u).2 hheld
  · exact (hdeque u).2 hstored
  · cases hpc : (s.worker u).pc <;> rw [hpc] at hlent <;>
      simp only [Pc.lent, List.not_mem_nil] at hlent
    exact (hdeque _).1 hlent

omit [DecidableEq J] in
lemma Pc.held_subset {pc : Pc n J} {j : J} (h : j ∈ pc.held) : j ∈ pc.hands := by
  cases pc <;> first | exact h | cases h

omit [DecidableEq C] in
lemma Ledger.fresh_worker (h : Ledger s) {hint : Option (Fin n)} {j : J} {k : ℕ}
    (hpc : (s.worker w).pc = .run (.push hint j) k) :
    j ∉ s.buffers.queue ∧ (∀ u, j ∉ s.buffers.held u) ∧ j ∉ s.buffers.ran := by
  have hone : s.count j ≤ 1 := (h.count j).trans_le (List.nodup_iff_count_le_one.mp h.nodup j)
  have hw : (s.worker w).count j = (s.worker w).mine.count j + 1 := by
    simp [Worker.count, hpc, Pc.hands, Call.hands]
  have hsum := Finset.add_sum_erase Finset.univ (fun u => (s.worker u).count j) (Finset.mem_univ w)
  simp only [St.count, ← hsum, hw] at hone
  refine St.fresh (by omega) fun u => ?_
  by_cases hu : u = w
  · subst hu
    exact ⟨List.count_eq_zero.mp (by omega), by simp [hpc, Pc.held]⟩
  · have hle : (s.worker u).count j ≤ ∑ v ∈ Finset.univ.erase w, (s.worker v).count j :=
      Finset.single_le_sum (f := fun v => (s.worker v).count j) (fun _ _ => Nat.zero_le _)
        (Finset.mem_erase.mpr ⟨hu, Finset.mem_univ u⟩)
    have hzero : (s.worker u).count j = 0 := by omega
    simp only [Worker.count, Nat.add_eq_zero_iff, List.count_eq_zero] at hzero
    exact ⟨hzero.1, fun hj => hzero.2 (Pc.held_subset hj)⟩

omit [DecidableEq C] in
lemma Ledger.fresh_caller (h : Ledger s) {c : C} {hint : Option (Fin n)} {j : J}
    (hc : s.caller c = .push hint j) :
    j ∉ s.buffers.queue ∧ (∀ u, j ∉ s.buffers.held u) ∧ j ∉ s.buffers.ran := by
  have hone : s.count j ≤ 1 := (h.count j).trans_le (List.nodup_iff_count_le_one.mp h.nodup j)
  have hle : (s.caller c).hands.count j ≤ ∑ d, (s.caller d).hands.count j :=
    Finset.single_le_sum (f := fun d => (s.caller d).hands.count j) (fun _ _ => Nat.zero_le _)
      (Finset.mem_univ c)
  have hhands : (s.caller c).hands.count j = 1 := by simp [hc, Call.hands]
  simp only [St.count] at hone
  have hzero : ∑ u, (s.worker u).count j = 0 := by omega
  refine St.fresh (by omega) fun u => ?_
  have hu := Finset.sum_eq_zero_iff.mp hzero u (Finset.mem_univ u)
  simp only [Worker.count, Nat.add_eq_zero_iff, List.count_eq_zero] at hu
  exact ⟨hu.1, fun hj => hu.2 (Pc.held_subset hj)⟩

end

/-! ### The pool as a queue with buffers -/

section
variable {s : St n J C} {w : Fin n} {l : Worker n J} {sh : Shared n J}

/-- What the buffers do in a step that shows `e`. -/
def Follows (cfg : Config n) (a : Buffers.State (Fin n) J) (e : Option (Buffers.Event (Fin n) J))
    (a' : Buffers.State (Fin n) J) : Prop :=
  e = none ∧ a' = a ∨ Buffers.Step cfg.tuning.injectorBatch a e a'

omit [DecidableEq J] [DecidableEq C] [Fintype C] in
lemma St.follows (js : Multiset J) {e : Option (Buffers.Event (Fin n) J)}
    (hw : l.held + (sh.deque w).stored + l.pc.lent sh = js)
    (hd : ∀ u, u ≠ w → (sh.deque u).stored = (s.shared.deque u).stored)
    (hl : ∀ u, u ≠ w → (s.worker u).pc.lent sh = (s.worker u).pc.lent s.shared)
    (h : Buffers.Step cfg.tuning.injectorBatch s.buffers e
      ⟨sh.injector, Function.update s.held w js, sh.handled.map Prod.fst⟩) :
    Follows cfg s.buffers e ({ s with shared := sh }.setWorker w l).buffers :=
  .inr (by rwa [buffers_worker hw hd hl])

omit [DecidableEq C] [Fintype C] [DecidableEq J] in
/-- A worker takes the oldest job of the injector. -/
lemma Direct.takes (h : Direct cfg s) {b : Bool} {taken : ℕ}
    (hpc : (s.worker w).pc = .pullInjector b taken) {spurious : Bool}
    {r : Req n J (Worker n J)} (hr : (s.worker w).next cfg w = some r)
    (hs : serve cfg.cap spurious s.shared r = some (l, sh)) :
    Follows cfg s.buffers r.order ({ s with shared := sh }.setWorker w l).buffers := by
  have hcentral := h.central w
  have hb : b = false := by simpa [hpc, Pc.central] using hcentral
  subst hb
  obtain ⟨hlen, hlt, hnil⟩ := h.pull w taken hpc
  have hheld : s.held w = (s.worker w).mine := by
    simp [St.held, Worker.held, hpc, Pc.held, Pc.hands, Pc.lent, hnil]
  simp only [Worker.next, hpc, Option.some.injEq] at hr
  subst hr
  cases hq : s.shared.injector with
  | nil =>
    simp only [serve, hq, List.head?_nil, Option.some.injEq, Prod.mk.injEq] at hs
    obtain ⟨rfl, rfl⟩ := hs
    refine .inl ⟨rfl, St.buffers_setWorker hq.symm rfl ?_ (fun _ _ => rfl) fun u _ =>
      Pc.lent_congr fun _ => rfl⟩
    rw [hheld]
    simp [Worker.goto, Worker.held, Pc.held, Pc.hands, Pc.lent, Shared.setOwed, hnil]
  | cons j rest =>
    simp only [serve, hq, List.head?_cons, Option.some.injEq, Prod.mk.injEq] at hs
    obtain ⟨rfl, rfl⟩ := hs
    refine St.follows (j ::ₘ s.held w) ?_ (fun _ _ => rfl) (fun u _ => Pc.lent_congr fun _ => rfl)
      (.take hq (by simpa [St.buffers, hheld] using hlen.trans_lt hlt))
    rw [hheld]
    split_ifs <;>
      simp [Worker.held, Pc.held, Pc.hands, Pc.lent, Shared.setOwed, hnil, ← Multiset.coe_add,
        add_comm, Multiset.singleton_add]

omit [DecidableEq C] [Fintype C] [DecidableEq J] in
/-- What everybody holds after worker `w`, which has nothing of its own, has booked `count` jobs
of deque `v`. -/
lemma Thieves.held_book {prep : Bool} {v : Fin n} {count : ℕ}
    (ht : Thieves cfg ({ s with shared := sh }.setWorker w ((s.worker w).goto (.transfer prep v))))
    (hmine : (s.worker w).mine = []) (hnil : (s.shared.deque w).stored = [])
    (hnew : sh.deque v = (s.shared.deque v).book count)
    (hold : ∀ u, u ≠ v → sh.deque u = s.shared.deque u) :
    ({ s with shared := sh }.setWorker w ((s.worker w).goto (.transfer prep v))).held =
      Function.update (Function.update s.held v ((s.worker v).held +
        (s.shared.deque v).stored.drop count + (s.worker v).pc.lent s.shared)) w
          ((s.shared.deque v).stored.take count) := by
  have hlent : ∀ u, u ≠ w → (s.worker u).pc.lent sh = (s.worker u).pc.lent s.shared := by
    intro u hu
    cases hpu : (s.worker u).pc with
    | transfer prep' x =>
      have hx : x ≠ v := fun hx => hu (ht.exclusive u w v
        (by simp [St.setWorker, hu, hpu, hx, Pc.robs])
        (by simp [St.setWorker, Worker.goto, Pc.robs]))
      simp [Pc.lent, hold x hx]
    | _ => rfl
  have hown : (sh.deque w).stored = [] := by
    by_cases hwv : w = v
    · subst hwv
      simp [hnew, Sharing.book, hnil]
    · rw [hold w hwv, hnil]
  funext u
  by_cases hu : u = w
  · subst hu
    simp [St.held, St.setWorker, Worker.goto, Worker.held, hmine, Pc.held, Pc.hands, Pc.lent,
      hown, hnew, Sharing.book]
  · rw [Function.update_of_ne hu]
    by_cases huv : u = v
    · subst huv
      simp [St.held, St.setWorker, hu, hlent u hu, hnew, Sharing.book]
    · simp [St.held, St.setWorker, hu, huv, hlent u hu, hold u huv]

omit [DecidableEq C] [Fintype C] [DecidableEq J] in
/-- A worker takes over booked jobs when it has none. -/
lemma Idle.books (hidle : Idle s) {p : Probe} {free : ℕ} {word : ℕ × ℕ} {oldHead count : ℕ}
    (hpc : (s.worker w).pc = .stealBook p free word oldHead count) {spurious : Bool}
    {r : Req n J (Worker n J)} (hr : (s.worker w).next cfg w = some r)
    (hs : serve cfg.cap spurious s.shared r = some (l, sh))
    (ht : Thieves cfg ({ s with shared := sh }.setWorker w l)) :
    Follows cfg s.buffers r.order ({ s with shared := sh }.setWorker w l).buffers := by
  have hmine := (hidle.idle w).mine
  have hnil := hidle.dry w
  rw [hpc] at hmine hnil
  replace hmine := hmine rfl
  replace hnil := hnil rfl
  have hempty : s.held w = 0 := by
    simp [St.held, Worker.held, hpc, Pc.held, Pc.hands, Pc.lent, hmine, hnil]
  simp only [Worker.next, hpc, Option.some.injEq] at hr
  subst hr
  simp only [serve] at hs
  generalize cfg.victim p = v at hs
  by_cases hcas : spurious = false ∧ (s.shared.deque v).word = word
  · rw [if_pos hcas] at hs
    cases hs
    have hnew : (s.shared.setDeque v ((s.shared.deque v).book count)).deque v =
        (s.shared.deque v).book count := by simp [Shared.setDeque]
    have hheld := ht.held_book hmine hnil hnew fun u hu => by simp [Shared.setDeque, hu]
    have hv : s.held v = (s.shared.deque v).stored.take count + ((s.worker v).held +
        (s.shared.deque v).stored.drop count + (s.worker v).pc.lent s.shared) := by
      have hsplit := congrArg (fun js : List J => (js : Multiset J))
        (List.take_append_drop count (s.shared.deque v).stored)
      rw [St.held, ← hsplit, ← Multiset.coe_add]
      ac_rfl
    refine .inr ?_
    unfold St.buffers
    rw [hheld]
    exact .steal (s := s.buffers) hempty hv
  · rw [if_neg hcas] at hs
    cases hs
    refine .inl ⟨rfl, St.buffers_setWorker rfl rfl ?_ (fun _ _ => rfl) fun _ _ => rfl⟩
    rw [hempty]
    dsimp only [Worker.goto]
    split_ifs <;> simp [Worker.held, Pc.held, Pc.hands, Pc.lent, hmine, hnil]

omit [DecidableEq J] [DecidableEq C] [Fintype C] in
/-- A worker moves jobs between its deque and its hands. -/
lemma St.buffers_setDeque {d : Sharing J} (hd : d.lent = (s.shared.deque w).lent)
    (hw : l.held + d.stored + l.pc.lent (s.shared.setDeque w d) = s.held w) :
    ({ s with shared := s.shared.setDeque w d }.setWorker w l).buffers = s.buffers := by
  refine buffers_setWorker rfl rfl ?_ (fun u hu => ?_) fun u _ => Pc.lent_congr fun v => ?_
  · simpa [Shared.setDeque] using hw
  · simp [Shared.setDeque, hu]
  · by_cases hv : v = w
    · subst hv
      simpa [Shared.setDeque] using hd
    · simp [Shared.setDeque, hv]

omit [DecidableEq C] [Fintype C] in
/-- A worker pops the newest job of its deque. -/
lemma St.pops (hpc : (s.worker w).pc = .popDeque) {spurious : Bool} {r : Req n J (Worker n J)}
    (hr : (s.worker w).next cfg w = some r)
    (hs : serve cfg.cap spurious s.shared r = some (l, sh)) :
    Follows cfg s.buffers r.order ({ s with shared := sh }.setWorker w l).buffers := by
  simp only [Worker.next, hpc, Option.some.injEq] at hr
  subst hr
  simp only [serve] at hs
  split at hs
  · rename_i j hj
    cases hs
    have hlast := List.dropLast_append_getLast? j (by simpa using hj)
    refine .inl ⟨rfl, buffers_setDeque rfl ?_⟩
    ext i
    have hcount := congrArg (List.count i) hlast
    simp only [List.count_append, List.count_cons, List.count_nil, beq_iff_eq] at hcount
    simp [St.held, Worker.found, Worker.held, hpc, Pc.held, Pc.hands, Pc.lent, Sharing.pop,
      List.count_cons, -Multiset.coe_singleton]
    omega
  · cases hs
    refine .inl ⟨rfl, buffers_setWorker rfl rfl ?_ (fun _ _ => rfl) fun _ _ => rfl⟩
    split_ifs <;> simp [St.held, Worker.goto, Worker.held, hpc, Pc.held, Pc.hands, Pc.lent]

omit [DecidableEq C] [Fintype C] in
/-- A worker copies what it has booked. -/
lemma Thieves.copies (ht : Thieves cfg s) {prep : Bool} {v : Fin n}
    (hpc : (s.worker w).pc = .transfer prep v) {spurious : Bool} {r : Req n J (Worker n J)}
    (hr : (s.worker w).next cfg w = some r)
    (hs : serve cfg.cap spurious s.shared r = some (l, sh)) :
    Follows cfg s.buffers r.order ({ s with shared := sh }.setWorker w l).buffers := by
  simp only [Worker.next, hpc, Option.some.injEq] at hr
  subst hr
  cases hs
  have hstored : ∀ u, ((s.shared.setDeque v { s.shared.deque v with lent := [] }).deque u).stored =
      (s.shared.deque u).stored := by
    intro u
    by_cases hu : u = v <;> simp [Shared.setDeque, hu]
  refine .inl ⟨rfl, St.buffers_setWorker rfl rfl ?_ (fun u _ => hstored u) fun u hu => ?_⟩
  · ext i
    simp [hstored, St.held, Worker.goto, Worker.held, hpc, Pc.held, Pc.hands, Pc.lent]
    omega
  · cases hpu : (s.worker u).pc with
    | transfer prep' x =>
      have hx : x ≠ v := fun hx => hu (ht.exclusive u w v (by simp [hpu, hx, Pc.robs])
        (by simp [hpc, Pc.robs]))
      simp [Pc.lent, Shared.setDeque, hx]
    | _ => rfl

omit [DecidableEq C] [Fintype C] in
/-- A worker shows what it has copied. -/
lemma St.appends {prep : Bool} {v : Fin n} {js : List J}
    (hpc : (s.worker w).pc = .append prep v js) {spurious : Bool} {r : Req n J (Worker n J)}
    (hr : (s.worker w).next cfg w = some r)
    (hs : serve cfg.cap spurious s.shared r = some (l, sh)) :
    Follows cfg s.buffers r.order ({ s with shared := sh }.setWorker w l).buffers := by
  simp only [Worker.next, hpc, Option.some.injEq] at hr
  subst hr
  cases hs
  refine .inl ⟨rfl, buffers_setDeque rfl ?_⟩
  ext i
  simp [St.held, Worker.goto, Worker.held, hpc, Pc.held, Pc.hands, Pc.lent]
  omega

omit [DecidableEq C] [Fintype C] in
/-- A worker shares a job, or takes it back where its deque is full. -/
lemma St.shares {j : J} {left shared : ℕ} {after : After J}
    (hpc : (s.worker w).pc = .sharePush j left shared after) {spurious : Bool}
    {r : Req n J (Worker n J)} (hr : (s.worker w).next cfg w = some r)
    (hs : serve cfg.cap spurious s.shared r = some (l, sh)) :
    Follows cfg s.buffers r.order ({ s with shared := sh }.setWorker w l).buffers := by
  simp only [Worker.next, hpc, Option.some.injEq] at hr
  subst hr
  simp only [serve] at hs
  by_cases hroom : 0 < (s.shared.deque w).spare cfg.cap
  · rw [if_pos hroom] at hs
    cases hs
    refine .inl ⟨rfl, buffers_setDeque rfl ?_⟩
    ext i
    simp [St.held, Worker.goto, Worker.held, hpc, Pc.held, Pc.hands, Pc.lent, Sharing.push,
      List.count_cons]
    omega
  · rw [if_neg hroom] at hs
    cases hs
    refine .inl ⟨rfl, buffers_setWorker rfl rfl ?_ (fun _ _ => rfl) fun _ _ => rfl⟩
    ext i
    simp [St.held, Worker.held, hpc, Pc.held, Pc.hands, Pc.lent, List.count_cons]
    omega

omit [DecidableEq J] [DecidableEq C] [Fintype C] in
/-- A worker starts a job. -/
lemma St.begins {j : J} (hpc : (s.worker w).pc = .begin j) {spurious : Bool}
    {r : Req n J (Worker n J)} (hr : (s.worker w).next cfg w = some r)
    (hs : serve cfg.cap spurious s.shared r = some (l, sh)) :
    Follows cfg s.buffers r.order ({ s with shared := sh }.setWorker w l).buffers := by
  simp only [Worker.next, hpc, Option.some.injEq] at hr
  subst hr
  cases hs
  have hheld : s.held w = j ::ₘ ((s.worker w).mine + (s.shared.deque w).stored) := by
    rw [← Multiset.singleton_add]
    simp only [St.held, Worker.held, hpc, Pc.held, Pc.hands, Pc.lent, Multiset.coe_singleton,
      Multiset.coe_nil, add_zero]
    ac_rfl
  have hstep : Buffers.Step cfg.tuning.injectorBatch s.buffers (some (.started w j)) _ :=
    .start hheld
  refine St.follows (↑(s.worker w).mine + ↑(s.shared.deque w).stored) ?_ (fun _ _ => rfl)
    (fun u _ => Pc.lent_congr fun _ => rfl) ?_
  · simp [Worker.goto, Worker.held, Pc.held, Pc.lent, Shared.setOwed]
  · simp only [List.map_append]
    exact hstep

omit [DecidableEq C] in
/-- A job makes a step of its call. -/
lemma Ledger.calls (h : Ledger s) {c : Call n J} {k : ℕ} (hpc : (s.worker w).pc = .run c k)
    (hslot : Slotless s) {spurious : Bool}
    {r : Req n J (Worker n J)} (hr : (s.worker w).next cfg w = some r)
    (hs : serve cfg.cap spurious s.shared r = some (l, sh)) :
    Follows cfg s.buffers r.order ({ s with shared := sh }.setWorker w l).buffers := by
  have hc := (hslot.worker w).pc
  rw [hpc] at hc
  have hheld : ∀ {c' : Call n J} {s' : Shared n J},
      (s'.deque w).stored = (s.shared.deque w).stored →
      ((s.worker w).goto (.run c' k)).held + (s'.deque w).stored +
        ((s.worker w).goto (.run c' k)).pc.lent s' = s.held w := by
    intro c' s' hstored
    simp [St.held, Worker.held, Worker.goto, hpc, Pc.held, Pc.lent, hstored]
  simp only [Worker.next, hpc, Option.map_eq_some_iff] at hr
  obtain ⟨r, hr, rfl⟩ := hr
  rw [serve_map, Option.map_eq_some_iff] at hs
  obtain ⟨⟨c', s'⟩, hs, he⟩ := hs
  cases he
  rw [Req.order_map]
  rcases Call.next_order hr hc hs with ⟨hnone, halike⟩ | ⟨hint, j, rfl, he, rfl⟩
  · exact .inl ⟨hnone, St.buffers_setWorker halike.injector halike.handled (hheld (halike.stored w))
      (fun u _ => halike.stored u) fun u _ => Pc.lent_congr halike.lent⟩
  · obtain ⟨hq, hh, hran⟩ := h.fresh_worker hpc
    rw [he]
    refine St.follows _ (hheld rfl) (fun _ _ => rfl) (fun u _ => Pc.lent_congr fun _ => rfl) ?_
    rw [Function.update_eq_self]
    exact .push hq hh hran

omit [DecidableEq J] [Fintype C] in
lemma St.buffers_setCaller {c : C} {p : Call n J}
    (hd : ∀ u, (sh.deque u).stored = (s.shared.deque u).stored)
    (hl : ∀ u, (sh.deque u).lent = (s.shared.deque u).lent) :
    ({ s with shared := sh }.setCaller c p).buffers =
      ⟨sh.injector, s.held, sh.handled.map Prod.fst⟩ := by
  have hheld : ({ s with shared := sh }.setCaller c p).held = s.held := by
    funext u
    simp [held, setCaller, hd, Pc.lent_congr hl]
  simp only [buffers, hheld]
  rfl

omit [DecidableEq C] in
/-- Every access of a worker. -/
lemma Direct.worker (h : Direct cfg s) (hslot : Slotless s) (hidle : Idle s) (ht : Thieves cfg s)
    (hledger : Ledger s) {spurious : Bool} {r : Req n J (Worker n J)}
    (hr : (s.worker w).next cfg w = some r)
    (hs : serve cfg.cap spurious s.shared r = some (l, sh)) :
    Follows cfg s.buffers r.order ({ s with shared := sh }.setWorker w l).buffers := by
  have hc := h.central w
  cases hpc : (s.worker w).pc
  case begin => exact St.begins hpc hr hs
  case run => exact hledger.calls hpc hslot hr hs
  case pullInjector => exact h.takes hpc hr hs
  case stealBook => exact hidle.books hpc hr hs (ht.worker hr hs)
  case popDeque => exact St.pops hpc hr hs
  case transfer => exact ht.copies hpc hr hs
  case append => exact St.appends hpc hr hs
  case sharePush => exact St.shares hpc hr hs
  all_goals
    have hd : (s.worker w).pc.direct := by rw [hpc] at hc ⊢; exact hc
    obtain ⟨hb, ho⟩ := h.still hslot hidle hr hd (by rw [hpc]; rfl) hs
    exact .inl ⟨ho, hb⟩

omit [DecidableEq J] [DecidableEq C] [Fintype C] in
/-- A worker comes to another point of its code with nothing in its hands. -/
lemma St.buffers_goes (hi : sh.injector = s.shared.injector) (hh : sh.handled = s.shared.handled)
    (hd : sh.deque = s.shared.deque) (hm : l.mine = (s.worker w).mine)
    (hl : l.pc.held = [] ∧ ∀ sh, l.pc.lent sh = [])
    (hl' : (s.worker w).pc.held = [] ∧ ∀ sh, (s.worker w).pc.lent sh = []) :
    ({ s with shared := sh }.setWorker w l).buffers = s.buffers := by
  refine buffers_setWorker hi hh ?_ (fun _ _ => by rw [hd]) fun _ _ =>
    Pc.lent_congr fun _ => by rw [hd]
  simp [held, Worker.held, hd, hm, hl, hl']

/-- **The pool refines the queue with buffers**: what a step shows is a step of theirs. -/
lemma Direct.step (h : Direct cfg s) (hslot : Slotless s) (hidle : Idle s) (ht : Thieves cfg s)
    (hledger : Ledger s) (hhome : Homes s) {cmd : Cmd n J C} {s' : St n J C}
    (hstep : Pool.step cfg cmd s = some s') (hdrop : s'.dropped = false) :
    Follows cfg s.buffers (order cfg cmd s) s'.buffers := by
  obtain ⟨-, htrans⟩ := step_trans hstep
  cases htrans with
  | @run u hq =>
    have hout := hhome u
    rw [if_pos hq] at hout
    obtain ⟨hpc, hmine⟩ := hout
    refine .inl ⟨rfl, St.buffers_goes rfl rfl rfl ?_ ⟨rfl, fun _ => rfl⟩ ?_⟩
    · rw [hmine]
      rfl
    · rw [hpc]
      exact ⟨rfl, fun _ => rfl⟩
  | refused => exact .inl ⟨rfl, rfl⟩
  | worker hr hs =>
    have hfollows := h.worker hslot hidle ht hledger hr hs
    simpa only [order, hr, Option.bind_some] using hfollows
  | @jobCall u op wakes hpc =>
    have hacc : ({ s with accepted := s.accepted ++ op.job?.toList } : St n J C).buffers =
        s.buffers := rfl
    refine .inl ⟨rfl, hacc ▸ St.buffers_goes
      (s := { s with accepted := s.accepted ++ op.job?.toList }) rfl rfl rfl rfl
      ⟨rfl, fun _ => rfl⟩ ?_⟩
    simp only [hpc]
    exact ⟨rfl, fun _ => rfl⟩
  | @jobDone u wakes hpc =>
    refine .inl ⟨rfl, St.buffers_goes rfl rfl rfl rfl ⟨rfl, fun _ => rfl⟩ ?_⟩
    rw [hpc]
    exact ⟨rfl, fun _ => rfl⟩
  | call => exact .inl ⟨rfl, rfl⟩
  | @caller c spurious r p sh hr hs =>
    simp only [order, hr, Option.bind_some]
    rcases Call.next_order hr (hslot.caller c) hs with ⟨hnone, halike⟩ | ⟨hint, j, hc, he, hsh⟩
    · refine .inl ⟨hnone, ?_⟩
      rw [St.buffers_setCaller halike.stored halike.lent, halike.injector, halike.handled]
      rfl
    · obtain ⟨hq, hh, hran⟩ := hledger.fresh_caller hc
      rw [he]
      refine .inr ?_
      rw [St.buffers_setCaller (fun _ => by rw [hsh]) fun _ => by rw [hsh], hsh]
      exact .push hq hh hran
  | drop => cases hdrop

end

lemma buffers_simulation (ht : cfg.tuning.localWakes = false) (ok : Cmd n J C → St n J C → Prop) :
    Lts.Simulation (ltsSeeing cfg (order cfg) ok) (Buffers.lts (Fin n) J cfg.tuning.injectorBatch)
      fun s a => (∃ tr, (ltsWhen cfg ok).Reaches tr s) ∧ (s.dropped = false → a = s.buffers) where
  init := by
    rintro s rfl
    refine ⟨.empty, rfl, ⟨[], .init rfl⟩, fun _ => ?_⟩
    simp only [St.buffers, Buffers.State.empty, init, Shared.init, List.map_nil,
      Buffers.State.mk.injEq, true_and, and_true]
    funext w
    rfl
  step := by
    rintro s a l s' ⟨⟨tr, hreach⟩, ha⟩ hstep
    obtain ⟨cmd, hok, hnext, rfl⟩ := seeing_step hstep
    have hreach' : (ltsWhen cfg ok).Reaches (tr ++ (none : Option Empty).toList) s' :=
      hreach.step ⟨cmd, hok, by simp [hnext]⟩
    obtain rfl := ha (step_trans hnext).1
    cases hdrop : s'.dropped with
    | true =>
      have hnone : order cfg cmd s = none := by
        obtain ⟨hd, htrans⟩ := step_trans hnext
        cases htrans with
        | drop => rfl
        | _ =>
          have hfalse : s.dropped = true := hdrop
          rw [hd] at hfalse
          cases hfalse
      rw [hnone]
      exact ⟨s.buffers, .refl _, ⟨_, hreach'⟩, fun h => by cases h⟩
    | false =>
      have hfollows := (direct ht hreach).step (slotless ht hreach) (idle hreach) (thieves hreach)
        (ledger hreach) (homes hreach) hnext hdrop
      refine ⟨s'.buffers, ?_, ⟨_, hreach'⟩, fun _ => rfl⟩
      rcases hfollows with ⟨hnone, hsame⟩ | hmove
      · rw [hnone, hsame]
        exact .refl _
      · exact .one hmove

/-- A pool of one worker that takes up to eight jobs at once. -/
def refills : Config 1 := .single 4 .throughput Tuning.presets_accepted.2.2.2

/-- **The jobs of a pool without local wakes.** The jobs that were pushed leave the injector in
this order. Those that have left it were started, or are held by a worker, once; and no worker
holds more than `injector_batch` of them. -/
theorem unstarted_bounded (ht : cfg.tuning.localWakes = false)
    {tr : List (Buffers.Event (Fin n) J)} {s : St n J C}
    (h : (ltsSeeing cfg (order cfg) fun _ _ => True).Reaches tr s) (hd : s.dropped = false) :
    (∃ taken, Buffers.pushes tr = taken ++ s.shared.injector ∧
      (taken : Multiset J) = Buffers.starts tr + ∑ w, s.held w) ∧
    (∀ w, (s.held w).card ≤ cfg.tuning.injectorBatch) ∧
    s.shared.handled.map Prod.fst = Buffers.starts tr := by
  obtain ⟨a, ha, -, hs⟩ := (buffers_simulation ht fun _ _ => True).reaches h
  obtain rfl := hs hd
  obtain ⟨hroom, hran, ⟨taken, hpushes, htaken⟩, -⟩ := Buffers.inv ha
  exact ⟨⟨taken, hpushes, by rw [htaken, hran]; rfl⟩, hroom, hran⟩

/-- A worker has taken three jobs and started the newest of them. -/
theorem unstarted_bounded_two : ∃ (tr : List (Buffers.Event (Fin 1) (Fin 3)))
    (s : St 1 (Fin 3) (Fin 1)), tr = [.pushed 0, .pushed 1, .pushed 2, .started 0 2] ∧
    s.held 0 = {0, 1} ∧ ∀ w, (s.held w).card ≤ 8 := by
  obtain ⟨tr, s, hr, hv⟩ := exists_seeing (J := Fin 3) (C := Fin 1) refills (order refills)
    (fun _ _ => True) [(1, .call 0 (.submit none 0)), (2, .caller 0 false),
      (1, .call 0 (.submit none 1)), (2, .caller 0 false), (1, .call 0 (.submit none 2)),
      (2, .caller 0 false), (1, .run 0), (28, .worker 0 false)]
    (fun q => (q.1, q.2.dropped, q.2.held 0))
    (v := ([.pushed 0, .pushed 1, .pushed 2, .started 0 2], false, {0, 1})) (by decide +kernel)
  simp only [Prod.mk.injEq] at hv
  exact ⟨tr, s, hv.1, hv.2.2, (unstarted_bounded rfl hr hv.2.1).2.1⟩

/-- **Bounded overtaking.** In a pool without local wakes, whenever a job is started it was pushed
before, and not started yet; and of the jobs that were pushed before it, fewer are still to be
started than there are workers, each with `injector_batch` jobs. -/
theorem shared_overtaking (ht : cfg.tuning.localWakes = false)
    {tr : List (Buffers.Event (Fin n) J)} {s : St n J C}
    (h : (ltsSeeing cfg (order cfg) fun _ _ => True).Reaches tr s) :
    (Buffers.pushes tr).Nodup ∧ ∀ past w j future, tr = past ++ .started w j :: future →
      ∃ before after, Buffers.pushes past = before ++ j :: after ∧ j ∉ Buffers.starts past ∧
        (before.filter (· ∉ Buffers.starts past)).length < n * cfg.tuning.injectorBatch := by
  obtain ⟨a, ha, -⟩ := (buffers_simulation ht fun _ _ => True).reaches h
  refine ⟨(Buffers.inv ha).nodup, fun past w j future htr => ?_⟩
  simpa using Buffers.overtaken_lt ha htr

/-- The worker runs the three jobs that it took at once, the newest one first. -/
theorem shared_overtaking_newest : ∃ (tr : List (Buffers.Event (Fin 1) (Fin 3)))
    (s : St 1 (Fin 3) (Fin 1)), tr = [.pushed 0, .pushed 1, .pushed 2, .started 0 2, .started 0 1,
      .started 0 0] ∧ (ltsSeeing refills (order refills) fun _ _ => True).Reaches tr s ∧
    ∀ past w j future, tr = past ++ .started w j :: future →
      ∃ before after, Buffers.pushes past = before ++ j :: after ∧ j ∉ Buffers.starts past ∧
        (before.filter (· ∉ Buffers.starts past)).length < 1 * 8 := by
  obtain ⟨tr, s, hr, hv⟩ := exists_seeing (J := Fin 3) (C := Fin 1) refills (order refills)
    (fun _ _ => True) [(1, .call 0 (.submit none 0)), (2, .caller 0 false),
      (1, .call 0 (.submit none 1)), (2, .caller 0 false), (1, .call 0 (.submit none 2)),
      (2, .caller 0 false), (1, .run 0), (28, .worker 0 false), (1, .jobDone 0),
      (8, .worker 0 false), (1, .jobDone 0), (10, .worker 0 false)]
    Prod.fst (v := [.pushed 0, .pushed 1, .pushed 2, .started 0 2, .started 0 1, .started 0 0])
    (by decide +kernel)
  exact ⟨tr, s, hv, hr, (shared_overtaking rfl hr).2⟩

end St3.Pool
