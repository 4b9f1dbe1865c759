import St3.Access
import St3.Lts
import Mathlib.Tactic.SplitIfs

/-!
The pool: its workers and its callers, each at a point of its code.

A worker is what `Pool::run` keeps on its stack; a caller is a thread in one of the methods
that submit work or shut the pool down, and so is a job while it calls one of them. `next`
gives the next access of a thread as the code has it; whatever stands between two accesses
is done with the first of them.
-/

namespace St3.Pool

variable {n : ℕ} {J C : Type*}

/-! ### Waking -/

/-- A thread in `wake` or `nudge_many`. `left` sleepers are still to be claimed, none of them
`blocked`; `hint` is unparked when nobody sleeps; `note` says whether the wake is about the
injector. -/
inductive Notify (n : ℕ)
  | load (note : Bool) (blocked : Option (Fin n)) (left : ℕ) (hint : Option (Fin n))
  | claim (c : Fin n) (note : Bool) (blocked : Option (Fin n)) (left : ℕ) (hint : Option (Fin n))
  | unpark (w : Fin n) (note : Bool) (blocked : Option (Fin n)) (left : ℕ)
  | done
  deriving DecidableEq

def wake (hint : Option (Fin n)) : Notify n := .load true none 1 hint

def nudgeMany (note : Bool) (except : Option (Fin n)) (wanted : ℕ) : Notify n :=
  .load note except wanted none

def nudge (except : Option (Fin n)) : Notify n := nudgeMany false except 1

/-- The lowest bit of `sleeping & !blocked`. -/
def candidate (sleeping : Fin n → Bool) (blocked : Option (Fin n)) : Option (Fin n) :=
  (List.finRange n).find? fun i => sleeping i && decide (blocked ≠ some i)

lemma candidate_some {sleeping : Fin n → Bool} {blocked : Option (Fin n)} {c : Fin n}
    (h : candidate sleeping blocked = some c) : sleeping c ∧ blocked ≠ some c := by
  have hc := List.find?_some h
  simpa only [Bool.and_eq_true, decide_eq_true_eq] using hc

lemma candidate_none {sleeping : Fin n → Bool} {blocked : Option (Fin n)}
    (h : candidate sleeping blocked = none) {w : Fin n} (hw : sleeping w) : blocked = some w := by
  have hc := List.find?_eq_none.mp h w (List.mem_finRange w)
  by_contra hb
  simp [hw, hb] at hc

def Notify.next : Notify n → Option (Req n J (Notify n))
  | .load note blocked left hint =>
    some (.load fun s =>
      match candidate s.sleeping blocked with
      | some c => .claim c note blocked left hint
      | none =>
        match hint with
        | some w => .unpark w note blocked 0
        | none => .done)
  | .claim c note blocked left hint =>
    some (.claim c note fun was =>
      if was then .unpark c note blocked (left - 1) else .load note blocked left hint)
  | .unpark w note blocked left =>
    some (.unpark w (if left = 0 then .done else .load note blocked left none))
  | .done => none

/-! ### Calls -/

/-- `submit`, with the worker it names, `submit_fn` and `submit_job`; `submit_local`;
`shut_down`. -/
inductive Op (n : ℕ) (J : Type*)
  | submit (hint : Option (Fin n)) (j : J)
  | submitLocal (w : Fin n) (j : J)
  | shutDown
  deriving DecidableEq

def Op.job? : Op n J → Option J
  | .submit _ j => some j
  | .submitLocal _ j => some j
  | .shutDown => none

/-- The count of calls of `submit_local`. -/
def Op.wakes : Op n J → ℕ
  | .submitLocal .. => 1
  | _ => 0

/-- A thread in one of these calls. -/
inductive Call (n : ℕ) (J : Type*)
  | idle
  | push (hint : Option (Fin n)) (j : J)
  | notify (p : Notify n)
  | replace (w : Fin n) (j : J)
  | inboxEmpty (w : Fin n) (displaced : J)
  | overflow (w : Fin n) (displaced : J)
  | displace (w : Fin n) (displaced : J)
  | wakeLoad (w : Fin n) (published : Bool)
  | wakeClaim (w : Fin n) (published : Bool)
  | wakeUnpark (w : Fin n) (published : Bool)
  | stop
  | unparkAll (i : Fin n)
  deriving DecidableEq

def Call.start (t : Tuning) : Op n J → Call n J
  | .submit hint j => .push hint j
  | .submitLocal w j => if t.localWakes then .replace w j else .push none j
  | .shutDown => .stop

/-- A call that ends with a wake. -/
def Call.ofNotify : Notify n → Call n J
  | .done => .idle
  | p => .notify p

/-- The end of `submit_local`, after `wake_specific`. -/
def Call.published (w : Fin n) (published : Bool) : Call n J :=
  if published then .notify (nudge (some w)) else .idle

def Call.next (cfg : Config n) : Call n J → Option (Req n J (Call n J))
  | .idle => none
  | .push hint j => some (.pushInjector j (.notify (wake hint)))
  | .notify p => p.next.map (Req.map .ofNotify)
  | .replace w j =>
    some (.replaceSlot w j fun
      | none => .wakeLoad w false
      | some d =>
        if cfg.tuning.stealableInbox = false ∧ cfg.tuning.shareDisplaced then .inboxEmpty w d
        else .displace w d)
  | .inboxEmpty w d =>
    some (.load fun s => if (s.inbox w).isEmpty then .displace w d else .overflow w d)
  | .overflow w d => some (.pushInjector d (.wakeLoad w false))
  | .displace w d => some (.pushInbox w d (.wakeLoad w cfg.tuning.stealableInbox))
  -- `wake_specific`
  | .wakeLoad w p => some (.load fun s => if s.sleeping w then .wakeClaim w p else .published w p)
  | .wakeClaim w p =>
    some (.claim w false fun was => if was then .wakeUnpark w p else .published w p)
  | .wakeUnpark w p => some (.unpark w (.published w p))
  -- `shut_down`
  | .stop => some (.stop (.unparkAll ⟨0, cfg.pos⟩))
  | .unparkAll i => some (.unpark i (if h : i + 1 < n then .unparkAll ⟨i + 1, h⟩ else .idle))

/-! ### Workers -/

/-- What a worker goes on with after `share`, after `nudge_many`, or after `steal_once` with
`got` jobs, which `prep` says was called by `prepare_to_park`. -/
inductive After (J : Type*)
  | begin (j : J)
  | refilled
  | took (boundary : Bool) (taken : ℕ)
  | capped
  | stole (prep : Bool) (got : ℕ)
  deriving DecidableEq

/-- Where the sweep of `steal_once` is. -/
structure Probe where
  prep : Bool
  start : ℕ
  offset : ℕ
  deriving DecidableEq

def Probe.succ (p : Probe) : Probe := { p with offset := p.offset + 1 }

def Config.victim (cfg : Config n) (p : Probe) : Fin n :=
  ⟨(p.start + p.offset) % n, Nat.mod_lt _ cfg.pos⟩

inductive Pc (n : ℕ) (J : Type*)
  | out
  | panicked
  | top
  | takeSlot
  | begin (j : J)
  /-- In `job.run()`, which has called `submit_local` `wakes` times. -/
  | run (call : Call n J) (wakes : ℕ)
  | complete
  | boundary
  | capLook
  | capTake (other : Bool)
  | capPush (j : J) (other : Bool)
  | capLen (other : Bool)
  | capped
  | pullInjector (boundary : Bool) (taken : ℕ)
  | pullLen (boundary : Bool) (taken : ℕ)
  | nudge (p : Notify n) (after : After J)
  | reset
  | popMine
  | promote (j : J)
  | share (after : After J)
  | sharePop (left shared : ℕ) (after : After J)
  | sharePush (j : J) (left shared : ℕ) (after : After J)
  | popInbox
  | moveInbox (moved : ℕ)
  | popDeque
  | search
  | denySearching
  | steal (prep : Bool)
  | stealNext (p : Probe)
  | stealInbox (p : Probe)
  | stealPush (prep : Bool) (j : J)
  | stealCall (prep : Bool) (call : Call n J)
  | stealSpare (p : Probe)
  | stealWord (p : Probe) (free : ℕ)
  | stealHead (p : Probe) (free : ℕ) (word : ℕ × ℕ)
  | stealCount (p : Probe) (free : ℕ) (word : ℕ × ℕ) (oldHead : ℕ)
  | stealBook (p : Probe) (free : ℕ) (word : ℕ × ℕ) (oldHead count : ℕ)
  | transfer (prep : Bool) (v : Fin n)
  | append (prep : Bool) (v : Fin n) (js : List J)
  | release (prep : Bool) (v : Fin n) (got : ℕ)
  | endSearching (got : ℕ)
  | readySlot
  | checkRunning
  | announce
  | checkInjector
  | checkInbox
  | checkSlot
  | cancel
  | recheckRunning
  | park
  | woken
  | leave
  | exit
  deriving DecidableEq

/-- What a thread in `Pool::run` has on its stack. -/
structure Worker (n : ℕ) (J : Type*) where
  mine : List J
  untilPromote : ℕ
  spins : ℕ
  rng : BitVec 64
  lifoRun : ℕ
  slotBudgetExhausted : Bool
  pc : Pc n J
  deriving DecidableEq

/-- The most that one steal moves, before halving. -/
abbrev pullBatch : ℕ := 32

/-- The `count_fn` of `steal_once`. -/
def stealCountFn (items : ℕ) : ℕ := (min items pullBatch + 1) / 2

def xorshift (rng : BitVec 64) : BitVec 64 :=
  let rng := rng ^^^ (rng <<< 13)
  let rng := rng ^^^ (rng >>> 7)
  rng ^^^ (rng <<< 17)

namespace Worker

def init : Worker n J := ⟨[], 0, 0, 0, 0, false, .out⟩

/-- The head of `Pool::run`, with the deque in hand. -/
def start (t : Tuning) (w : Fin n) : Worker n J where
  mine := []
  untilPromote := t.promoteEvery
  spins := 0
  rng := 0x2545F4914F6CDD1D ^^^ (BitVec.ofNat 64 w * 0x9E3779B97F4A7C15)
  lifoRun := 0
  slotBudgetExhausted := false
  pc := .top

def goto (l : Worker n J) (pc : Pc n J) : Worker n J := { l with pc := pc }

/-- A round that found work starts the next one. -/
def again (l : Worker n J) : Worker n J := { l with spins := 0, pc := .top }

/-- A job was found, and is run. -/
def found (l : Worker n J) (j : J) : Worker n J := { l with spins := 0, pc := .begin j }

def resume (t : Tuning) (l : Worker n J) : After J → Worker n J
  | .begin j => l.goto (.begin j)
  | .refilled => { l with untilPromote := t.promoteEvery, pc := .top }
  | .took true _ => l.goto .reset
  | .took false taken =>
    if 0 < taken then { l with spins := 0, pc := .share .refilled } else l.goto .readySlot
  | .capped => l.goto .capped
  | .stole true got => l.goto (if 0 < got then .cancel else .recheckRunning)
  | .stole false got => l.goto (.endSearching got)

/-- `mine.pop_back()`, and the countdown to the heartbeat. -/
def popMine (t : Tuning) (l : Worker n J) : Worker n J :=
  match l.mine.getLast? with
  | some j =>
    let l := { l with mine := l.mine.dropLast, spins := 0 }
    if l.untilPromote - 1 = 0 then
      { l with untilPromote := t.promoteEvery, pc := .promote j }
    else { l with untilPromote := l.untilPromote - 1, pc := .begin j }
  | none => l.goto (if t.stealableInbox then .popInbox else .moveInbox 0)

/-- The next access of worker `w`. -/
def next (cfg : Config n) (w : Fin n) (l : Worker n J) : Option (Req n J (Worker n J)) :=
  let t := cfg.tuning
  let go (pc : Shared n J → Pc n J) := some (Req.load fun s => l.goto (pc s))
  match l.pc with
  | .out => none
  | .panicked => none
  -- the slot
  | .top => go fun _ => if l.lifoRun < t.lifoRunLimit then .takeSlot else .boundary
  | .takeSlot =>
    some (.takeSlot w fun
      | some j => { l with lifoRun := l.lifoRun + 1, spins := 0, pc := .begin j }
      | none => l.goto .boundary)
  | .begin j => some (.handle w j (l.goto (.run .idle 0)))
  | .run call wakes => (call.next cfg).map (Req.map fun c => l.goto (.run c wakes))
  | .complete => some (.complete w (l.goto .top))
  -- the fairness boundary, and `publish_capped_slot`
  | .boundary =>
    let e := decide (l.lifoRun = t.lifoRunLimit)
    some (.load fun _ => { l with
      slotBudgetExhausted := e
      pc := if e && t.stealableInbox then if l.mine.isEmpty then .capLook else .capTake true
        else .capped })
  | .capLook => go fun s => .capTake (!(s.deque w).stored.isEmpty)
  | .capTake other =>
    some (.takeSlot w fun
      | some j => l.goto (.capPush j other)
      | none => l.goto .capped)
  | .capPush j other => some (.pushInbox w j (l.goto (.capLen other)))
  | .capLen other =>
    go fun s => if other || decide (1 < (s.inbox w).length) then .nudge (nudge (some w)) .capped
      else .capped
  | .capped =>
    go fun _ => if l.slotBudgetExhausted && t.shareDisplaced then .pullInjector true 0 else .reset
  -- `take_from_injector`
  | .pullInjector b taken =>
    some (.popInjector w fun
      | some j => { l with
          mine := l.mine ++ [j]
          pc := if taken + 1 < t.injectorBatch then .pullInjector b (taken + 1)
            else .pullLen b (taken + 1) }
      | none => l.goto (.pullLen b taken))
  | .pullLen b taken =>
    some (.load fun s =>
      if 0 < s.injector.length then
        l.goto (.nudge (nudgeMany true none (min s.injector.length n)) (.took b taken))
      else l.resume t (.took b taken))
  | .nudge p after =>
    match p.next with
    | none => some (.load fun _ => l.resume t after)
    | some r => some (r.map fun p => l.goto (.nudge p after))
  -- `mine`
  | .reset => some (.load fun _ => { l with lifoRun := 0, pc := .popMine })
  | .popMine => some (.load fun _ => l.popMine t)
  | .promote j =>
    go fun s => if (candidate s.sleeping none).isNone then .begin j else .share (.begin j)
  | .share after =>
    some (.load fun _ => if l.mine.length < 2 then l.resume t after
      else l.goto (.sharePop (l.mine.length / 2) 0 after))
  | .sharePop left shared after =>
    some (.load fun _ =>
      match left, l.mine with
      | _ + 1, j :: rest => { l with mine := rest, pc := .sharePush j left shared after }
      | _, _ =>
        if 0 < shared then l.goto (.nudge (nudgeMany false (some w) shared) after)
        else l.resume t after)
  | .sharePush j left shared after =>
    some (.pushDeque w j fun ok =>
      if ok then l.goto (.sharePop (left - 1) (shared + 1) after)
      else { l with mine := j :: l.mine, pc := .sharePop 0 shared after })
  -- the inbox
  | .popInbox =>
    some (.popInbox w fun
      | some j => l.found j
      | none => l.goto .popDeque)
  | .moveInbox moved =>
    some (.popInbox w fun
      | some j =>
        let l := { l with mine := l.mine ++ [j] }
        if t.promoteEvery % 2 ^ cfg.bits ≤ moved + 1 then l.again
        else l.goto (.moveInbox (moved + 1))
      | none => if 0 < moved then l.again else l.goto .popDeque)
  | .popDeque =>
    some (.popDeque w fun
      | some j => l.found j
      | none => l.goto (if n < 2 then .steal false else .search))
  -- `searching`
  | .search => some (.addSearching fun old =>
      l.goto (if n ≤ old * 2 then .denySearching else .steal false))
  | .denySearching => some (.subSearching (l.goto (.pullInjector false 0)))
  -- `steal_once`
  | .steal prep =>
    some (.load fun _ =>
      if n < 2 then l.resume t (.stole prep 0)
      else
        let rng := xorshift l.rng
        { l with rng := rng, pc := .stealNext ⟨prep, rng.toNat % n, 0⟩ })
  | .stealNext p =>
    some (.load fun _ =>
      if p.offset < n then
        l.goto (if cfg.victim p = w then .stealNext p.succ
          else if t.stealableInbox then .stealInbox p else .stealSpare p)
      else l.resume t (.stole p.prep 0))
  | .stealInbox p =>
    some (.popInbox (cfg.victim p) fun
      | some j => l.goto (.stealPush p.prep j)
      | none => l.goto (.stealSpare p))
  | .stealPush prep j =>
    some (.pushDeque w j fun ok =>
      if ok then l.resume t (.stole prep 1) else l.goto (.stealCall prep (.push (some w) j)))
  | .stealCall prep call =>
    match call.next cfg with
    | none => some (.load fun _ => l.resume t (.stole prep 1))
    | some r => some (r.map fun c => l.goto (.stealCall prep c))
  | .stealSpare p => go fun s => .stealWord p ((s.deque w).spare cfg.cap)
  -- `book_items` of the victim
  | .stealWord p free => go fun s => .stealHead p free (s.deque (cfg.victim p)).word
  | .stealHead p free word =>
    go fun s =>
      let head := (s.deque (cfg.victim p)).head
      if head ≠ word.2 then .stealNext p.succ else .stealCount p free word head
  | .stealCount p free word oldHead =>
    go fun s =>
      let items := (s.deque (cfg.victim p)).pushCount - word.1 - word.2
      let count := min (min (stealCountFn items) free) items
      if count = 0 then .stealNext p.succ else .stealBook p free word oldHead count
  | .stealBook p free word oldHead count =>
    some (.book (cfg.victim p) word count fun
      | none => l.goto (.transfer p.prep (cfg.victim p))
      | some word =>
        l.goto (if oldHead ≠ word.2 then .stealNext p.succ else .stealCount p free word oldHead))
  | .transfer prep v => some (.transfer v fun js => l.goto (.append prep v js))
  | .append prep v js => some (.append w js (l.goto (.release prep v js.length)))
  | .release prep v got =>
    some (.release v (if 1 < got then l.goto (.nudge (nudge (some w)) (.stole prep got))
      else l.resume t (.stole prep got)))
  | .endSearching got =>
    let l' := if 0 < got then l.again else l.goto (.pullInjector false 0)
    if n < 2 then some (.load fun _ => l') else some (.subSearching l')
  -- the slot again, and the end of the round
  | .readySlot =>
    if l.slotBudgetExhausted then
      some (.takeSlot w fun
        | some j => { l with lifoRun := 1, spins := 0, pc := .begin j }
        | none => l.goto .checkRunning)
    else go fun _ => .checkRunning
  | .checkRunning =>
    some (.load fun s =>
      if s.running = false then l.goto .exit
      else if l.spins < t.roundsBeforePark then { l with spins := l.spins + 1, pc := .top }
      else l.goto .announce)
  -- `prepare_to_park`
  | .announce => some (.setBit w (l.goto .checkInjector))
  | .checkInjector => go fun s => if s.injector.isEmpty then .checkInbox else .cancel
  | .checkInbox => go fun s => if (s.inbox w).isEmpty then .checkSlot else .cancel
  | .checkSlot => go fun s => if (s.slot w).isSome then .cancel else .steal true
  | .cancel => some (.clearBit w (l.goto .top))
  | .recheckRunning => go fun s => if s.running then .park else .leave
  | .park => some (.park w (l.goto .woken))
  | .woken => some (.clearBit w { l with spins := 0, pc := .top })
  -- the way out
  | .leave => some (.clearBit w (l.goto .exit))
  | .exit =>
    match l.mine with
    | j :: rest => some (.pushInjector j { l with mine := rest })
    | [] => some (.putQueue w fun ok => l.goto (if ok then .out else .panicked))

end Worker

/-! ### The system -/

structure St (n : ℕ) (J C : Type*) where
  shared : Shared n J
  worker : Fin n → Worker n J
  caller : C → Call n J
  /-- Every job that was ever handed to the pool. -/
  accepted : List J
  /-- The pool was dropped. -/
  dropped : Bool

variable [DecidableEq C]

def St.setWorker (s : St n J C) (w : Fin n) (l : Worker n J) : St n J C :=
  { s with worker := Function.update s.worker w l }

def St.setCaller (s : St n J C) (c : C) (p : Call n J) : St n J C :=
  { s with caller := Function.update s.caller c p }

def Pc.isOut : Pc n J → Bool
  | .out => true
  | _ => false

def Call.isIdle : Call n J → Bool
  | .idle => true
  | _ => false

/-- `Local::take_queue`. -/
def Shared.takeQueue (s : Shared n J) (w : Fin n) : Shared n J :=
  { s with queue := Function.update s.queue w false }

/-- What is left in the containers, in the order in which they are dropped. -/
def Shared.leftover (s : Shared n J) : List J :=
  (List.finRange n).flatMap (fun w => s.inbox w ++ (s.slot w).toList) ++
    (List.finRange n).flatMap (fun w => (s.deque w).lent ++ (s.deque w).stored) ++ s.injector

/-- The drop of the pool: every job that is left is dropped. -/
def Shared.drop (s : Shared n J) : Shared n J :=
  { s with
    injector := []
    slot := fun _ => none
    inbox := fun _ => []
    deque := fun w => { s.deque w with stored := [], lent := [] }
    handled := s.handled ++ s.leftover.map (·, .drop) }

inductive Cmd (n : ℕ) (J C : Type*)
  /-- A thread calls `Pool::run` for worker `w`; it is refused while another one runs it. -/
  | run (w : Fin n)
  | worker (w : Fin n) (spurious : Bool)
  /-- The job that worker `w` runs makes a call. -/
  | jobCall (w : Fin n) (op : Op n J)
  /-- The job that worker `w` runs returns. -/
  | jobDone (w : Fin n)
  | call (c : C) (op : Op n J)
  | caller (c : C) (spurious : Bool)
  | drop

variable [DecidableEq J] [Fintype C]

/-- A call hands over a job that the pool has not been given before: a `Job` has no copies. -/
def St.accept (s : St n J C) (op : Op n J) : Option (St n J C) :=
  match op.job? with
  | none => some s
  | some j => if j ∈ s.accepted then none else some { s with accepted := s.accepted ++ [j] }

def step (cfg : Config n) (cmd : Cmd n J C) (s : St n J C) : Option (St n J C) :=
  if s.dropped then none
  else
    match cmd with
    | .run w =>
      if s.shared.queue w then
        some ({ s with shared := s.shared.takeQueue w }.setWorker w (.start cfg.tuning w))
      else some s
    | .worker w spurious =>
      ((s.worker w).next cfg w).bind fun r =>
        (serve cfg.cap spurious s.shared r).map fun q => { s with shared := q.2 }.setWorker w q.1
    | .jobCall w op =>
      match (s.worker w).pc with
      | .run .idle wakes =>
        (s.accept op).map fun s => s.setWorker w
          ((s.worker w).goto (.run (.start cfg.tuning op) (wakes + op.wakes)))
      | _ => none
    | .jobDone w =>
      match (s.worker w).pc with
      | .run .idle _ => some (s.setWorker w ((s.worker w).goto .complete))
      | _ => none
    | .call c op =>
      match s.caller c with
      | .idle => (s.accept op).map fun s => s.setCaller c (.start cfg.tuning op)
      | _ => none
    | .caller c spurious =>
      ((s.caller c).next cfg).bind fun r =>
        (serve cfg.cap spurious s.shared r).map fun q => { s with shared := q.2 }.setCaller c q.1
    | .drop =>
      if (∀ w, (s.worker w).pc.isOut) ∧ ∀ c, (s.caller c).isIdle then
        some { s with shared := s.shared.drop, dropped := true }
      else none

/-- `Pool::with_tuning`. -/
def Shared.init : Shared n J where
  injector := []
  slot := fun _ => none
  inbox := fun _ => []
  deque := fun _ => .new
  queue := fun _ => true
  completed := fun _ => 0
  sleeping := fun _ => false
  searching := 0
  running := true
  permit := fun _ => false
  owed := fun _ => false
  handled := []

def init : St n J C where
  shared := .init
  worker := fun _ => .init
  caller := fun _ => .idle
  accepted := []
  dropped := false

/-- The pool, in runs all of whose steps are `ok`. It shows no events: what is said of it is
said of its states. -/
def ltsWhen (cfg : Config n) (ok : Cmd n J C → St n J C → Prop) : Lts (St n J C) Empty :=
  .ofStep (· = init) (fun cmd s => (step cfg cmd s).map (·, none)) ok

def lts (cfg : Config n) (J C : Type*) [DecidableEq J] [DecidableEq C] [Fintype C] :
    Lts (St n J C) Empty :=
  ltsWhen cfg fun _ _ => True

/-- The state in which a run ends that gives each of these commands so many times in a row. -/
def runs (cfg : Config n) (ok : Cmd n J C → St n J C → Prop) [∀ cmd s, Decidable (ok cmd s)]
    (script : List (ℕ × Cmd n J C)) : Option (St n J C) :=
  (Lts.runs (fun cmd s => (step cfg cmd s).map fun s => (s, (none : Option Empty))) ok
    (script.flatMap fun q => List.replicate q.1 q.2) init).map Prod.snd

lemma exists_reaches (cfg : Config n) (ok : Cmd n J C → St n J C → Prop)
    [∀ cmd s, Decidable (ok cmd s)] (script : List (ℕ × Cmd n J C)) {β : Type*}
    (f : St n J C → β) {v : β} (h : (runs cfg ok script).map f = some v) :
    ∃ tr s, (ltsWhen cfg ok).Reaches tr s ∧ f s = v := by
  rw [runs, Option.map_map] at h
  obtain ⟨⟨tr, s⟩, hr, rfl⟩ := Option.map_eq_some_iff.mp h
  exact ⟨tr, s, Lts.reaches_of_runs rfl hr, rfl⟩

/-! ### What one step can do -/

inductive Trans (cfg : Config n) (s : St n J C) : Cmd n J C → St n J C → Prop
  | run {w : Fin n} (hq : s.shared.queue w = true) :
      Trans cfg s (.run w)
        ({ s with shared := s.shared.takeQueue w }.setWorker w (.start cfg.tuning w))
  | refused {w : Fin n} (hq : s.shared.queue w = false) : Trans cfg s (.run w) s
  | worker {w : Fin n} {spurious : Bool} {r : Req n J (Worker n J)} {l : Worker n J}
      {sh : Shared n J} (hr : (s.worker w).next cfg w = some r)
      (hs : serve cfg.cap spurious s.shared r = some (l, sh)) :
      Trans cfg s (.worker w spurious) ({ s with shared := sh }.setWorker w l)
  | jobCall {w : Fin n} {op : Op n J} {wakes : ℕ} (hpc : (s.worker w).pc = .run .idle wakes)
      (hj : ∀ j ∈ op.job?, j ∉ s.accepted) :
      Trans cfg s (.jobCall w op) ({ s with accepted := s.accepted ++ op.job?.toList }.setWorker w
        ((s.worker w).goto (.run (.start cfg.tuning op) (wakes + op.wakes))))
  | jobDone {w : Fin n} {wakes : ℕ} (hpc : (s.worker w).pc = .run .idle wakes) :
      Trans cfg s (.jobDone w) (s.setWorker w ((s.worker w).goto .complete))
  | call {c : C} {op : Op n J} (hc : s.caller c = .idle) (hj : ∀ j ∈ op.job?, j ∉ s.accepted) :
      Trans cfg s (.call c op) ({ s with accepted := s.accepted ++ op.job?.toList }.setCaller c
        (.start cfg.tuning op))
  | caller {c : C} {spurious : Bool} {r : Req n J (Call n J)} {p : Call n J} {sh : Shared n J}
      (hr : (s.caller c).next cfg = some r)
      (hs : serve cfg.cap spurious s.shared r = some (p, sh)) :
      Trans cfg s (.caller c spurious) ({ s with shared := sh }.setCaller c p)
  | drop (hw : ∀ w, (s.worker w).pc.isOut) (hc : ∀ c, (s.caller c).isIdle) :
      Trans cfg s .drop { s with shared := s.shared.drop, dropped := true }

omit [DecidableEq C] [Fintype C] in
lemma St.accept_eq {s s' : St n J C} {op : Op n J} (h : s.accept op = some s') :
    s' = { s with accepted := s.accepted ++ op.job?.toList } ∧ ∀ j ∈ op.job?, j ∉ s.accepted := by
  unfold accept at h
  cases hj : op.job? with
  | none =>
    simp only [hj, Option.some.injEq] at h
    simp [← h]
  | some j =>
    simp only [hj] at h
    split_ifs at h with hmem
    cases h
    simpa using hmem

/-- **Inversion** of a step of the pool. -/
theorem step_trans {cfg : Config n} {cmd : Cmd n J C} {s s' : St n J C}
    (h : step cfg cmd s = some s') : s.dropped = false ∧ Trans cfg s cmd s' := by
  unfold step at h
  have hd : s.dropped = false := by
    by_contra hd
    rw [if_pos (by simpa using hd)] at h
    cases h
  rw [if_neg (by simp [hd])] at h
  refine ⟨hd, ?_⟩
  cases cmd with
  | run w =>
    simp only at h
    split_ifs at h with hq
    · cases h
      exact .run hq
    · cases h
      exact .refused (by simpa using hq)
  | worker w spurious =>
    simp only [Option.bind_eq_some_iff, Option.map_eq_some_iff] at h
    obtain ⟨r, hr, ⟨l, sh⟩, hs, rfl⟩ := h
    exact .worker hr hs
  | jobCall w op =>
    simp only at h
    split at h
    · obtain ⟨s₁, ha, rfl⟩ := Option.map_eq_some_iff.mp h
      obtain ⟨rfl, hj⟩ := St.accept_eq ha
      exact .jobCall ‹_› hj
    · cases h
  | jobDone w =>
    simp only at h
    split at h
    · cases h
      exact .jobDone ‹_›
    · cases h
  | call c op =>
    simp only at h
    split at h
    · obtain ⟨s₁, ha, rfl⟩ := Option.map_eq_some_iff.mp h
      obtain ⟨rfl, hj⟩ := St.accept_eq ha
      exact .call ‹_› hj
    · cases h
  | caller c spurious =>
    simp only [Option.bind_eq_some_iff, Option.map_eq_some_iff] at h
    obtain ⟨r, hr, ⟨p, sh⟩, hs, rfl⟩ := h
    exact .caller hr hs
  | drop =>
    simp only at h
    split_ifs at h with hall
    cases h
    exact .drop hall.1 hall.2

/-- **The invariant rule of the pool**, for the runs all of whose steps are `ok`. -/
theorem invariant {cfg : Config n} {ok : Cmd n J C → St n J C → Prop} (inv : St n J C → Prop)
    (h0 : inv init)
    (hs : ∀ {tr cmd s s'}, (ltsWhen cfg ok).Reaches tr s → inv s → ok cmd s →
      s.dropped = false → Trans cfg s cmd s' → inv s')
    {tr : List Empty} {s : St n J C} (h : (ltsWhen cfg ok).Reaches tr s) : inv s := by
  refine Lts.Reaches.invariant inv ?_ ?_ h
  · rintro s rfl
    exact h0
  · rintro tr s l s' hreach hinv ⟨cmd, hok, hstep⟩
    obtain ⟨s₁, hs₁, he⟩ := Option.map_eq_some_iff.mp hstep
    cases he
    obtain ⟨hd, ht⟩ := step_trans hs₁
    exact hs hreach hinv hok hd ht

end St3.Pool
