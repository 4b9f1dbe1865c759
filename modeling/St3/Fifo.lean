import St3.Surroundings
import St3.Slots

/-!
The FIFO queue, one atomic access or slot access per step.

The two heads are packed into one word: `pop` moves the worker head, and the stealer head
with it when no booking is under way; a booking moves the worker head only, and its end
moves the stealer head up to wherever the worker head has come to.

The two counters `wh` and `sh` are no part of the code: they follow the unbounded positions
that the two heads show.
-/

namespace St3.Fifo

open Words Slots Deque

variable {w : ℕ} {T A : Type*}

structure Queue (w : ℕ) (T : Type*) where
  heads : BitVec (2 * w)
  tail : BitVec w
  buffer : List (Slot T)
  mask : BitVec w
  deriving DecidableEq

def Queue.capacity (q : Queue w T) : BitVec w := q.mask + 1

/-- `Worker::new`, which refuses a capacity above half the range of a word. -/
def Queue.new (w : ℕ) (T : Type*) (minCapacity : ℕ) : Option (Queue w T) :=
  if minCapacity ≤ 2 ^ (w - 1) then
    some {
      heads := 0
      tail := 0
      buffer := List.replicate (nextPowerOfTwo minCapacity) .uninit
      mask := BitVec.ofNat w (nextPowerOfTwo minCapacity) - 1 }
  else none

/-- What a load of `heads` saw, and when. -/
structure Snap (w : ℕ) where
  packed : BitVec (2 * w)
  wh : ℕ
  sh : ℕ
  deriving DecidableEq

def Snap.workerHead (sn : Snap w) : BitVec w := (unpack sn.packed).1
def Snap.stealerHead (sn : Snap w) : BitVec w := (unpack sn.packed).2

/-- The next access of a thread in `book_items`. -/
inductive BookPc (w : ℕ)
  | loadHeads
  | loadTail (sn : Snap w)
  | cas (sn : Snap w) (count : BitVec w)
  deriving DecidableEq

/-- The next access of the owner, with what it carries along. -/
inductive OwnerPc (w : ℕ) (T A : Type*)
  | idle
  | ret (r : Res T A)
  | pushLoadHeads (x : T)
  | pushLoadTail (x : T) (stealerHead : BitVec w)
  | pushWrite (x : T) (tail : BitVec w)
  | pushStore (tail : BitVec w)
  | extendLoadHeads
  | extendLoadTail (stealerHead : BitVec w)
  | extendNext (tail maxTail : BitVec w)
  | extendWrite (x : T) (tail maxTail : BitVec w)
  | extendStore (tail : BitVec w)
  | popLoadHeads
  | popLoadTail (sn : Snap w)
  | popCas (sn : Snap w)
  | popRead (prevWorkerHead : BitVec w)
  | spareLoadHeads
  | spareLoadTail (stealerHead : BitVec w)
  | emptyLoadHeads
  | emptyLoadTail (workerHead : BitVec w)
  | recvLoadTail (andPop : Bool)
  | recvLoadHeads (andPop : Bool) (tail : BitVec w)
  | recvBook (andPop : Bool) (tail free : BitVec w)
  | recvWrite (tail : BitVec w) (done n : ℕ)
  | recvStore (tail : BitVec w) (n : ℕ)
  | drainBook (b : BookPc w)
  deriving DecidableEq

/-- The next access of a stealer or a `Drain`, which keeps the stealer head of its booking. -/
inductive AgentPc (w : ℕ) (T : Type*)
  | idle
  | done (r : TaskRes T)
  | book (andPop : Bool) (maxCount : BitVec w) (b : BookPc w)
  | move (andPop : Bool) (stealerHead : BitVec w) (done count : ℕ)
  | endLoad (stealerHead : BitVec w) (r : TaskRes T)
  | endCas (stealerHead : BitVec w) (sn : Snap w) (r : TaskRes T)
  | drain (head fromHead toHead : BitVec w)
  | next (dropping : Bool) (head fromHead toHead : BitVec w)
  | nextLoad (dropping : Bool) (x : T) (fromHead toHead : BitVec w)
  | nextCas (dropping : Bool) (x : T) (fromHead toHead : BitVec w) (sn : Snap w)
  | nextDone (dropping : Bool) (o : Option T) (head fromHead toHead : BitVec w)
  deriving DecidableEq

structure St (w : ℕ) (T A : Type*) where
  queue : Queue w T
  owner : OwnerPc w T A
  agent : A → AgentPc w T
  /-- A slot was read that held no item, one was overwritten that held one or was booked, or
  an assertion about the stealer head has failed. -/
  fault : Bool
  wh : ℕ
  sh : ℕ

/-! ### Accesses -/

def St.snap (s : St w T A) : Snap w := ⟨s.queue.heads, s.wh, s.sh⟩

def St.slot (s : St w T A) (pos : BitVec w) : Slot T :=
  (s.queue.buffer[slotIdx pos s.queue.mask]?).getD .uninit

/-- `read_at`, which moves the item out of its slot. -/
def St.readAt (s : St w T A) (pos : BitVec w) : Option T × St w T A :=
  match s.slot pos with
  | .live x =>
    let buffer := s.queue.buffer.set (slotIdx pos s.queue.mask) (.moved x)
    (some x, { s with queue.buffer := buffer })
  | .moved x => (some x, { s with fault := true })
  | .uninit => (none, { s with fault := true })

/-- The slot is one of those between the two heads. -/
def St.booked (s : St w T A) (pos : BitVec w) : Bool :=
  slotIdx (pos - s.snap.stealerHead) s.queue.mask < (s.snap.workerHead - s.snap.stealerHead).toNat

/-- `write_at`. -/
def St.writeAt (s : St w T A) (pos : BitVec w) (x : T) : St w T A :=
  { s with
    queue.buffer := s.queue.buffer.set (slotIdx pos s.queue.mask) (.live x)
    fault := s.fault || (s.slot pos).item?.isSome || s.booked pos }

/-- The assertion that a booking still has the stealer head it started with. -/
def St.assertHead (s : St w T A) (stealerHead : BitVec w) : St w T A :=
  { s with fault := s.fault || decide (s.snap.stealerHead ≠ stealerHead) }

/-! ### `book_items` -/

inductive BookOut (w : ℕ)
  | go (b : BookPc w)
  | err (e : StealError)
  | ok (stealerHead workerHead count : BitVec w)

/-- The test at the head of the loop, on a fresh load. -/
def checkHeads (sn : Snap w) : BookOut w :=
  if sn.stealerHead ≠ sn.workerHead then .err .busy else .go (.loadTail sn)

def bookStep (c : Choice T A) (maxCount : BitVec w) (s : St w T A) :
    BookPc w → BookOut w × St w T A
  | .loadHeads => (checkHeads s.snap, s)
  | .loadTail sn =>
    let itemCount := s.queue.tail - sn.workerHead
    if itemCount = 0 then (.err .empty, s)
    else
      let count := bookCount c.want maxCount itemCount
      if count = 0 then (.err .empty, s) else (.go (.cas sn count), s)
  | .cas sn count =>
    if c.spurious = false ∧ s.queue.heads = sn.packed then
      (.ok sn.stealerHead (sn.workerHead + count) count,
        { s with
          queue.heads := pack (sn.workerHead + count) sn.stealerHead
          wh := s.wh + count.toNat })
    else (checkHeads s.snap, s)

/-- The compare-exchange that ends a booking: the stealer head catches up. -/
def endStep (c : Choice T A) (sn : Snap w) (s : St w T A) : Option (St w T A) :=
  if c.spurious = false ∧ s.queue.heads = sn.packed then
    some { s with queue.heads := pack sn.workerHead sn.workerHead, sh := s.wh }
  else none

/-! ### The owner -/

def start : Op T → OwnerPc w T A
  | .push x => .pushLoadHeads x
  | .extend => .extendLoadHeads
  | .pop => .popLoadHeads
  | .spareCapacity => .spareLoadHeads
  | .isEmpty => .emptyLoadHeads
  | .receive m => .recvLoadTail m
  | .drain => .drainBook .loadHeads

variable [DecidableEq A]

def St.setAgent (s : St w T A) (a : A) (p : AgentPc w T) : St w T A :=
  { s with agent := Function.update s.agent a p }

def ownerStep (c : Choice T A) (s : St w T A) : Option (St w T A × Option (Event T A)) :=
  let go (p : OwnerPc w T A) := some ({ s with owner := p }, none)
  match s.owner with
  | .idle => none
  | .ret r => some ({ s with owner := .idle }, some (.ret r))
  -- `push`
  | .pushLoadHeads x => go (.pushLoadTail x s.snap.stealerHead)
  | .pushLoadTail x stealerHead =>
    if s.queue.mask < s.queue.tail - stealerHead then go (.ret (.pushErr x))
    else go (.pushWrite x s.queue.tail)
  | .pushWrite x tail => some ({ s.writeAt tail x with owner := .pushStore tail }, none)
  | .pushStore tail => some ({ s with queue.tail := tail + 1, owner := .ret .pushOk }, none)
  -- `extend`
  | .extendLoadHeads => go (.extendLoadTail s.snap.stealerHead)
  | .extendLoadTail stealerHead =>
    go (.extendNext s.queue.tail (stealerHead + s.queue.capacity))
  | .extendNext tail maxTail =>
    some ({ s with owner :=
      match c.item with
      | none => .extendStore tail
      | some x => if tail = maxTail then .extendStore tail else .extendWrite x tail maxTail },
      some (.pull c.item))
  | .extendWrite x tail maxTail =>
    some ({ s.writeAt tail x with owner := .extendNext (tail + 1) maxTail }, none)
  | .extendStore tail => some ({ s with queue.tail := tail, owner := .ret .extended }, none)
  -- `pop`
  | .popLoadHeads => go (.popLoadTail s.snap)
  | .popLoadTail sn =>
    if s.queue.tail = sn.workerHead then go (.ret (.popped none)) else go (.popCas sn)
  | .popCas sn =>
    if c.spurious = false ∧ s.queue.heads = sn.packed then
      let both := (sn.stealerHead == sn.workerHead).toNat
      some ({ s with
        queue.heads := pack (sn.workerHead + 1) (sn.stealerHead + BitVec.ofNat w both)
        wh := s.wh + 1
        sh := s.sh + both
        owner := .popRead sn.workerHead }, none)
    else go (.popLoadTail s.snap)
  | .popRead prevWorkerHead =>
    let (x, s') := s.readAt prevWorkerHead
    some ({ s' with owner := .ret (.popped x) }, none)
  -- `spare_capacity`
  | .spareLoadHeads => go (.spareLoadTail s.snap.stealerHead)
  | .spareLoadTail stealerHead =>
    go (.ret (.spare (s.queue.capacity - (s.queue.tail - stealerHead)).toNat))
  -- `is_empty`
  | .emptyLoadHeads => go (.emptyLoadTail s.snap.workerHead)
  | .emptyLoadTail workerHead => go (.ret (.isEmpty (s.queue.tail == workerHead)))
  -- `steal` and `steal_and_pop` of another queue, as far as they touch this destination
  | .recvLoadTail m => go (.recvLoadHeads m s.queue.tail)
  | .recvLoadHeads m tail =>
    go (.recvBook m tail (s.queue.capacity - (tail - s.snap.stealerHead)))
  | .recvBook m tail free =>
    match c.booked with
    | .error e => go (.ret (.receiveErr e))
    | .ok n =>
      -- the other queue books at least one item, and at most `free` of them go here
      if 0 < n ∧ n ≤ free.toNat + m.toNat then go (.recvWrite tail 0 (n - m.toNat)) else none
  | .recvWrite tail done n =>
    if done < n then
      c.item.bind fun x => some ({ s.writeAt (tail + BitVec.ofNat w done) x with
        owner := .recvWrite tail (done + 1) n }, some (.arrive x))
    else go (.recvStore tail n)
  | .recvStore tail n =>
    some ({ s with
      queue.tail := tail + BitVec.ofNat w n
      owner := .ret (.received n) }, none)
  -- `drain`, which books with no bound of its own
  | .drainBook b =>
    match bookStep c (-1) s b with
    | (.go b', s') => some ({ s' with owner := .drainBook b' }, none)
    | (.err e, s') => some ({ s' with owner := .ret (.drainErr e) }, none)
    | (.ok head toHead _, s') =>
      match s.agent c.drain with
      | .idle =>
        some ({ s'.setAgent c.drain (.drain head head toHead) with
          owner := .ret (.drained c.drain) }, none)
      | _ => none

/-! ### Stealers and `Drain`s -/

def agentStep (c : Choice T A) (a : A) (s : St w T A) :
    Option (St w T A × Option (Event T A)) :=
  let go (p : AgentPc w T) := some (s.setAgent a p, none)
  match s.agent a with
  | .idle => none
  | .drain .. => none
  | .done r => some (s.setAgent a .idle, some (.finish a r))
  | .book m maxCount b =>
    match bookStep c maxCount s b with
    | (.go b', s') => some (s'.setAgent a (.book m maxCount b'), none)
    | (.err e, s') => some (s'.setAgent a (.done (.stealErr e)), none)
    | (.ok stealerHead _ count, s') =>
      some (s'.setAgent a (.move m stealerHead 0 count.toNat), none)
  -- `transfer_items`, slot by slot, and then the read of the last item
  | .move m stealerHead done count =>
    if done + m.toNat < count then
      match s.readAt (stealerHead + BitVec.ofNat w done) with
      | (some x, s') => some (s'.setAgent a (.move m stealerHead (done + 1) count),
          some (.deliver a x))
      | (none, s') => some (s', none)
    else if m then
      match s.readAt (stealerHead + BitVec.ofNat w done) with
      | (some x, s') => some (s'.setAgent a (.endLoad stealerHead (.stoleAndPopped x done)), none)
      | (none, s') => some (s', none)
    else go (.endLoad stealerHead (.stole done))
  | .endLoad stealerHead r =>
    some ((s.assertHead stealerHead).setAgent a (.endCas stealerHead s.snap r), none)
  | .endCas stealerHead sn r =>
    match endStep c sn s with
    | some s' => some (s'.setAgent a (.done r), none)
    | none => some ((s.assertHead stealerHead).setAgent a (.endCas stealerHead s.snap r), none)
  -- `Drain::next`, called by the holder of the `Drain` or by its `drop`
  | .next d head fromHead toHead =>
    if head = toHead then go (.nextDone d none head fromHead toHead)
    else
      match s.readAt head with
      | (none, s') => some (s', none)
      | (some x, s') =>
        if head + 1 = toHead then some (s'.setAgent a (.nextLoad d x fromHead toHead), none)
        else some (s'.setAgent a (.nextDone d (some x) (head + 1) fromHead toHead), none)
  | .nextLoad d x fromHead toHead =>
    some ((s.assertHead fromHead).setAgent a (.nextCas d x fromHead toHead s.snap), none)
  | .nextCas d x fromHead toHead sn =>
    match endStep c sn s with
    | some s' => some (s'.setAgent a (.nextDone d (some x) toHead fromHead toHead), none)
    | none =>
      some ((s.assertHead fromHead).setAgent a (.nextCas d x fromHead toHead s.snap), none)
  | .nextDone false o head fromHead toHead =>
    some (s.setAgent a (.drain head fromHead toHead), some (.finish a (.yielded o)))
  | .nextDone true (some x) head fromHead toHead =>
    some (s.setAgent a (.next true head fromHead toHead), some (.deliver a x))
  | .nextDone true none _ _ _ => some (s.setAgent a .idle, some (.finish a .dropped))

/-- An agent makes a call. A stealer brings the free capacity of its destination. -/
def agentStart (a : A) (t : Task) (free : BitVec w) (s : St w T A) :
    Option (St w T A × Option (Event T A)) :=
  match t, s.agent a with
  | .steal m, .idle =>
    some (s.setAgent a (.book m (free + BitVec.ofNat w m.toNat) .loadHeads), some (.start a t))
  | .next, .drain head fromHead toHead =>
    some (s.setAgent a (.next false head fromHead toHead), some (.start a t))
  | .drop, .drain head fromHead toHead =>
    some (s.setAgent a (.next true head fromHead toHead), some (.start a t))
  | _, _ => none

/-- A `Drain` is leaked, or a panic in the destructor of the item its `drop` has just taken
out ends that `drop`. -/
def agentForget (a : A) (s : St w T A) : Option (St w T A × Option (Event T A)) :=
  match s.agent a with
  | .drain .. => some (s.setAgent a .idle, some (.forget a))
  | .next true _ _ _ => some (s.setAgent a .idle, some (.forget a))
  | _ => none

/-! ### The system -/

def step : Cmd w T A → St w T A → Option (St w T A × Option (Event T A))
  | .call op, s =>
    match s.owner with
    | .idle => some ({ s with owner := Fifo.start op }, some (.call op))
    | _ => none
  | .owner c, s => ownerStep c s
  | .start a t free, s => agentStart a t free s
  | .agent a c, s => agentStep c a s
  | .forget a, s => agentForget a s

/-- The load that a compare-exchange builds on. -/
def BookPc.casSnap : BookPc w → Option (Snap w)
  | .cas sn _ => some sn
  | _ => none

def casSnap (s : St w T A) : Cmd w T A → Option (Snap w)
  | .owner _ =>
    match s.owner with
    | .popCas sn => some sn
    | .drainBook b => b.casSnap
    | _ => none
  | .agent a _ =>
    match s.agent a with
    | .book _ _ b => b.casSnap
    | .endCas _ sn _ => some sn
    | .nextCas _ _ _ _ sn => some sn
    | _ => none
  | _ => none

/-- Less than a full turn of either head has passed since that load. -/
def Timely (cmd : Cmd w T A) (s : St w T A) : Prop :=
  ∀ sn ∈ casSnap s cmd, s.wh < sn.wh + 2 ^ w ∧ s.sh < sn.sh + 2 ^ w

instance (cmd : Cmd w T A) (s : St w T A) : Decidable (Timely cmd s) :=
  inferInstanceAs (Decidable (∀ sn ∈ casSnap s cmd, _))

def Init (s : St w T A) : Prop :=
  (∃ c, Queue.new w T c = some s.queue) ∧ s.owner = .idle ∧ (∀ a, s.agent a = .idle) ∧
    s.fault = false ∧ s.wh = 0 ∧ s.sh = 0

def lts (w : ℕ) (T A : Type*) [DecidableEq A] : Lts (St w T A) (Event T A) :=
  .ofStep Init step Timely

end St3.Fifo
