import St3.Surroundings
import St3.Slots

/-!
The LIFO queue, one atomic access or slot access per step.

The owner of the queue, its stealers and its `Drain`s each stand at a point of their code;
a step picks one of them and lets it make its next access. What is not the queue's own
choice comes in with the step: whether a weak compare-exchange fails spuriously, what
`count_fn` answers, what the iterator of `extend` yields, what another queue hands over.

The two counters `pops` and `stolen` and the list `abandoned` are no part of the code: they
follow what has happened so far.
-/

namespace St3.Lifo

open Words Slots Deque

variable {w : ℕ} {T A : Type*}

structure Queue (w : ℕ) (T : Type*) where
  pushCount : BitVec w
  popCountAndHead : BitVec (2 * w)
  head : BitVec w
  buffer : List (Slot T)
  mask : BitVec w
  deriving DecidableEq

def Queue.capacity (q : Queue w T) : BitVec w := q.mask + 1

/-- `Worker::new`, which refuses a capacity above half the range of a word. -/
def Queue.new (w : ℕ) (T : Type*) (minCapacity : ℕ) : Option (Queue w T) :=
  if minCapacity ≤ 2 ^ (w - 1) then
    some {
      pushCount := 0
      popCountAndHead := 0
      head := 0
      buffer := List.replicate (nextPowerOfTwo minCapacity) .uninit
      mask := BitVec.ofNat w (nextPowerOfTwo minCapacity) - 1 }
  else none

/-- What a load of `pop_count_and_head` saw, and when. -/
structure Snap (w : ℕ) where
  packed : BitVec (2 * w)
  pops : ℕ
  stolen : ℕ
  deriving DecidableEq

def Snap.popCount (sn : Snap w) : BitVec w := (unpack sn.packed).1
def Snap.head (sn : Snap w) : BitVec w := (unpack sn.packed).2

/-- The next access of a thread in `book_items`. -/
inductive BookPc (w : ℕ)
  | loadWord
  | loadHead (sn : Snap w)
  | loadCount (sn : Snap w) (oldHead : BitVec w)
  | cas (sn : Snap w) (oldHead count : BitVec w)
  deriving DecidableEq

/-- The next access of the owner, with what it carries along. -/
inductive OwnerPc (w : ℕ) (T A : Type*)
  | idle
  | ret (r : Res T A)
  | pushLoadCount (x : T)
  | pushLoadPops (x : T) (pushCount : BitVec w)
  | pushLoadHead (x : T) (pushCount tail : BitVec w)
  | pushWrite (x : T) (pushCount tail : BitVec w)
  | pushStore (pushCount : BitVec w)
  | extendLoadCount
  | extendLoadPops (pushCount : BitVec w)
  | extendLoadHead (popCount tail : BitVec w)
  | extendNext (popCount tail maxTail : BitVec w)
  | extendWrite (x : T) (popCount tail maxTail : BitVec w)
  | extendStore (popCount tail : BitVec w)
  | popLoadWord
  | popLoadCount (sn : Snap w)
  | popCas (sn : Snap w) (tail newPopCount : BitVec w)
  | popRead (tail : BitVec w)
  | spareLoadCount
  | spareLoadPops (pushCount : BitVec w)
  | spareLoadHead (tail : BitVec w)
  | emptyLoadCount
  | emptyLoadWord (pushCount : BitVec w)
  | recvLoadCount (andPop : Bool)
  | recvLoadPops (andPop : Bool) (pushCount : BitVec w)
  | recvLoadHead (andPop : Bool) (pushCount tail : BitVec w)
  | recvBook (andPop : Bool) (pushCount tail free : BitVec w)
  | recvWrite (pushCount tail : BitVec w) (done n : ℕ)
  | recvStore (pushCount : BitVec w) (n : ℕ)
  | drainBook (b : BookPc w)
  deriving DecidableEq

/-- The next access of a stealer or a `Drain`. A `Drain` keeps how many items it booked. -/
inductive AgentPc (w : ℕ) (T : Type*)
  | idle
  | done (r : TaskRes T)
  | book (andPop : Bool) (maxCount : BitVec w) (b : BookPc w)
  | move (andPop : Bool) (oldHead newHead : BitVec w) (done count : ℕ)
  | storeHead (newHead : BitVec w) (r : TaskRes T)
  | drain (current fin : BitVec w) (booked : ℕ)
  | next (dropping : Bool) (current fin : BitVec w) (booked : ℕ)
  | nextStore (dropping : Bool) (x : T) (fin : BitVec w) (booked : ℕ)
  | nextDone (dropping : Bool) (o : Option T) (current fin : BitVec w) (booked : ℕ)
  deriving DecidableEq

structure St (w : ℕ) (T A : Type*) where
  queue : Queue w T
  owner : OwnerPc w T A
  agent : A → AgentPc w T
  /-- A slot was read that held no item, or one was overwritten that held one or was booked. -/
  fault : Bool
  pops : ℕ
  stolen : ℕ
  /-- For every `Drain` that was leaked: the items it had yielded, and those it had left. -/
  abandoned : List (ℕ × ℕ)

/-! ### Accesses -/

def St.snap (s : St w T A) : Snap w := ⟨s.queue.popCountAndHead, s.pops, s.stolen⟩

def St.slot (s : St w T A) (pos : BitVec w) : Slot T :=
  (s.queue.buffer[slotIdx pos s.queue.mask]?).getD .uninit

/-- `read_at`, which moves the item out of its slot. -/
def St.readAt (s : St w T A) (pos : BitVec w) : Option T × St w T A :=
  match s.slot pos with
  | .live x =>
    let buffer := s.queue.buffer.set (slotIdx pos s.queue.mask) (.moved x)
    (some x, { s with queue.buffer := buffer })
  | .moved x => (some x, { s with fault := true })
  | .uninit => (none, { s with fault := true })

/-- The slot is one of those between `head` and the head that bookings move. -/
def St.booked (s : St w T A) (pos : BitVec w) : Bool :=
  slotIdx (pos - s.queue.head) s.queue.mask < (s.snap.head - s.queue.head).toNat

/-- `write_at`. -/
def St.writeAt (s : St w T A) (pos : BitVec w) (x : T) : St w T A :=
  { s with
    queue.buffer := s.queue.buffer.set (slotIdx pos s.queue.mask) (.live x)
    fault := s.fault || (s.slot pos).item?.isSome || s.booked pos }

/-! ### `book_items` -/

inductive BookOut (w : ℕ)
  | go (b : BookPc w)
  | err (e : StealError)
  | ok (head newHead count : BitVec w)

/-- The test at the head of the loop, on a fresh load. -/
def checkHeads (sn : Snap w) (oldHead : BitVec w) : BookOut w :=
  if oldHead ≠ sn.head then .err .busy else .go (.loadCount sn oldHead)

def bookStep (c : Choice T A) (maxCount : BitVec w) (s : St w T A) :
    BookPc w → BookOut w × St w T A
  | .loadWord => (.go (.loadHead s.snap), s)
  | .loadHead sn => (checkHeads sn s.queue.head, s)
  | .loadCount sn oldHead =>
    let tail := s.queue.pushCount - sn.popCount
    let itemCount := tail - sn.head
    if itemCount = 0 then (.err .empty, s)
    else
      let count := bookCount c.want maxCount itemCount
      if count = 0 then (.err .empty, s) else (.go (.cas sn oldHead count), s)
  | .cas sn oldHead count =>
    if c.spurious = false ∧ s.queue.popCountAndHead = sn.packed then
      (.ok sn.head (sn.head + count) count,
        { s with
          queue.popCountAndHead := pack sn.popCount (sn.head + count)
          stolen := s.stolen + count.toNat })
    else (checkHeads s.snap oldHead, s)

/-! ### The owner -/

def start : Op T → OwnerPc w T A
  | .push x => .pushLoadCount x
  | .extend => .extendLoadCount
  | .pop => .popLoadWord
  | .spareCapacity => .spareLoadCount
  | .isEmpty => .emptyLoadCount
  | .receive m => .recvLoadCount m
  | .drain => .drainBook .loadWord

/-- The test at the head of the loop of `pop`. -/
def popCheck (sn : Snap w) (tail newPopCount : BitVec w) : OwnerPc w T A :=
  if tail = sn.head then .ret (.popped none) else .popCas sn tail newPopCount

variable [DecidableEq A]

def St.setAgent (s : St w T A) (a : A) (p : AgentPc w T) : St w T A :=
  { s with agent := Function.update s.agent a p }

def ownerStep (c : Choice T A) (s : St w T A) : Option (St w T A × Option (Event T A)) :=
  let go (p : OwnerPc w T A) := some ({ s with owner := p }, none)
  match s.owner with
  | .idle => none
  | .ret r => some ({ s with owner := .idle }, some (.ret r))
  -- `push`
  | .pushLoadCount x => go (.pushLoadPops x s.queue.pushCount)
  | .pushLoadPops x pushCount => go (.pushLoadHead x pushCount (pushCount - s.snap.popCount))
  | .pushLoadHead x pushCount tail =>
    if s.queue.mask < tail - s.queue.head then go (.ret (.pushErr x))
    else go (.pushWrite x pushCount tail)
  | .pushWrite x pushCount tail =>
    some ({ s.writeAt tail x with owner := .pushStore pushCount }, none)
  | .pushStore pushCount =>
    some ({ s with queue.pushCount := pushCount + 1, owner := .ret .pushOk }, none)
  -- `extend`
  | .extendLoadCount => go (.extendLoadPops s.queue.pushCount)
  | .extendLoadPops pushCount =>
    go (.extendLoadHead s.snap.popCount (pushCount - s.snap.popCount))
  | .extendLoadHead popCount tail =>
    go (.extendNext popCount tail (s.queue.head + s.queue.capacity))
  | .extendNext popCount tail maxTail =>
    some ({ s with owner :=
      match c.item with
      | none => .extendStore popCount tail
      | some x =>
        if tail = maxTail then .extendStore popCount tail
        else .extendWrite x popCount tail maxTail }, some (.pull c.item))
  | .extendWrite x popCount tail maxTail =>
    some ({ s.writeAt tail x with owner := .extendNext popCount (tail + 1) maxTail }, none)
  | .extendStore popCount tail =>
    some ({ s with queue.pushCount := tail + popCount, owner := .ret .extended }, none)
  -- `pop`
  | .popLoadWord => go (.popLoadCount s.snap)
  | .popLoadCount sn =>
    go (popCheck sn (s.queue.pushCount - sn.popCount) (sn.popCount + 1))
  | .popCas sn tail newPopCount =>
    if c.spurious = false ∧ s.queue.popCountAndHead = sn.packed then
      some ({ s with
        queue.popCountAndHead := pack newPopCount sn.head
        pops := s.pops + 1
        owner := .popRead tail }, none)
    else go (popCheck s.snap tail newPopCount)
  | .popRead tail =>
    let (x, s') := s.readAt (tail - 1)
    some ({ s' with owner := .ret (.popped x) }, none)
  -- `spare_capacity`
  | .spareLoadCount => go (.spareLoadPops s.queue.pushCount)
  | .spareLoadPops pushCount => go (.spareLoadHead (pushCount - s.snap.popCount))
  | .spareLoadHead tail =>
    go (.ret (.spare (s.queue.capacity - (tail - s.queue.head)).toNat))
  -- `is_empty`
  | .emptyLoadCount => go (.emptyLoadWord s.queue.pushCount)
  | .emptyLoadWord pushCount =>
    go (.ret (.isEmpty (pushCount - s.snap.popCount == s.snap.head)))
  -- `steal` and `steal_and_pop` of another queue, as far as they touch this destination
  | .recvLoadCount m => go (.recvLoadPops m s.queue.pushCount)
  | .recvLoadPops m pushCount => go (.recvLoadHead m pushCount (pushCount - s.snap.popCount))
  | .recvLoadHead m pushCount tail =>
    go (.recvBook m pushCount tail (s.queue.capacity - (tail - s.queue.head)))
  | .recvBook m pushCount tail free =>
    match c.booked with
    | .error e => go (.ret (.receiveErr e))
    | .ok n =>
      -- the other queue books at least one item, and at most `free` of them go here
      if 0 < n ∧ n ≤ free.toNat + m.toNat then
        go (.recvWrite pushCount tail 0 (n - m.toNat))
      else none
  | .recvWrite pushCount tail done n =>
    if done < n then
      c.item.bind fun x => some ({ s.writeAt (tail + BitVec.ofNat w done) x with
        owner := .recvWrite pushCount tail (done + 1) n }, some (.arrive x))
    else go (.recvStore pushCount n)
  | .recvStore pushCount n =>
    some ({ s with
      queue.pushCount := pushCount + BitVec.ofNat w n
      owner := .ret (.received n) }, none)
  -- `drain`, which books with no bound of its own
  | .drainBook b =>
    match bookStep c (-1) s b with
    | (.go b', s') => some ({ s' with owner := .drainBook b' }, none)
    | (.err e, s') => some ({ s' with owner := .ret (.drainErr e) }, none)
    | (.ok head newHead count, s') =>
      match s.agent c.drain with
      | .idle =>
        some ({ s'.setAgent c.drain (.drain head newHead count.toNat) with
          owner := .ret (.drained c.drain) }, none)
      | _ => none

/-! ### Stealers and `Drain`s -/

def agentStep (c : Choice T A) (a : A) (s : St w T A) :
    Option (St w T A × Option (Event T A)) :=
  let go (p : AgentPc w T) := some (s.setAgent a p, none)
  match s.agent a with
  | .idle => none
  | .drain .. => none
  | .done r => some (s.setAgent a .idle, some (.finish a r))
  | .book m maxCount b =>
    match bookStep c maxCount s b with
    | (.go b', s') => some (s'.setAgent a (.book m maxCount b'), none)
    | (.err e, s') => some (s'.setAgent a (.done (.stealErr e)), none)
    | (.ok head newHead count, s') =>
      some (s'.setAgent a (.move m head newHead 0 count.toNat), none)
  -- `transfer_items`, slot by slot, and then the read of the last item
  | .move m oldHead newHead done count =>
    if done + m.toNat < count then
      match s.readAt (oldHead + BitVec.ofNat w done) with
      | (some x, s') => some (s'.setAgent a (.move m oldHead newHead (done + 1) count),
          some (.deliver a x))
      | (none, s') => some (s', none)
    else if m then
      match s.readAt (oldHead + BitVec.ofNat w done) with
      | (some x, s') => some (s'.setAgent a (.storeHead newHead (.stoleAndPopped x done)), none)
      | (none, s') => some (s', none)
    else go (.storeHead newHead (.stole done))
  | .storeHead newHead r =>
    some ({ s with queue.head := newHead }.setAgent a (.done r), none)
  -- `Drain::next`, called by the holder of the `Drain` or by its `drop`
  | .next d current fin booked =>
    if current = fin then go (.nextDone d none current fin booked)
    else
      match s.readAt current with
      | (none, s') => some (s', none)
      | (some x, s') =>
        if current + 1 = fin then some (s'.setAgent a (.nextStore d x fin booked), none)
        else some (s'.setAgent a (.nextDone d (some x) (current + 1) fin booked), none)
  | .nextStore d x fin booked =>
    some ({ s with queue.head := fin }.setAgent a (.nextDone d (some x) fin fin booked), none)
  | .nextDone false o current fin booked =>
    some (s.setAgent a (.drain current fin booked), some (.finish a (.yielded o)))
  | .nextDone true (some x) current fin booked =>
    some (s.setAgent a (.next true current fin booked), some (.deliver a x))
  | .nextDone true none _ _ _ => some (s.setAgent a .idle, some (.finish a .dropped))

/-- An agent makes a call. A stealer brings the free capacity of its destination. -/
def agentStart (a : A) (t : Task) (free : BitVec w) (s : St w T A) :
    Option (St w T A × Option (Event T A)) :=
  match t, s.agent a with
  | .steal m, .idle =>
    some (s.setAgent a (.book m (free + BitVec.ofNat w m.toNat) .loadWord), some (.start a t))
  | .next, .drain current fin booked =>
    some (s.setAgent a (.next false current fin booked), some (.start a t))
  | .drop, .drain current fin booked =>
    some (s.setAgent a (.next true current fin booked), some (.start a t))
  | _, _ => none

/-- A `Drain` is leaked, or a panic in the destructor of the item its `drop` has just taken
out ends that `drop`. -/
def agentForget (a : A) (s : St w T A) : Option (St w T A × Option (Event T A)) :=
  let leave (current fin : BitVec w) (booked : ℕ) :=
    let left := (fin - current).toNat
    some ({ s with abandoned := s.abandoned ++ [(booked - left, left)] }.setAgent a .idle,
      some (.forget a))
  match s.agent a with
  | .drain current fin booked => leave current fin booked
  | .next true current fin booked => leave current fin booked
  | _ => none

/-! ### The system -/

def step : Cmd w T A → St w T A → Option (St w T A × Option (Event T A))
  | .call op, s =>
    match s.owner with
    | .idle => some ({ s with owner := Lifo.start op }, some (.call op))
    | _ => none
  | .owner c, s => ownerStep c s
  | .start a t free, s => agentStart a t free s
  | .agent a c, s => agentStep c a s
  | .forget a, s => agentForget a s

/-- The load that a compare-exchange builds on. -/
def BookPc.casSnap : BookPc w → Option (Snap w)
  | .cas sn _ _ => some sn
  | _ => none

def casSnap (s : St w T A) : Cmd w T A → Option (Snap w)
  | .owner _ =>
    match s.owner with
    | .popCas sn _ _ => some sn
    | .drainBook b => b.casSnap
    | _ => none
  | .agent a _ =>
    match s.agent a with
    | .book _ _ b => b.casSnap
    | _ => none
  | _ => none

/-- Less than a full turn of pops and of stolen items has passed since that load. -/
def Timely (cmd : Cmd w T A) (s : St w T A) : Prop :=
  ∀ sn ∈ casSnap s cmd, s.pops < sn.pops + 2 ^ w ∧ s.stolen < sn.stolen + 2 ^ w

instance (cmd : Cmd w T A) (s : St w T A) : Decidable (Timely cmd s) :=
  inferInstanceAs (Decidable (∀ sn ∈ casSnap s cmd, _))

def Init (s : St w T A) : Prop :=
  (∃ c, Queue.new w T c = some s.queue) ∧ s.owner = .idle ∧ (∀ a, s.agent a = .idle) ∧
    s.fault = false ∧ s.pops = 0 ∧ s.stolen = 0 ∧ s.abandoned = []

def lts (w : ℕ) (T A : Type*) [DecidableEq A] : Lts (St w T A) (Event T A) :=
  .ofStep Init step Timely

end St3.Lifo
