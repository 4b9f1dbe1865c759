import St3.Tuning
import Mathlib.Data.Fintype.Basic
import Mathlib.Data.List.FinRange

/-!
The memory that the threads of a pool share, and the accesses they make to it, one at a time.

The injector, the inboxes and the owner's end of the sharing deques are atomic objects; a
thief goes through the steps of `book_items`. An access carries what the thread goes on with
for every answer, so that a thread is no more than the next access it makes.

`owed` and `handled` are no part of the code. `owed` marks the workers that were taken from
`sleeping` because of the injector and have neither looked there nor started a job since;
`handled` lists the calls of the handles of the jobs.
-/

namespace St3.Pool

/-- `Act`. -/
inductive Act
  | run
  | drop
  deriving DecidableEq, Repr

/-- A sharing deque. `lent` is booked and not copied yet, `held` counts the slots that the
booking under way has not given back. -/
structure Sharing (J : Type*) where
  stored : List J
  lent : List J
  held : ℕ
  popCount : ℕ
  /-- The head that bookings move. -/
  bookedHead : ℕ

namespace Sharing

variable {J : Type*}

def new : Sharing J := ⟨[], [], 0, 0, 0⟩

def pushCount (d : Sharing J) : ℕ := d.stored.length + d.popCount + d.bookedHead

def head (d : Sharing J) : ℕ := d.bookedHead - d.held

/-- `pop_count_and_head`. -/
def word (d : Sharing J) : ℕ × ℕ := (d.popCount, d.bookedHead)

/-- The free slots, for the owner and for what the owner steals. -/
def spare (d : Sharing J) (cap : ℕ) : ℕ := cap - (d.stored.length + d.held)

def push (d : Sharing J) (j : J) : Sharing J := { d with stored := d.stored ++ [j] }

def pop (d : Sharing J) : Sharing J :=
  { d with stored := d.stored.dropLast, popCount := d.popCount + 1 }

def book (d : Sharing J) (count : ℕ) : Sharing J :=
  { d with
    stored := d.stored.drop count
    lent := d.stored.take count
    held := count
    bookedHead := d.bookedHead + count }

end Sharing

structure Shared (n : ℕ) (J : Type*) where
  injector : List J
  slot : Fin n → Option J
  inbox : Fin n → List J
  deque : Fin n → Sharing J
  /-- The deque is in `Local::queue`: no thread runs the worker. -/
  queue : Fin n → Bool
  completed : Fin n → ℕ
  sleeping : Fin n → Bool
  searching : ℕ
  running : Bool
  /-- The permits of the host. -/
  permit : Fin n → Bool
  owed : Fin n → Bool
  handled : List (J × Act)

/-- One access of a thread, with what it goes on with. -/
inductive Req (n : ℕ) (J L : Type*)
  /-- A load, or a look at one container, or no access. -/
  | load (k : Shared n J → L)
  | takeSlot (w : Fin n) (k : Option J → L)
  | replaceSlot (w : Fin n) (j : J) (k : Option J → L)
  | pushInbox (w : Fin n) (j : J) (k : L)
  | popInbox (w : Fin n) (k : Option J → L)
  | pushInjector (j : J) (k : L)
  /-- A pop of the injector by worker `w`. -/
  | popInjector (w : Fin n) (k : Option J → L)
  | pushDeque (w : Fin n) (j : J) (k : Bool → L)
  | popDeque (w : Fin n) (k : Option J → L)
  /-- The compare-exchange of `book_items`; a failure shows the current word. -/
  | book (v : Fin n) (word : ℕ × ℕ) (count : ℕ) (k : Option (ℕ × ℕ) → L)
  /-- Copying the booked items. -/
  | transfer (v : Fin n) (k : List J → L)
  /-- The store of `push_count` that shows the copied items. -/
  | append (w : Fin n) (js : List J) (k : L)
  /-- The store of `head` that ends the booking. -/
  | release (v : Fin n) (k : L)
  | setBit (w : Fin n) (k : L)
  | clearBit (w : Fin n) (k : L)
  /-- `fetch_and` of the bit of another worker; `note` says whether for the injector. -/
  | claim (w : Fin n) (note : Bool) (k : Bool → L)
  | unpark (w : Fin n) (k : L)
  | park (w : Fin n) (k : L)
  /-- `running.store(false)`. -/
  | stop (k : L)
  | addSearching (k : ℕ → L)
  | subSearching (k : L)
  | complete (w : Fin n) (k : L)
  | putQueue (w : Fin n) (k : Bool → L)
  /-- The call of `Job::run` by worker `w`. -/
  | handle (w : Fin n) (j : J) (k : L)

variable {n : ℕ} {J L L' : Type*}

/-- The same access, going on elsewhere. -/
def Req.map (f : L → L') : Req n J L → Req n J L'
  | .load k => .load (f ∘ k)
  | .takeSlot w k => .takeSlot w (f ∘ k)
  | .replaceSlot w j k => .replaceSlot w j (f ∘ k)
  | .pushInbox w j k => .pushInbox w j (f k)
  | .popInbox w k => .popInbox w (f ∘ k)
  | .pushInjector j k => .pushInjector j (f k)
  | .popInjector w k => .popInjector w (f ∘ k)
  | .pushDeque w j k => .pushDeque w j (f ∘ k)
  | .popDeque w k => .popDeque w (f ∘ k)
  | .book v word count k => .book v word count (f ∘ k)
  | .transfer v k => .transfer v (f ∘ k)
  | .append w js k => .append w js (f k)
  | .release v k => .release v (f k)
  | .setBit w k => .setBit w (f k)
  | .clearBit w k => .clearBit w (f k)
  | .claim w note k => .claim w note (f ∘ k)
  | .unpark w k => .unpark w (f k)
  | .park w k => .park w (f k)
  | .stop k => .stop (f k)
  | .addSearching k => .addSearching (f ∘ k)
  | .subSearching k => .subSearching (f k)
  | .complete w k => .complete w (f k)
  | .putQueue w k => .putQueue w (f ∘ k)
  | .handle w j k => .handle w j (f k)

namespace Shared

open Function

def setSlot (s : Shared n J) (w : Fin n) (o : Option J) : Shared n J :=
  { s with slot := update s.slot w o }

def setInbox (s : Shared n J) (w : Fin n) (js : List J) : Shared n J :=
  { s with inbox := update s.inbox w js }

def setDeque (s : Shared n J) (w : Fin n) (d : Sharing J) : Shared n J :=
  { s with deque := update s.deque w d }

def setSleeping (s : Shared n J) (w : Fin n) (b : Bool) : Shared n J :=
  { s with sleeping := update s.sleeping w b }

def setPermit (s : Shared n J) (w : Fin n) (b : Bool) : Shared n J :=
  { s with permit := update s.permit w b }

def setOwed (s : Shared n J) (w : Fin n) (b : Bool) : Shared n J :=
  { s with owed := update s.owed w b }

end Shared

/-- An access is made. A weak compare-exchange may fail and a park may return spuriously. -/
def serve (cap : ℕ) (spurious : Bool) (s : Shared n J) : Req n J L → Option (L × Shared n J)
  | .load k => some (k s, s)
  | .takeSlot w k => some (k (s.slot w), s.setSlot w none)
  | .replaceSlot w j k => some (k (s.slot w), s.setSlot w (some j))
  | .pushInbox w j k => some (k, s.setInbox w (s.inbox w ++ [j]))
  | .popInbox w k => some (k (s.inbox w).head?, s.setInbox w (s.inbox w).tail)
  | .pushInjector j k => some (k, { s with injector := s.injector ++ [j] })
  | .popInjector w k =>
    some (k s.injector.head?, { s.setOwed w false with injector := s.injector.tail })
  | .pushDeque w j k =>
    if 0 < (s.deque w).spare cap then some (k true, s.setDeque w ((s.deque w).push j))
    else some (k false, s)
  | .popDeque w k =>
    match (s.deque w).stored.getLast? with
    | some j => some (k (some j), s.setDeque w (s.deque w).pop)
    | none => some (k none, s)
  | .book v word count k =>
    if spurious = false ∧ (s.deque v).word = word then
      some (k none, s.setDeque v ((s.deque v).book count))
    else some (k (some (s.deque v).word), s)
  | .transfer v k => some (k (s.deque v).lent, s.setDeque v { s.deque v with lent := [] })
  | .append w js k =>
    some (k, s.setDeque w { s.deque w with stored := (s.deque w).stored ++ js })
  | .release v k => some (k, s.setDeque v { s.deque v with held := 0 })
  | .setBit w k => some (k, s.setSleeping w true)
  | .clearBit w k => some (k, s.setSleeping w false)
  | .claim w note k =>
    some (k (s.sleeping w),
      (if note && s.sleeping w then s.setOwed w true else s).setSleeping w false)
  | .unpark w k => some (k, s.setPermit w true)
  | .park w k =>
    if s.permit w then some (k, if spurious then s else s.setPermit w false)
    else if spurious then some (k, s) else none
  | .stop k => some (k, { s with running := false })
  | .addSearching k => some (k s.searching, { s with searching := s.searching + 1 })
  | .subSearching k => some (k, { s with searching := s.searching - 1 })
  | .complete w k =>
    some (k, { s with completed := Function.update s.completed w (s.completed w + 1) })
  | .putQueue w k =>
    if s.queue w then some (k false, s)
    else some (k true, { s with queue := Function.update s.queue w true })
  | .handle w j k =>
    some (k, { s.setOwed w false with handled := s.handled ++ [(j, .run)] })

lemma serve_map (f : L → L') (cap : ℕ) (spurious : Bool) (s : Shared n J) (r : Req n J L) :
    serve cap spurious s (r.map f) = (serve cap spurious s r).map (Prod.map f id) := by
  cases r <;> simp only [Req.map, serve] <;> (repeat' split) <;> rfl

end St3.Pool
