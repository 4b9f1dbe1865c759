import St3.Lts
import Mathlib.Data.List.Perm.Basic
import Mathlib.Logic.Function.Basic

/-!
The bounded deque that one queue of the crate stands for, as an atomic object.

Items enter at the back. `pop` takes one item at the end its flavour says; a booking takes a
non-empty prefix, which is then handed out in order by the agent that booked it (a stealer,
or a `Drain`). The slots of a booking are given back only when it is finished, so `held`
counts with the stored items against the capacity.

Every call is a visible event, its effect is one internal step some time later, and its
result is a visible event again: a queue all of whose traces are traces of this object is
linearizable.
-/

namespace St3.Deque

/-- `StealError`. -/
inductive StealError
  | empty
  | busy
  deriving DecidableEq, Repr

/-- Which end `pop` takes from. -/
inductive Flavour
  | lifo
  | fifo
  deriving DecidableEq, Repr

/-- What the owner of the queue calls. `receive` is a steal from another queue into this
one, by `steal` or by `steal_and_pop`. -/
inductive Op (T : Type*)
  | push (x : T)
  | extend
  | pop
  | spareCapacity
  | isEmpty
  | receive (andPop : Bool)
  | drain
  deriving DecidableEq, Repr

/-- What the calls of the owner return. -/
inductive Res (T A : Type*)
  | pushOk
  | pushErr (x : T)
  | extended
  | popped (o : Option T)
  | spare (n : ℕ)
  | isEmpty (b : Bool)
  | received (n : ℕ)
  | receiveErr (e : StealError)
  | drained (a : A)
  | drainErr (e : StealError)
  deriving DecidableEq, Repr

/-- What an agent calls: a stealer steals into another queue, a `Drain` is asked for its next
item or dropped. -/
inductive Task
  | steal (andPop : Bool)
  | next
  | drop
  deriving DecidableEq, Repr

/-- What the calls of an agent return. -/
inductive TaskRes (T : Type*)
  | stole (n : ℕ)
  | stoleAndPopped (x : T) (n : ℕ)
  | stealErr (e : StealError)
  | yielded (o : Option T)
  | dropped
  deriving DecidableEq, Repr

/-- The visible events. `pull` is a call of the iterator of `extend`, `arrive` an item copied
in from another queue, `deliver` an item an agent has taken out, `forget` a `Drain` that is
leaked, or whose drop a panic has cut short. -/
inductive Event (T A : Type*)
  | call (op : Op T)
  | ret (r : Res T A)
  | pull (o : Option T)
  | arrive (x : T)
  | start (a : A) (t : Task)
  | deliver (a : A) (x : T)
  | finish (a : A) (r : TaskRes T)
  | forget (a : A)
  deriving DecidableEq, Repr

/-- Where the owner stands. -/
inductive OwnerSt (T A : Type*)
  | idle
  | called (op : Op T)
  /-- `extend` has found `room` free slots and pulled `got` so far. -/
  | extending (room : ℕ) (got : List T)
  /-- A steal into this queue has found `room` free slots. -/
  | receiving (andPop : Bool) (room : ℕ)
  /-- `n` items were booked elsewhere, of which `got` have arrived. -/
  | arriving (n : ℕ) (got : List T)
  /-- The items to append, and the result to return then. -/
  | storing (got : List T) (r : Res T A)
  | done (r : Res T A)

/-- Where an agent stands. The flag of `pulling` and `pulled` says whether the `Drain` is
being dropped. -/
inductive AgentSt (T : Type*)
  | idle
  | booking (andPop : Bool)
  | moving (andPop : Bool) (n : ℕ)
  | releasing (r : TaskRes T)
  | done (r : TaskRes T)
  | draining
  | pulling (dropping : Bool)
  | lastPulled (dropping : Bool) (x : T)
  | pulled (dropping : Bool) (o : Option T)

/-- Who has the booking that is under way; it is lost with a leaked `Drain`. -/
inductive Holder (A : Type*)
  | free
  | agent (a : A)
  | lost

structure St (T A : Type*) where
  stored : List T
  /-- Booked and not handed out yet. -/
  lent : List T
  /-- Slots that the booking under way has not given back. -/
  held : ℕ
  holder : Holder A
  owner : OwnerSt T A
  agent : A → AgentSt T
  /-- Every item that was ever appended. -/
  entered : List T
  /-- Every item that was ever handed out. -/
  given : List T

variable {T A : Type*}

def St.append (s : St T A) (xs : List T) : St T A :=
  { s with stored := s.stored ++ xs, entered := s.entered ++ xs }

/-- Booking the first `n` items. -/
def St.book (s : St T A) (a : A) (n : ℕ) : St T A :=
  { s with stored := s.stored.drop n, lent := s.stored.take n, held := n, holder := .agent a }

/-- Handing out the first booked item. -/
def St.give (s : St T A) (x : T) (rest : List T) : St T A :=
  { s with lent := rest, given := s.given ++ [x] }

def St.release (s : St T A) : St T A := { s with held := 0, holder := .free }

/-- `fl.Takes l x rest`: `pop` on `l` takes `x` and leaves `rest`. -/
def Flavour.Takes : Flavour → List T → T → List T → Prop
  | .lifo, l, x, rest => l = rest ++ [x]
  | .fifo, l, x, rest => l = x :: rest

/-- The slots a pop leaves to the booking under way: a FIFO pop takes its item from behind
the booked ones, and the stealer's head passes over both at once. -/
def Flavour.heldAfterPop : Flavour → ℕ → ℕ
  | .lifo, h => h
  | .fifo, h => if h = 0 then 0 else h + 1

def St.room (s : St T A) (cap : ℕ) : ℕ := cap - (s.held + s.stored.length)

/-- Nothing is lost, invented or handed out twice. -/
def Balanced (s : St T A) : Prop :=
  (s.given ++ s.lent ++ s.stored).Perm s.entered ∧ (s.holder = .free → s.lent = [])

lemma Balanced.append {s : St T A} (h : Balanced s) (xs : List T) : Balanced (s.append xs) := by
  refine ⟨?_, h.2⟩
  simp only [St.append, ← List.append_assoc]
  exact h.1.append_right xs

lemma Balanced.book {s : St T A} (h : Balanced s) (hb : s.holder = .free) (a : A) (n : ℕ) :
    Balanced (s.book a n) := by
  refine ⟨?_, by simp [St.book]⟩
  have hp := h.1
  rw [h.2 hb, List.append_nil] at hp
  simpa only [St.book, List.append_assoc, List.take_append_drop] using hp

lemma Balanced.give {s : St T A} (h : Balanced s) {a : A} {x : T} {rest : List T}
    (hb : s.holder = .agent a) (hl : s.lent = x :: rest) : Balanced (s.give x rest) := by
  refine ⟨?_, by simp [St.give, hb]⟩
  have hp := h.1
  rw [hl] at hp
  simpa [St.give] using hp

lemma Balanced.release {s : St T A} (h : Balanced s) (hl : s.lent = []) : Balanced s.release :=
  ⟨h.1, fun _ => hl⟩

lemma Flavour.Takes.perm {fl : Flavour} {l rest : List T} {x : T} (h : fl.Takes l x rest) :
    (x :: rest).Perm l := by
  cases fl <;> cases h
  · exact (List.perm_append_singleton x rest).symm
  · exact .rfl

/-! ### The steps -/

variable [DecidableEq A]

def St.setAgent (s : St T A) (a : A) (p : AgentSt T) : St T A :=
  { s with agent := Function.update s.agent a p }

inductive Step (fl : Flavour) (cap : ℕ) : St T A → Option (Event T A) → St T A → Prop
  | call {s} (op : Op T) (h : s.owner = .idle) :
      Step fl cap s (some (.call op)) { s with owner := .called op }
  | ret {s} {r : Res T A} (h : s.owner = .done r) :
      Step fl cap s (some (.ret r)) { s with owner := .idle }
  | pushOk {s} {x : T} (h : s.owner = .called (.push x)) (hlt : s.held + s.stored.length < cap) :
      Step fl cap s none { s.append [x] with owner := .done .pushOk }
  | pushFull {s} {x : T} (h : s.owner = .called (.push x))
      (hfull : s.held + s.stored.length = cap) :
      Step fl cap s none { s with owner := .done (.pushErr x) }
  | pop {s} {x : T} {rest : List T} (h : s.owner = .called .pop)
      (ht : fl.Takes s.stored x rest) :
      Step fl cap s none { s with
        stored := rest, held := fl.heldAfterPop s.held, given := s.given ++ [x],
        owner := .done (.popped (some x)) }
  | popNone {s} (h : s.owner = .called .pop) (he : s.stored = []) :
      Step fl cap s none { s with owner := .done (.popped none) }
  | spare {s} (h : s.owner = .called .spareCapacity) :
      Step fl cap s none { s with owner := .done (.spare (s.room cap)) }
  | isEmpty {s} (h : s.owner = .called .isEmpty) :
      Step fl cap s none { s with owner := .done (.isEmpty (s.stored.isEmpty)) }
  | lookExtend {s} (h : s.owner = .called .extend) :
      Step fl cap s none { s with owner := .extending (s.room cap) [] }
  | pull {s} {room : ℕ} {got : List T} {x : T} (h : s.owner = .extending room got)
      (hlt : got.length < room) :
      Step fl cap s (some (.pull (some x))) { s with owner := .extending room (got ++ [x]) }
  | pullFull {s} {room : ℕ} {got : List T} {x : T} (h : s.owner = .extending room got)
      (hfull : got.length = room) :
      Step fl cap s (some (.pull (some x))) { s with owner := .storing got .extended }
  | pullEnd {s} {room : ℕ} {got : List T} (h : s.owner = .extending room got) :
      Step fl cap s (some (.pull none)) { s with owner := .storing got .extended }
  | store {s} {got : List T} {r : Res T A} (h : s.owner = .storing got r) :
      Step fl cap s none { s.append got with owner := .done r }
  | lookReceive {s} {m : Bool} (h : s.owner = .called (.receive m)) :
      Step fl cap s none { s with owner := .receiving m (s.room cap) }
  | receiveErr {s} {m : Bool} {room : ℕ} (e : StealError) (h : s.owner = .receiving m room) :
      Step fl cap s none { s with owner := .done (.receiveErr e) }
  | receive {s} {m : Bool} {room : ℕ} (n : ℕ) (h : s.owner = .receiving m room) (hn : n ≤ room)
      (h0 : m = false → 0 < n) :
      Step fl cap s none { s with owner := .arriving n [] }
  | arrive {s} {n : ℕ} {got : List T} {x : T} (h : s.owner = .arriving n got)
      (hlt : got.length < n) :
      Step fl cap s (some (.arrive x)) { s with owner := .arriving n (got ++ [x]) }
  | arrived {s} {n : ℕ} {got : List T} (h : s.owner = .arriving n got) (hn : got.length = n) :
      Step fl cap s none { s with owner := .storing got (.received n) }
  | drainErr {s} (e : StealError) (h : s.owner = .called .drain) :
      Step fl cap s none { s with owner := .done (.drainErr e) }
  | drain {s} {a : A} {n : ℕ} (h : s.owner = .called .drain) (ha : s.agent a = .idle)
      (hb : s.holder = .free) (h0 : 0 < n) (hn : n ≤ s.stored.length) :
      Step fl cap s none { (s.book a n).setAgent a .draining with owner := .done (.drained a) }
  | steal {s} {a : A} (m : Bool) (h : s.agent a = .idle) :
      Step fl cap s (some (.start a (.steal m))) (s.setAgent a (.booking m))
  | stealErr {s} {a : A} {m : Bool} (e : StealError) (h : s.agent a = .booking m) :
      Step fl cap s none (s.setAgent a (.done (.stealErr e)))
  | book {s} {a : A} {m : Bool} {n : ℕ} (h : s.agent a = .booking m) (hb : s.holder = .free)
      (h0 : 0 < n) (hn : n ≤ s.stored.length) :
      Step fl cap s none ((s.book a n).setAgent a (.moving m 0))
  | deliver {s} {a : A} {m : Bool} {n : ℕ} {x : T} {rest : List T} (h : s.agent a = .moving m n)
      (hb : s.holder = .agent a) (hl : s.lent = x :: rest) (hm : m = true → rest ≠ []) :
      Step fl cap s (some (.deliver a x)) ((s.give x rest).setAgent a (.moving m (n + 1)))
  | last {s} {a : A} {n : ℕ} {x : T} (h : s.agent a = .moving true n)
      (hb : s.holder = .agent a) (hl : s.lent = [x]) :
      Step fl cap s none ((s.give x []).setAgent a (.releasing (.stoleAndPopped x n)))
  | moved {s} {a : A} {n : ℕ} (h : s.agent a = .moving false n) (hb : s.holder = .agent a)
      (hl : s.lent = []) :
      Step fl cap s none (s.setAgent a (.releasing (.stole n)))
  | release {s} {a : A} {r : TaskRes T} (h : s.agent a = .releasing r)
      (hb : s.holder = .agent a) (hl : s.lent = []) :
      Step fl cap s none (s.release.setAgent a (.done r))
  | finish {s} {a : A} {r : TaskRes T} (h : s.agent a = .done r) :
      Step fl cap s (some (.finish a r)) (s.setAgent a .idle)
  | next {s} {a : A} (h : s.agent a = .draining) :
      Step fl cap s (some (.start a .next)) (s.setAgent a (.pulling false))
  | drop {s} {a : A} (h : s.agent a = .draining) :
      Step fl cap s (some (.start a .drop)) (s.setAgent a (.pulling true))
  | nextNone {s} {a : A} {d : Bool} (h : s.agent a = .pulling d) (hb : s.holder ≠ .agent a) :
      Step fl cap s none (s.setAgent a (.pulled d none))
  | nextSome {s} {a : A} {d : Bool} {x : T} {rest : List T} (h : s.agent a = .pulling d)
      (hb : s.holder = .agent a) (hl : s.lent = x :: rest) (hr : rest ≠ []) :
      Step fl cap s none ((s.give x rest).setAgent a (.pulled d (some x)))
  | nextLast {s} {a : A} {d : Bool} {x : T} (h : s.agent a = .pulling d)
      (hb : s.holder = .agent a) (hl : s.lent = [x]) :
      Step fl cap s none ((s.give x []).setAgent a (.lastPulled d x))
  | releaseLast {s} {a : A} {d : Bool} {x : T} (h : s.agent a = .lastPulled d x)
      (hb : s.holder = .agent a) (hl : s.lent = []) :
      Step fl cap s none (s.release.setAgent a (.pulled d (some x)))
  | yielded {s} {a : A} {o : Option T} (h : s.agent a = .pulled false o) :
      Step fl cap s (some (.finish a (.yielded o))) (s.setAgent a .draining)
  | dropItem {s} {a : A} {x : T} (h : s.agent a = .pulled true (some x)) :
      Step fl cap s (some (.deliver a x)) (s.setAgent a (.pulling true))
  | dropped {s} {a : A} (h : s.agent a = .pulled true none) :
      Step fl cap s (some (.finish a .dropped)) (s.setAgent a .idle)
  | forget {s} {a : A} (h : s.agent a = .draining ∨ s.agent a = .pulling true)
      (hb : s.holder ≠ .agent a) :
      Step fl cap s (some (.forget a)) (s.setAgent a .idle)
  | leak {s} {a : A} (h : s.agent a = .draining ∨ s.agent a = .pulling true)
      (hb : s.holder = .agent a) :
      Step fl cap s (some (.forget a)) ({ s with holder := .lost }.setAgent a .idle)

def init : St T A where
  stored := []
  lent := []
  held := 0
  holder := .free
  owner := .idle
  agent := fun _ => .idle
  entered := []
  given := []

def lts (fl : Flavour) (cap : ℕ) : Lts (St T A) (Event T A) where
  init := (· = init)
  step := Step fl cap

lemma Step.balanced {fl : Flavour} {cap : ℕ} {s s' : St T A} {l : Option (Event T A)}
    (h : Step fl cap s l s') (hs : Balanced s) : Balanced s' := by
  cases h with
  | pushOk => exact hs.append _
  | store => exact hs.append _
  | drain _ _ hb => exact hs.book hb _ _
  | book _ hb => exact hs.book hb _ _
  | deliver _ hb hl => exact hs.give hb hl
  | last _ hb hl => exact hs.give hb hl
  | nextSome _ hb hl => exact hs.give hb hl
  | nextLast _ hb hl => exact hs.give hb hl
  | release _ _ hl => exact hs.release hl
  | releaseLast _ _ hl => exact hs.release hl
  | leak => exact ⟨hs.1, by simp [St.setAgent]⟩
  | @pop x rest _ ht =>
    refine ⟨?_, hs.2⟩
    have hp := hs.1
    have hx : (s.given ++ [x] ++ s.lent ++ rest).Perm (s.given ++ s.lent ++ x :: rest) := by
      simp only [List.append_assoc, List.singleton_append]
      exact List.Perm.append_left _ List.perm_middle.symm
    exact (hx.trans (ht.perm.append_left _)).trans hp
  | _ => exact hs

/-- **Every item exactly once**: in every run, what entered is what was handed out, what is
booked and what is stored. -/
theorem balanced_of_reaches {fl : Flavour} {cap : ℕ} {tr : List (Event T A)} {s : St T A}
    (h : (lts fl cap).Reaches tr s) : Balanced s := by
  refine Lts.Reaches.invariant Balanced ?_ (fun _ hs h => Step.balanced h hs) h
  rintro s rfl
  exact ⟨.rfl, fun _ => rfl⟩

end St3.Deque
