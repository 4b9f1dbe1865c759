import St3.Owner
import Mathlib.Algebra.BigOperators.Group.Finset.Basic
import Mathlib.Data.Fintype.Basic

/-!
Calls that run foreign code: the iterator of `extend` and the `count_fn` of a steal or a drain,
which may call anything on any queue before they answer, in the same thread.

`Run c₀ s₀ c s` says that a call that was in `c₀` at `s₀` is in `c` at `s`, with the foreign code
in between: it pushes and pops, moves on the `Drain`s it has, and makes further calls that run
foreign code of their own. A call is calm if, while its foreign code ran, the queue it fills was
left as it had loaded it; of the calls inside a run all are.
-/

namespace St3.Foreign

open Words Slots Deque Transfer Alone

universe u

variable {w : ℕ} {T : Type u}

/-- A `Drain` that has items left. -/
structure Drain (w : ℕ) where
  fromHead : BitVec w
  current : BitVec w
  fin : BitVec w
  deriving DecidableEq

/-- The queues of a thread, the addresses of their buffers, and its `Drain`s. The unbounded
positions that the words of the queues stand for, and the lists of what was pushed and what was
handed out, are for the proofs only; an item read where there is none is handed out as `none`. -/
structure St (F : Owner w T) (ι : Type*) where
  addr : ι → ℕ
  queue : ι → F.Queue
  drains : ι → List (Drain w)
  ring : ι → Ring
  pushed : List T
  delivered : List (Option T)

/-- The item at a position, if there is one. -/
def item (buf : List (Slot T)) (mask pos : BitVec w) : Option T :=
  buf[slotIdx pos mask]?.bind Slot.item?

variable {F : Owner w T} {ι : Type*} [DecidableEq ι]

/-! ### What foreign code does at once -/

namespace St

def push (i : ι) (x : T) (s : St F ι) : St F ι :=
  let q := s.queue i
  let v := F.keep q
  if F.mask q < F.tail v - F.head v then s
  else
    let buf := writeAt (F.buffer q) (F.mask q) (F.tail v) x
    { s with
      queue := Function.update s.queue i (F.publish v 1#w (F.setBuffer buf q))
      ring := Function.update s.ring i { s.ring i with pushes := (s.ring i).pushes + 1 }
      pushed := s.pushed ++ [x] }

def pop (i : ι) (s : St F ι) : St F ι :=
  match F.claim (s.queue i) with
  | none => s
  | some (pos, q) =>
    let buf := (readAt (F.buffer q) (F.mask q) pos).2
    { s with
      queue := Function.update s.queue i (F.setBuffer buf q)
      ring := Function.update s.ring i ((s.ring i).pop F.tailPops)
      delivered := s.delivered ++ [item (F.buffer q) (F.mask q) pos] }

/-- `next` on one of the `Drain`s; one that is at its end is forgotten. `none` is the failed
assertion on the heads. -/
def next (i : ι) (m : ℕ) (s : St F ι) : Option (St F ι) :=
  match (s.drains i)[m]? with
  | none => some s
  | some d =>
    let q := s.queue i
    let q₁ := F.setBuffer (readAt (F.buffer q) (F.mask q) d.current).2 q
    let out := s.delivered ++ [item (F.buffer q) (F.mask q) d.current]
    if d.current + 1#w = d.fin then
      (F.release d.fromHead d.fin q₁).map fun q₂ =>
        { s with
          queue := Function.update s.queue i q₂
          drains := Function.update s.drains i ((s.drains i).eraseIdx m)
          ring := Function.update s.ring i { s.ring i with stealer := (s.ring i).front }
          delivered := out }
    else
      some { s with
        queue := Function.update s.queue i q₁
        drains := Function.update s.drains i
          ((s.drains i).set m { d with current := d.current + 1#w })
        delivered := out }

end St

/-! ### Calls -/

/-- What a call that books items does with them, with what it has loaded of its destination, the
positions of that time and the free capacity it computed. -/
inductive Taker (F : Owner w T) (ι : Type*)
  | drain
  | steal (andPop : Bool) (dst : ι) (kept : F.Kept) (dest : Ring) (free : BitVec w)

namespace Taker

def maxCount : Taker F ι → BitVec w
  | drain => BitVec.allOnes w
  | steal andPop _ _ _ free => free + BitVec.ofNat w andPop.toNat

/-- The count that is booked where `count_fn` answers `want`. -/
def count (t : Taker F ι) (want : ℕ) (itemCount : BitVec w) : BitVec w :=
  bookCount want t.maxCount itemCount

def Opens (s : St F ι) : Taker F ι → Prop
  | drain => True
  | steal _ dst kept dest free => kept = F.keep (s.queue dst) ∧ dest = s.ring dst ∧
      free = F.capacity (s.queue dst) - (F.tail kept - F.head kept)

end Taker

/-- Where the foreign code runs: in no call, in the iterator of an `extend` that has stored the
items `xs`, or in the `count_fn` of a call that started with the positions `start`. -/
inductive Frame (F : Owner w T) (ι : Type*)
  | program
  | extend (i : ι) (kept : F.Kept) (start : Ring) (xs : List T) (full : Bool)
  | count (src : ι) (t : Taker F ι) (start : Ring) (l : F.Look) (itemCount : BitVec w)

/-- The call has made its loads and comes to its foreign code for the first time. -/
def Frame.Opens (s : St F ι) : Frame F ι → Prop
  | program => True
  | extend i kept start xs full => kept = F.keep (s.queue i) ∧ start = s.ring i ∧ xs = [] ∧
      full = false
  | count src t start l itemCount => t.Opens s ∧ start = s.ring src ∧ l = F.look (s.queue src) ∧
      F.test l (s.queue src) = .ok itemCount

namespace St

/-- `extend` stores an item. -/
def store (i : ι) (pos : BitVec w) (x : T) (s : St F ι) : St F ι :=
  let q := s.queue i
  { s with
    queue := Function.update s.queue i (F.setBuffer (writeAt (F.buffer q) (F.mask q) pos x) q) }

/-- The end of `extend`. -/
def extendEnd (i : ι) (kept : F.Kept) (start : Ring) (xs : List T) (s : St F ι) : St F ι :=
  { s with
    queue := Function.update s.queue i
      (F.extendStore kept (F.tail kept + word w xs.length) (s.queue i))
    ring := Function.update s.ring i { s.ring i with pushes := start.pushes + xs.length }
    pushed := s.pushed ++ xs }

/-- A booking has succeeded. -/
def book (src : ι) (n : BitVec w) (q : F.Queue) (s : St F ι) : St F ι :=
  { s with
    queue := Function.update s.queue src q
    ring := Function.update s.ring src { s.ring src with front := (s.ring src).front + n.toNat } }

/-- The end of `drain`. -/
def drainEnd (src : ι) (l : F.Look) (n : BitVec w) (s : St F ι) : St F ι :=
  { s with
    drains := Function.update s.drains src
      (s.drains src ++ [⟨F.first l, F.first l, F.first l + n⟩]) }

/-- The transfer of a steal, of `n` items, comes past the assertion on its chunks. -/
def Passes (src dst : ι) (kept : F.Kept) (l : F.Look) (n : ℕ) (s : St F ι) : Prop :=
  Transfer.Passes s.addr src (F.mask (s.queue src)) (F.first l) dst (F.mask (s.queue dst))
    (F.tail kept) n

instance (src dst : ι) (kept : F.Kept) (l : F.Look) (n : ℕ) (s : St F ι) :
    Decidable (s.Passes src dst kept l n) :=
  inferInstanceAs (Decidable (Transfer.Passes ..))

/-- The end of `steal` and `steal_and_pop`, after the booking. -/
def stealEnd (andPop : Bool) (src dst : ι) (kept : F.Kept) (dest : Ring) (free : BitVec w)
    (l : F.Look) (n : BitVec w) (s : St F ι) : Option (St F ι) :=
  let p : F.Plan := ⟨kept, F.first l, n, n - BitVec.ofNat w andPop.toNat⟩
  if p.transferCount ≤ free then
    (F.moveOut s.addr src dst p s.queue).bind fun σ =>
      let q := σ src
      let pos := p.first + p.transferCount
      let buf := (readAt (F.buffer q) (F.mask q) pos).2
      (F.finish src dst p (if andPop then Function.update σ src (F.setBuffer buf q) else σ)).map
        fun σ' =>
          let ring := Function.update s.ring dst
            { s.ring dst with pushes := dest.pushes + p.transferCount.toNat }
          { s with
            queue := σ'
            ring := Function.update ring src { ring src with stealer := (ring src).front }
            delivered := s.delivered ++
              if andPop then [item (F.buffer q) (F.mask q) pos] else [] }
  else none

end St

/-- A call that books items returns an error. -/
inductive Fails : Frame F ι → St F ι → Prop
  | zero {src t start l itemCount s} (want : ℕ) (h : t.count want itemCount = 0#w) :
      Fails (.count src t start l itemCount) s
  | retry {src t start l itemCount s} (want : ℕ) (e : StealError)
      (hn : t.count want itemCount ≠ 0#w)
      (h : F.test (F.relook l (s.queue src)) (s.queue src) = .error e) :
      Fails (.count src t start l itemCount) s

/-- A call returns, having added some number of items to the queue it fills. -/
inductive Completes : Frame F ι → St F ι → ℕ → St F ι → Prop
  | extend {i kept start xs full s} :
      Completes (.extend i kept start xs full) s xs.length (s.extendEnd i kept start xs)
  | drain {src start l itemCount s q} (want : ℕ) (n : BitVec w)
      (h : (Taker.drain : Taker F ι).count want itemCount = n) (hn : n ≠ 0#w)
      (hc : F.cas l n (s.queue src) = some q) :
      Completes (.count src .drain start l itemCount) s 0 ((s.book src n q).drainEnd src l n)
  | steal {andPop src dst kept dest free start l itemCount s q s'} (want : ℕ) (n : BitVec w)
      (h : (Taker.steal andPop dst kept dest free).count want itemCount = n) (hn : n ≠ 0#w)
      (hc : F.cas l n (s.queue src) = some q)
      (he : (s.book src n q).stealEnd andPop src dst kept dest free l n = some s') :
      Completes (.count src (.steal andPop dst kept dest free) start l itemCount) s
        (n - BitVec.ofNat w andPop.toNat).toNat s'

/-- Nothing was added to a queue that `n` items are added to, and if there is any, nothing was
popped at its tail. -/
def Still (start r : Ring) (n : ℕ) : Prop :=
  r.pushes = start.pushes ∧ (r.pops = start.pops ∨ n = 0)

/-- Less than a full turn of the positions. -/
def Timely (w : ℕ) (start r : Ring) : Prop :=
  r.pops < start.pops + 2 ^ w ∧ r.front < start.stealer + 2 ^ w

/-- A call that adds `n` items to the queue it fills finds it as it had loaded it. -/
def Calm (s : St F ι) (n : ℕ) : Frame F ι → Prop
  | .program => True
  | .extend i _ start _ _ => Still start (s.ring i) n
  | .count src .drain start _ _ => Timely w start (s.ring src)
  | .count src (.steal _ dst _ dest _) start _ _ =>
      Timely w start (s.ring src) ∧ Still dest (s.ring dst) n

inductive Run : Frame F ι → St F ι → Frame F ι → St F ι → Prop
  | refl (c : Frame F ι) (s : St F ι) : Run c s c s
  | push {c₀ s₀ c s} (r : Run c₀ s₀ c s) (i : ι) (x : T) : Run c₀ s₀ c (s.push i x)
  | pop {c₀ s₀ c s} (r : Run c₀ s₀ c s) (i : ι) : Run c₀ s₀ c (s.pop i)
  | next {c₀ s₀ c s s'} (r : Run c₀ s₀ c s) (i : ι) (m : ℕ) (h : s.next i m = some s') :
      Run c₀ s₀ c s'
  /-- The iterator yields an item. -/
  | item {c₀ s₀ i kept start xs s} (r : Run c₀ s₀ (.extend i kept start xs false) s) (x : T)
      (h : F.tail kept + word w xs.length ≠ F.head kept + F.capacity (s.queue i)) :
      Run c₀ s₀ (.extend i kept start (xs ++ [x]) false)
        (s.store i (F.tail kept + word w xs.length) x)
  /-- The iterator yields an item in excess, which is dropped. -/
  | excess {c₀ s₀ i kept start xs s} (r : Run c₀ s₀ (.extend i kept start xs false) s)
      (h : F.tail kept + word w xs.length = F.head kept + F.capacity (s.queue i)) :
      Run c₀ s₀ (.extend i kept start xs true) s
  /-- A compare-exchange fails, and `count_fn` is called again. -/
  | retry {c₀ s₀ src t start l itemCount itemCount' s}
      (r : Run c₀ s₀ (.count src t start l itemCount) s) (want : ℕ)
      (hn : t.count want itemCount ≠ 0#w)
      (h : F.test (F.relook l (s.queue src)) (s.queue src) = .ok itemCount') :
      Run c₀ s₀ (.count src t start (F.relook l (s.queue src)) itemCount') s
  /-- The foreign code makes a call, which fails. -/
  | fail {c₀ s₀ c s c₁ c₂ s₂} (r : Run c₀ s₀ c s) (ho : c₁.Opens s) (r' : Run c₁ s c₂ s₂)
      (h : Fails c₂ s₂) : Run c₀ s₀ c s₂
  /-- The foreign code makes a call, which is calm. -/
  | call {c₀ s₀ c s c₁ c₂ s₂ n s₃} (r : Run c₀ s₀ c s) (ho : c₁.Opens s) (r' : Run c₁ s c₂ s₂)
      (h : Completes c₂ s₂ n s₃) (hc : Calm s₂ n c₂) : Run c₀ s₀ c s₃

/-! ### What should hold when a call returns -/

/-- The items at the `n` positions from `pos` on. -/
def items (q : F.Queue) (pos : BitVec w) (n : ℕ) : List (Option T) :=
  (List.range n).map fun j => item (F.buffer q) (F.mask q) (pos + word w j)

/-- The number of items that the queue computes. -/
def available (q : F.Queue) : BitVec w := F.tail (F.keep q) - F.front q

/-- What a queue has: the items that its `Drain`s have left, and those that are available. -/
def held (q : F.Queue) (ds : List (Drain w)) : Multiset (Option T) :=
  ↑((ds.flatMap fun d => items q d.current (d.fin - d.current).toNat) ++
    items q (F.front q) (available q).toNat)

/-- Every queue computes a count of items between 0 and its capacity, it has an item that was not
moved out wherever it should, and each item that was pushed or extended was handed out or is
stored, once. -/
structure St.Sound [Fintype ι] (s : St F ι) : Prop where
  count : ∀ i, available (s.queue i) ≤ F.capacity (s.queue i)
  live : ∀ i, none ∉ held (s.queue i) (s.drains i)
  once : ((s.pushed.map some : List (Option T)) : Multiset (Option T)) =
    s.delivered + ∑ i, held (s.queue i) (s.drains i)

end St3.Foreign
