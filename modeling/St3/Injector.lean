import St3.Unbounded
import St3.Slots

/-!
The injector, one atomic access or slot access per step.

An index counts positions, `lap` of them to a block: `blockCap` slots and one position where
the index is parked while the next block is installed. Its lowest bit is `HAS_NEXT`. The
blocks are numbered in the order in which they are linked; a block that was freed is never
touched again unless something goes wrong, which `fault` records.

`headPos`, `tailPos` and the `sweep` of a block are no part of the code: they follow the
unbounded positions of the two indices, and how far the destruction of the block has come. Nor
is the mark in the trace that a call was lapped.
-/

namespace St3.Injector

open Unbounded

variable {w : ℕ} {T A : Type*}

/-- `LAP`. -/
abbrev lap : ℕ := 32

/-- `BLOCK_CAP`. -/
abbrev blockCap : ℕ := 31

structure Slot (T : Type*) where
  value : Slots.Slot T
  write : Bool
  read : Bool
  destroy : Bool

structure Block (T : Type*) where
  next : Option ℕ
  slot : ℕ → Slot T
  freed : Bool
  /-- The first slot that the destruction has not passed, once it has begun. -/
  sweep : Option ℕ

/-- `Block::new`, all zero. -/
def Block.new : Block T := ⟨none, fun _ => ⟨.uninit, false, false, false⟩, false, none⟩

/-- A load of an index, and the position it shows. -/
structure Snap (w : ℕ) where
  index : BitVec w
  pos : ℕ
  deriving DecidableEq

/-- The next access of a thread. `next` says whether `push` has allocated a spare block. -/
inductive Pc (w : ℕ) (T : Type*)
  | idle
  | ret (r : Res T)
  | pushLoadIndex (x : T) (next : Bool)
  | pushLoadBlock (x : T) (next : Bool) (tail : Snap w)
  | pushInstall (x : T) (next : Bool) (tail : Snap w)
  | pushStoreHead (x : T) (next : Bool) (tail : Snap w) (new : ℕ)
  | pushCas (x : T) (next : Bool) (tail : Snap w) (block : ℕ)
  | pushStoreBlock (x : T) (next : Bool) (newTail : BitVec w) (block : ℕ)
  | pushStoreIndex (x : T) (nextIndex : BitVec w) (block nextBlock : ℕ)
  | pushStoreNext (x : T) (block nextBlock : ℕ)
  | pushWrite (x : T) (block offset : ℕ)
  | pushMark (x : T) (block offset : ℕ)
  | popLoadIndex
  | popLoadBlock (head : Snap w)
  | popLoadTail (head : Snap w) (block : Option ℕ)
  | popCas (head : Snap w) (newHead : BitVec w) (block : ℕ)
  | popWaitNext (newHead : BitVec w) (block : ℕ)
  | popLoadNext (newHead : BitVec w) (block next : ℕ)
  | popStoreBlock (nextIndex : BitVec w) (block next : ℕ)
  | popStoreIndex (nextIndex : BitVec w) (block : ℕ)
  | popWaitWrite (block offset : ℕ)
  | popRead (block offset : ℕ)
  | popMark (x : T) (block offset : ℕ)
  | destroyLoad (x : T) (block i : ℕ)
  | destroyOr (x : T) (block i : ℕ)
  | emptyLoadHead
  | emptyLoadTail (head : Snap w)
  deriving DecidableEq

structure St (w : ℕ) (T A : Type*) where
  headIndex : BitVec w
  tailIndex : BitVec w
  headBlock : Option ℕ
  tailBlock : Option ℕ
  block : ℕ → Block T
  /-- How many blocks were linked so far. -/
  count : ℕ
  thread : A → Pc w T
  /-- A freed block was touched, a slot was read that held no value or written that did, or a
  spare block was missing. -/
  fault : Bool
  headPos : ℕ
  tailPos : ℕ

/-! ### Index arithmetic -/

/-- `(index >> SHIFT) % LAP`. -/
def offset (index : BitVec w) : ℕ := (index >>> 1).toNat % lap

/-- `(index >> SHIFT) / LAP`. -/
def lapOf (index : BitVec w) : ℕ := (index >>> 1).toNat / lap

/-- `1 << SHIFT`. -/
def one (w : ℕ) : BitVec w := 2

def hasNext (index : BitVec w) : Bool := index.getLsbD 0

/-- `index | HAS_NEXT`. -/
def setHasNext (index : BitVec w) : BitVec w := index ||| 1

/-- `index & !HAS_NEXT`. -/
def clearHasNext (index : BitVec w) : BitVec w := index &&& ~~~1

/-! ### Accesses -/

def St.headSnap (s : St w T A) : Snap w := ⟨s.headIndex, s.headPos⟩
def St.tailSnap (s : St w T A) : Snap w := ⟨s.tailIndex, s.tailPos⟩

def St.slot (s : St w T A) (b i : ℕ) : Slot T := (s.block b).slot i

/-- An access to a block, which must not have been freed. -/
def St.touch (s : St w T A) (b : ℕ) : St w T A :=
  { s with fault := s.fault || (s.block b).freed }

lemma touch_eq {s : St w T A} {b : ℕ} (hf : (s.block b).freed = false) : s.touch b = s := by
  simp [St.touch, hf]

def St.setBlock (s : St w T A) (b : ℕ) (d : Block T) : St w T A :=
  { s with block := Function.update s.block b d }

def St.setSlot (s : St w T A) (b i : ℕ) (d : Slot T) : St w T A :=
  s.setBlock b { s.block b with slot := Function.update (s.block b).slot i d }

def St.setSweep (s : St w T A) (b i : ℕ) : St w T A :=
  s.setBlock b { s.block b with sweep := some i }

/-- The head of the loop of `push`, on a fresh load of index and block. -/
def pushCheck (x : T) (next : Bool) (tail : Snap w) (block : Option ℕ) : Pc w T :=
  if offset tail.index = blockCap then .pushLoadIndex x next
  else
    let next := next || decide (offset tail.index + 1 = blockCap)
    match block with
    | none => .pushInstall x next tail
    | some b => .pushCas x next tail b

/-- The test of `pop` for a missing first block. -/
def popReady (head : Snap w) (newHead : BitVec w) : Option ℕ → Pc w T
  | none => .popLoadIndex
  | some b => .popCas head newHead b

/-- The head of the loop of `pop`, on a fresh load of index and block. -/
def popCheck (head : Snap w) (block : Option ℕ) : Pc w T :=
  if offset head.index = blockCap then .popLoadIndex
  else if hasNext (head.index + one w) = false then .popLoadTail head block
  else popReady head (head.index + one w) block

variable [DecidableEq A]

def St.setThread (s : St w T A) (a : A) (p : Pc w T) : St w T A :=
  { s with thread := Function.update s.thread a p }

def start : Op T → Pc w T
  | .push x => .pushLoadIndex x false
  | .pop => .popLoadIndex
  | .isEmpty => .emptyLoadHead

/-- The tail that a call holds its load of the head against is a full turn or more ahead of it. -/
def St.lapped (s : St w T A) (a : A) (head : Snap w) : Option (Event T A) :=
  if s.tailPos < head.pos + 2 ^ (w - 1) then none else some (.lapped a)

/-- The next access of thread `a`; a weak compare-exchange may fail. -/
def threadStep (spurious : Bool) (a : A) (s : St w T A) :
    Option (St w T A × Option (Event T A)) :=
  let go (p : Pc w T) := some (s.setThread a p, none)
  match s.thread a with
  | .idle => none
  | .ret r => some (s.setThread a .idle, some (.ret a r))
  -- `push`
  | .pushLoadIndex x next => go (.pushLoadBlock x next s.tailSnap)
  | .pushLoadBlock x next tail => go (pushCheck x next tail s.tailBlock)
  | .pushInstall x next tail =>
    match s.tailBlock with
    | none =>
      some ({ s with tailBlock := some s.count, count := s.count + 1 }.setThread a
        (.pushStoreHead x next tail s.count), none)
    | some _ => go (.pushLoadIndex x true)
  | .pushStoreHead x next tail new =>
    some ({ s with headBlock := some new }.setThread a (.pushCas x next tail new), none)
  | .pushCas x next tail block =>
    if spurious = false ∧ s.tailIndex = tail.index then
      let newTail := tail.index + one w
      some ({ s with tailIndex := newTail, tailPos := s.tailPos + 1 }.setThread a
        (if offset tail.index + 1 = blockCap then .pushStoreBlock x next newTail block
        else .pushWrite x block (offset tail.index)), none)
    else go (.pushLoadBlock x next s.tailSnap)
  | .pushStoreBlock x next newTail block =>
    some ({ s with
      tailBlock := some s.count
      count := s.count + 1
      fault := s.fault || !next }.setThread a
        (.pushStoreIndex x (newTail + one w) block s.count), none)
  | .pushStoreIndex x nextIndex block nextBlock =>
    some ({ s with tailIndex := nextIndex, tailPos := s.tailPos + 1 }.setThread a
      (.pushStoreNext x block nextBlock), none)
  | .pushStoreNext x block nextBlock =>
    some (((s.touch block).setBlock block { s.block block with next := some nextBlock }).setThread a
      (.pushWrite x block (blockCap - 1)), none)
  | .pushWrite x block i =>
    let s' := { s.touch block with
      fault := s.fault || (s.block block).freed || (s.slot block i).value.item?.isSome }
    some ((s'.setSlot block i { s.slot block i with value := .live x }).setThread a
      (.pushMark x block i), none)
  | .pushMark _ block i =>
    some (((s.touch block).setSlot block i { s.slot block i with write := true }).setThread a
      (.ret .pushed), none)
  -- `pop`
  | .popLoadIndex => go (.popLoadBlock s.headSnap)
  | .popLoadBlock head => go (popCheck head s.headBlock)
  | .popLoadTail head block =>
    if head.index >>> 1 = s.tailIndex >>> 1 then
      some (s.setThread a (.ret (.popped none)), s.lapped a head)
    else if lapOf head.index ≠ lapOf s.tailIndex then
      go (popReady head (setHasNext (head.index + one w)) block)
    else go (popReady head (head.index + one w) block)
  | .popCas head newHead block =>
    if spurious = false ∧ s.headIndex = head.index then
      some ({ s with headIndex := newHead, headPos := s.headPos + 1 }.setThread a
        (if offset head.index + 1 = blockCap then .popWaitNext newHead block
        else .popWaitWrite block (offset head.index)), none)
    else go (.popLoadBlock s.headSnap)
  | .popWaitNext newHead block =>
    some ((s.touch block).setThread a
      (match (s.block block).next with
      | none => .popWaitNext newHead block
      | some next => .popLoadNext newHead block next), none)
  | .popLoadNext newHead block next =>
    let nextIndex := clearHasNext newHead + one w
    some ((s.touch next).setThread a
      (.popStoreBlock (if (s.block next).next.isSome then setHasNext nextIndex else nextIndex)
        block next), none)
  | .popStoreBlock nextIndex block next =>
    some ({ s with headBlock := some next }.setThread a (.popStoreIndex nextIndex block), none)
  | .popStoreIndex nextIndex block =>
    some ({ s with headIndex := nextIndex, headPos := s.headPos + 1 }.setThread a
      (.popWaitWrite block (blockCap - 1)), none)
  | .popWaitWrite block i =>
    some ((s.touch block).setThread a
      (if (s.slot block i).write then .popRead block i else .popWaitWrite block i), none)
  | .popRead block i =>
    match (s.slot block i).value with
    | .live x =>
      let s' := (s.touch block).setSlot block i { s.slot block i with value := .moved x }
      if i + 1 = blockCap then
        some ((s'.setSweep block 0).setThread a (.destroyLoad x block 0), none)
      else some (s'.setThread a (.popMark x block i), none)
    | _ => some ({ s with fault := true }, none)
  | .popMark x block i =>
    let s' := (s.touch block).setSlot block i { s.slot block i with read := true }
    if (s.slot block i).destroy then
      some ((s'.setSweep block (i + 1)).setThread a (.destroyLoad x block (i + 1)), none)
    else some (s'.setThread a (.ret (.popped (some x))), none)
  -- `Block::destroy`
  | .destroyLoad x block i =>
    if i < blockCap - 1 then
      if (s.slot block i).read then
        some (((s.touch block).setSweep block (i + 1)).setThread a (.destroyLoad x block (i + 1)),
          none)
      else some ((s.touch block).setThread a (.destroyOr x block i), none)
    else
      some (((s.touch block).setBlock block { s.block block with freed := true }).setThread a
        (.ret (.popped (some x))), none)
  | .destroyOr x block i =>
    let s' := (s.touch block).setSlot block i { s.slot block i with destroy := true }
    if (s.slot block i).read then
      some ((s'.setSweep block (i + 1)).setThread a (.destroyLoad x block (i + 1)), none)
    else some (s'.setThread a (.ret (.popped (some x))), none)
  -- `is_empty`
  | .emptyLoadHead => go (.emptyLoadTail s.headSnap)
  | .emptyLoadTail head =>
    some (s.setThread a (.ret (.isEmpty (decide (head.index >>> 1 = s.tailIndex >>> 1)))),
      s.lapped a head)

/-! ### The system -/

inductive Cmd (T A : Type*)
  | call (a : A) (op : Op T)
  | thread (a : A) (spurious : Bool)

def step : Cmd T A → St w T A → Option (St w T A × Option (Event T A))
  | .call a op, s =>
    match s.thread a with
    | .idle => some (s.setThread a (start op), some (.call a op))
    | _ => none
  | .thread a spurious, s => threadStep spurious a s

/-- The position of the index that a compare-exchange holds a load against, and that of the
load. -/
def compared (s : St w T A) : Cmd T A → Option (ℕ × ℕ)
  | .call _ _ => none
  | .thread a _ =>
    match s.thread a with
    | .pushCas _ _ tail _ => some (s.tailPos, tail.pos)
    | .popCas head _ _ => some (s.headPos, head.pos)
    | _ => none

/-- At a compare-exchange the index is less than a full turn ahead of the load. -/
def Timely (cmd : Cmd T A) (s : St w T A) : Prop :=
  ∀ p ∈ compared s cmd, p.1 < p.2 + 2 ^ (w - 1)

instance (cmd : Cmd T A) (s : St w T A) : Decidable (Timely cmd s) :=
  inferInstanceAs (Decidable (∀ p ∈ compared s cmd, _))

/-- `Injector::new`. -/
def init : St w T A where
  headIndex := 0
  tailIndex := 0
  headBlock := none
  tailBlock := none
  block := fun _ => .new
  count := 0
  thread := fun _ => .idle
  fault := false
  headPos := 0
  tailPos := 0

def lts (w : ℕ) (T A : Type*) [DecidableEq A] : Lts (St w T A) (Event T A) :=
  .ofStep (· = init) step Timely

end St3.Injector
