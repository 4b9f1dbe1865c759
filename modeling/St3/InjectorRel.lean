import St3.Indices

/-!
How a state of the injector stands for a state of the unbounded queue.

Each successful compare-exchange on an index hands out a ticket, and with it the right to
write, or to read, one slot; the ticket of the last slot of a block carries the right to move
the index over to the next block, and the one who finds all readers gone has the right to
sweep the block. No two threads ever have the same right, so that what one of them knows of
the memory survives the steps of the others.
-/

namespace St3.Injector

open Words Unbounded

variable {w : ℕ} {T A : Type*}

/-! ### The rights of a thread -/

inductive Right
  /-- Installing the first block at the head. -/
  | first
  /-- Moving the parked tail on. -/
  | tail
  /-- Moving the parked head on. -/
  | head
  | write (b i : ℕ)
  | read (b i : ℕ)
  | sweep (b : ℕ)
  deriving DecidableEq

def Pc.rights : Pc w T → List Right
  | .pushStoreHead .. => [.first]
  | .pushStoreBlock _ _ _ b => [.tail, .write b 30]
  | .pushStoreIndex _ _ b _ => [.tail, .write b 30]
  | .pushStoreNext _ b _ => [.write b 30]
  | .pushWrite _ b i => [.write b i]
  | .pushMark _ b i => [.write b i]
  | .popWaitNext _ b => [.head, .read b 30]
  | .popLoadNext _ b _ => [.head, .read b 30]
  | .popStoreBlock _ b _ => [.head, .read b 30]
  | .popStoreIndex _ b => [.head, .read b 30]
  | .popWaitWrite b i => [.read b i]
  | .popRead b i => [.read b i]
  | .popMark _ b i => [.read b i]
  | .destroyLoad _ b _ => [.sweep b]
  | .destroyOr _ b _ => [.sweep b]
  | _ => []

def Slot.Moved (sl : Slot T) : Prop := ∃ x, sl.value = .moved x

/-- A step leaves alone what the holder of a right relies on. -/
def Keeps (s s' : St w T A) : Right → Prop
  | .first => s'.headBlock = s.headBlock
  | .tail => s'.tailPos = s.tailPos ∧ s'.tailBlock = s.tailBlock ∧ s'.count = s.count
  | .head => s'.headPos = s.headPos ∧ s'.headBlock = s.headBlock
  | .write b i =>
    (s'.slot b i).value = (s.slot b i).value ∧ (s'.slot b i).write = (s.slot b i).write
  | .read b i => ((s'.slot b i).Moved → (s.slot b i).Moved) ∧
      ((s.slot b i).Moved → (s'.slot b i).value = (s.slot b i).value) ∧
      (s'.slot b i).read = (s.slot b i).read ∧ ((s.slot b i).write → (s'.slot b i).write)
  | .sweep b => (s'.block b).sweep = (s.block b).sweep ∧ (s'.block b).freed = (s.block b).freed ∧
      ∀ i, (s'.slot b i).destroy = (s.slot b i).destroy

/-- What every step does at most to the rest. -/
structure Grows (s s' : St w T A) (a a' : Unbounded.St T A) : Prop where
  tail : s.tailPos ≤ s'.tailPos
  head : s.headPos ≤ s'.headPos
  pushed : a.pushed <+: a'.pushed
  tailBlock : s.tailBlock ≠ none → s'.tailBlock ≠ none
  headBlock : s.headBlock ≠ none → s'.headBlock ≠ none

lemma Grows.refl (s : St w T A) (a : Unbounded.St T A) : Grows s s a a :=
  ⟨le_rfl, le_rfl, List.prefix_refl _, id, id⟩

lemma Grows.get {s s' : St w T A} {a a' : Unbounded.St T A} (g : Grows s s' a a') {n : ℕ} {x : T}
    (h : a.pushed[n]? = some x) : a'.pushed[n]? = some x := by
  obtain ⟨l, hl⟩ := g.pushed
  rw [← hl, List.getElem?_append_left (List.getElem?_eq_some_iff.mp h).1, h]

/-! ### What a thread knows -/

structure TailSnap (s : St w T A) (tail : Snap w) : Prop where
  index : tail.index = idx w tail.pos false
  le : tail.pos ≤ s.tailPos

/-- `fits` says that a `push` on its last ticket of a block has a spare block. -/
structure TailReady (s : St w T A) (next : Bool) (tail : Snap w) : Prop extends
    TailSnap s tail where
  ticket : tail.pos % 32 ≠ 31
  spare : tail.pos % 32 = 30 → next = true

structure HeadSnap (s : St w T A) (head : Snap w) (b : Bool) : Prop where
  index : head.index = idx w head.pos b
  le : head.pos ≤ s.headPos
  hasNext : b = true → head.pos / 32 < s.tailPos / 32

/-- A block that was loaded after the head index is the one of its lap. -/
def HeadAt (s : St w T A) (head : Snap w) (b : ℕ) : Prop :=
  s.headBlock ≠ none ∧ (head.pos = s.headPos → b = s.headPos / 32)

/-- The holder of a ticket has not written its slot. -/
structure WriteOk (s : St w T A) (a : Unbounded.St T A) (x : T) (b i : ℕ) : Prop where
  lt : i < 31
  pushed : a.pushed[31 * b + i]? = some x
  value : (s.slot b i).value = .uninit
  write : (s.slot b i).write = false

/-- The holder of a ticket has not read its slot. -/
structure ReadOk (s : St w T A) (a : Unbounded.St T A) (x : T) (b i : ℕ) : Prop where
  lt : i < 31
  pushed : a.pushed[31 * b + i]? = some x
  popped : 31 * b + i < tick s.headPos
  moved : ¬ (s.slot b i).Moved
  read : (s.slot b i).read = false

structure SweepOk (s : St w T A) (b i : ℕ) : Prop where
  sweep : (s.block b).sweep = some i
  freed : (s.block b).freed = false
  destroy : (s.slot b i).destroy = false

/-- The head is parked behind block `b`, which `block` says the head still shows. -/
def HeadParked (s : St w T A) (b block : ℕ) : Prop :=
  s.headPos = 32 * b + 31 ∧ s.headBlock = some block

/-- `ThreadOk s a p q`: the thread at `p` stands for `q`. -/
inductive ThreadOk (s : St w T A) (a : Unbounded.St T A) : Pc w T → ThreadSt T → Prop
  | idle : ThreadOk s a .idle .idle
  | ret (r : Res T) : ThreadOk s a (.ret r) (.done r)
  | pushLoadIndex (x : T) (next : Bool) :
      ThreadOk s a (.pushLoadIndex x next) (.called (.push x))
  | pushLoadBlock (x : T) (next : Bool) (tail : Snap w) (h : TailSnap s tail) :
      ThreadOk s a (.pushLoadBlock x next tail) (.called (.push x))
  | pushInstall (x : T) (next : Bool) (tail : Snap w) (h : TailReady s next tail) :
      ThreadOk s a (.pushInstall x next tail) (.called (.push x))
  | pushStoreHead (x : T) (next : Bool) (tail : Snap w) (h : TailReady s next tail)
      (h0 : tail.pos = 0) (hh : s.headBlock = none) (ht : s.tailBlock ≠ none) :
      ThreadOk s a (.pushStoreHead x next tail 0) (.called (.push x))
  | pushCas (x : T) (next : Bool) (tail : Snap w) (b : ℕ) (h : TailReady s next tail)
      (ht : s.tailBlock ≠ none) (hb : tail.pos = s.tailPos → b = s.tailPos / 32) :
      ThreadOk s a (.pushCas x next tail b) (.called (.push x))
  | pushStoreBlock (x : T) (b : ℕ) (h : WriteOk s a x b 30) (hp : s.tailPos = 32 * b + 31)
      (hb : s.tailBlock = some b) (hc : s.count = b + 1) :
      ThreadOk s a (.pushStoreBlock x true (idx w (32 * b + 31) false) b) (.done .pushed)
  | pushStoreIndex (x : T) (b : ℕ) (h : WriteOk s a x b 30) (hp : s.tailPos = 32 * b + 31)
      (hb : s.tailBlock = some (b + 1)) (hc : s.count = b + 2) :
      ThreadOk s a (.pushStoreIndex x (idx w (32 * b + 32) false) b (b + 1)) (.done .pushed)
  | pushStoreNext (x : T) (b : ℕ) (h : WriteOk s a x b 30) (hp : 32 * b + 32 ≤ s.tailPos) :
      ThreadOk s a (.pushStoreNext x b (b + 1)) (.done .pushed)
  | pushWrite (x : T) (b i : ℕ) (h : WriteOk s a x b i) :
      ThreadOk s a (.pushWrite x b i) (.done .pushed)
  | pushMark (x : T) (b i : ℕ) (hi : i < 31) (hx : a.pushed[31 * b + i]? = some x)
      (hv : (s.slot b i).value = .live x) (hw : (s.slot b i).write = false) :
      ThreadOk s a (.pushMark x b i) (.done .pushed)
  | popLoadIndex : ThreadOk s a .popLoadIndex (.called .pop)
  | popLoadBlock (head : Snap w) (c : Bool) (h : HeadSnap s head c) :
      ThreadOk s a (.popLoadBlock head) (.called .pop)
  | popLoadTail (head : Snap w) (block : Option ℕ) (h : HeadSnap s head false)
      (ht : head.pos % 32 ≠ 31) (hb : ∀ b, block = some b → HeadAt s head b) :
      ThreadOk s a (.popLoadTail head block) (.called .pop)
  | popCas (head : Snap w) (c d : Bool) (b : ℕ) (h : HeadSnap s head c)
      (ht : head.pos % 32 ≠ 31) (hb : HeadAt s head b) (hlt : head.pos < s.tailPos)
      (hd : d = true → head.pos / 32 < s.tailPos / 32) :
      ThreadOk s a (.popCas head (idx w (head.pos + 1) d) b) (.called .pop)
  | popWaitNext (x : T) (b : ℕ) (d : Bool) (h : ReadOk s a x b 30) (hp : HeadParked s b b) :
      ThreadOk s a (.popWaitNext (idx w (32 * b + 31) d) b) (.done (.popped (some x)))
  | popLoadNext (x : T) (b : ℕ) (d : Bool) (h : ReadOk s a x b 30) (hp : HeadParked s b b)
      (ht : 32 * b + 32 ≤ s.tailPos) :
      ThreadOk s a (.popLoadNext (idx w (32 * b + 31) d) b (b + 1)) (.done (.popped (some x)))
  | popStoreBlock (x : T) (b : ℕ) (d : Bool) (h : ReadOk s a x b 30) (hp : HeadParked s b b)
      (ht : 32 * b + 32 ≤ s.tailPos) (hd : d = true → b + 1 < s.tailPos / 32) :
      ThreadOk s a (.popStoreBlock (idx w (32 * b + 32) d) b (b + 1)) (.done (.popped (some x)))
  | popStoreIndex (x : T) (b : ℕ) (d : Bool) (h : ReadOk s a x b 30)
      (hp : HeadParked s b (b + 1)) (ht : 32 * b + 32 ≤ s.tailPos)
      (hd : d = true → b + 1 < s.tailPos / 32) :
      ThreadOk s a (.popStoreIndex (idx w (32 * b + 32) d) b) (.done (.popped (some x)))
  | popWaitWrite (x : T) (b i : ℕ) (h : ReadOk s a x b i) :
      ThreadOk s a (.popWaitWrite b i) (.done (.popped (some x)))
  | popRead (x : T) (b i : ℕ) (h : ReadOk s a x b i) (hw : (s.slot b i).write = true) :
      ThreadOk s a (.popRead b i) (.done (.popped (some x)))
  | popMark (x : T) (b i : ℕ) (hi : i < 30) (hv : (s.slot b i).value = .moved x)
      (hr : (s.slot b i).read = false) :
      ThreadOk s a (.popMark x b i) (.done (.popped (some x)))
  | destroyLoad (x : T) (b i : ℕ) (h : SweepOk s b i) :
      ThreadOk s a (.destroyLoad x b i) (.done (.popped (some x)))
  | destroyOr (x : T) (b i : ℕ) (hi : i < 30) (h : SweepOk s b i) :
      ThreadOk s a (.destroyOr x b i) (.done (.popped (some x)))
  | emptyLoadHead : ThreadOk s a .emptyLoadHead (.called .isEmpty)
  | emptyLoadTail (head : Snap w) (c : Bool) (h : HeadSnap s head c) :
      ThreadOk s a (.emptyLoadTail head) (.called .isEmpty)

section
variable {s s' : St w T A} {a a' : Unbounded.St T A} (g : Grows s s' a a')
include g

lemma TailSnap.grows {tail : Snap w} (h : TailSnap s tail) : TailSnap s' tail :=
  ⟨h.index, h.le.trans g.tail⟩

lemma TailReady.grows {next : Bool} {tail : Snap w} (h : TailReady s next tail) :
    TailReady s' next tail :=
  ⟨h.toTailSnap.grows g, h.ticket, h.spare⟩

lemma HeadSnap.grows {head : Snap w} {b : Bool} (h : HeadSnap s head b) : HeadSnap s' head b :=
  ⟨h.index, h.le.trans g.head, fun hb => (h.hasNext hb).trans_le (Nat.div_le_div_right g.tail)⟩

lemma HeadAt.grows {head : Snap w} {b : ℕ} (hle : head.pos ≤ s.headPos) (h : HeadAt s head b) :
    HeadAt s' head b := by
  refine ⟨g.headBlock h.1, fun he => ?_⟩
  have hh := g.head
  rw [h.2 (by omega)]
  congr 1
  omega

lemma WriteOk.frame {x : T} {b i : ℕ} (h : WriteOk s a x b i) (k : Keeps s s' (.write b i)) :
    WriteOk s' a' x b i :=
  ⟨h.lt, g.get h.pushed, k.1.trans h.value, k.2.trans h.write⟩

lemma ReadOk.frame {x : T} {b i : ℕ} (h : ReadOk s a x b i) (k : Keeps s s' (.read b i)) :
    ReadOk s' a' x b i :=
  ⟨h.lt, g.get h.pushed, h.popped.trans_le (tick_mono g.head), fun hm => h.moved (k.1 hm),
    k.2.2.1.trans h.read⟩

omit g in
lemma SweepOk.frame {b i : ℕ} (h : SweepOk s b i) (k : Keeps s s' (.sweep b)) : SweepOk s' b i :=
  ⟨k.1.trans h.sweep, k.2.1.trans h.freed, (k.2.2 i).trans h.destroy⟩

/-- What a thread knows survives a step that leaves its rights alone. -/
lemma ThreadOk.frame {p : Pc w T} {q : ThreadSt T} (h : ThreadOk s a p q)
    (k : ∀ r ∈ p.rights, Keeps s s' r) : ThreadOk s' a' p q := by
  have ht := g.tail
  have hdiv : s.tailPos / 32 ≤ s'.tailPos / 32 := Nat.div_le_div_right ht
  cases h with
  | idle => exact .idle
  | ret r => exact .ret r
  | pushLoadIndex x next => exact .pushLoadIndex x next
  | pushLoadBlock x next tail h => exact .pushLoadBlock x next tail (h.grows g)
  | pushInstall x next tail h => exact .pushInstall x next tail (h.grows g)
  | pushStoreHead x next tail h h0 hh htb =>
    have k1 : s'.headBlock = s.headBlock := k .first (by simp [Pc.rights])
    exact .pushStoreHead x next tail (h.grows g) h0 (k1.trans hh) (g.tailBlock htb)
  | pushCas x next tail b h htb hb =>
    refine .pushCas x next tail b (h.grows g) (g.tailBlock htb) fun he => ?_
    have := h.le
    rw [hb (by omega)]
    congr 1
    omega
  | pushStoreBlock x b h hp hb hc =>
    obtain ⟨k1, k2, k3⟩ : Keeps s s' .tail := k .tail (by simp [Pc.rights])
    exact .pushStoreBlock x b (h.frame g (k _ (by simp [Pc.rights]))) (k1.trans hp) (k2.trans hb)
      (k3.trans hc)
  | pushStoreIndex x b h hp hb hc =>
    obtain ⟨k1, k2, k3⟩ : Keeps s s' .tail := k .tail (by simp [Pc.rights])
    exact .pushStoreIndex x b (h.frame g (k _ (by simp [Pc.rights]))) (k1.trans hp) (k2.trans hb)
      (k3.trans hc)
  | pushStoreNext x b h hp =>
    exact .pushStoreNext x b (h.frame g (k _ (by simp [Pc.rights]))) (hp.trans ht)
  | pushWrite x b i h => exact .pushWrite x b i (h.frame g (k _ (by simp [Pc.rights])))
  | pushMark x b i hi hx hv hw =>
    obtain ⟨k1, k2⟩ : Keeps s s' (.write b i) := k _ (by simp [Pc.rights])
    exact .pushMark x b i hi (g.get hx) (k1.trans hv) (k2.trans hw)
  | popLoadIndex => exact .popLoadIndex
  | popLoadBlock head c h => exact .popLoadBlock head c (h.grows g)
  | popLoadTail head block h hti hb =>
    exact .popLoadTail head block (h.grows g) hti fun b he => (hb b he).grows g h.le
  | popCas head c d b h hti hb hlt hd =>
    exact .popCas head c d b (h.grows g) hti (hb.grows g h.le) (by omega)
      fun he => (hd he).trans_le hdiv
  | popWaitNext x b d h hp =>
    obtain ⟨k1, k2⟩ : Keeps s s' .head := k .head (by simp [Pc.rights])
    exact .popWaitNext x b d (h.frame g (k _ (by simp [Pc.rights])))
      ⟨k1.trans hp.1, k2.trans hp.2⟩
  | popLoadNext x b d h hp htl =>
    obtain ⟨k1, k2⟩ : Keeps s s' .head := k .head (by simp [Pc.rights])
    exact .popLoadNext x b d (h.frame g (k _ (by simp [Pc.rights])))
      ⟨k1.trans hp.1, k2.trans hp.2⟩ (by omega)
  | popStoreBlock x b d h hp htl hd =>
    obtain ⟨k1, k2⟩ : Keeps s s' .head := k .head (by simp [Pc.rights])
    exact .popStoreBlock x b d (h.frame g (k _ (by simp [Pc.rights])))
      ⟨k1.trans hp.1, k2.trans hp.2⟩ (by omega) fun he => (hd he).trans_le hdiv
  | popStoreIndex x b d h hp htl hd =>
    obtain ⟨k1, k2⟩ : Keeps s s' .head := k .head (by simp [Pc.rights])
    exact .popStoreIndex x b d (h.frame g (k _ (by simp [Pc.rights])))
      ⟨k1.trans hp.1, k2.trans hp.2⟩ (by omega) fun he => (hd he).trans_le hdiv
  | popWaitWrite x b i h => exact .popWaitWrite x b i (h.frame g (k _ (by simp [Pc.rights])))
  | popRead x b i h hw =>
    have k' : Keeps s s' (.read b i) := k _ (by simp [Pc.rights])
    exact .popRead x b i (h.frame g k') (k'.2.2.2 hw)
  | popMark x b i hi hv hr =>
    obtain ⟨-, k2, k3, -⟩ : Keeps s s' (.read b i) := k _ (by simp [Pc.rights])
    exact .popMark x b i hi ((k2 ⟨x, hv⟩).trans hv) (k3.trans hr)
  | destroyLoad x b i h => exact .destroyLoad x b i (h.frame (k _ (by simp [Pc.rights])))
  | destroyOr x b i hi h => exact .destroyOr x b i hi (h.frame (k _ (by simp [Pc.rights])))
  | emptyLoadHead => exact .emptyLoadHead
  | emptyLoadTail head c h => exact .emptyLoadTail head c (h.grows g)

end

/-! ### The memory -/

structure SlotOk (pushed : List T) (popped b i : ℕ) (sl : Slot T) : Prop where
  /-- A slot whose ticket was not handed out is as new. -/
  fresh : pushed.length ≤ 31 * b + i → sl.value = .uninit ∧ sl.write = false
  unread : popped ≤ 31 * b + i → ¬ sl.Moved ∧ sl.read = false
  written : sl.write = true →
    ∃ x, pushed[31 * b + i]? = some x ∧ (sl.value = .live x ∨ sl.value = .moved x)
  moved : sl.Moved → sl.write = true
  read : sl.read = true → sl.Moved

/-- The state of a block: how far its destruction has come. -/
structure BlockOk (d : Block T) : Prop where
  sweep : ∀ j, d.sweep = some j → j ≤ 30 ∧ (d.slot 30).Moved ∧ ∀ i < j, (d.slot i).read = true
  freed : d.freed = true → d.sweep = some 30
  destroy : ∀ i, (d.slot i).destroy = true →
    ∃ j, d.sweep = some j ∧ i ≤ j ∧ ((d.slot i).read = false → j = i)

structure MemRel (s : St w T A) (a : Unbounded.St T A) : Prop where
  fault : s.fault = false
  tailIndex : s.tailIndex = idx w s.tailPos false
  headIndex : ∃ c, s.headIndex = idx w s.headPos c ∧ (c = true → s.headPos / 32 < s.tailPos / 32)
  pushed : a.pushed.length = tick s.tailPos
  popped : a.popped = tick s.headPos
  le : s.headPos ≤ s.tailPos
  tailNone : s.tailBlock = none → s.tailPos = 0 ∧ s.count = 0
  tailSome : ∀ b, s.tailBlock = some b → s.tailPos % 32 ≠ 31 →
    b = s.tailPos / 32 ∧ s.count = s.tailPos / 32 + 1
  headNone : s.headBlock = none → s.headPos = 0
  noBlock : s.tailBlock = none → s.headBlock = none
  headSome : ∀ b, s.headBlock = some b → s.headPos % 32 ≠ 31 → b = s.headPos / 32
  next : ∀ b m, (s.block b).next = some m → m = b + 1 ∧ 32 * b + 32 ≤ s.tailPos
  slot : ∀ b i, i < 31 → SlotOk a.pushed a.popped b i (s.slot b i)
  block : ∀ b, BlockOk (s.block b)

/-- No two threads have the same right. -/
def Exclusive (s : St w T A) : Prop :=
  ∀ t u r, r ∈ (s.thread t).rights → r ∈ (s.thread u).rights → t = u

/-- A ticket that was handed out for writing is being written as long as its slot is not
marked. -/
def Pending (s : St w T A) (a : Unbounded.St T A) : Prop :=
  ∀ b i, i < 31 → 31 * b + i < a.pushed.length →
    (s.slot b i).write = true ∨ ∃ t, Right.write b i ∈ (s.thread t).rights

/-- The state `s` of the injector stands for the state `a` of the queue. -/
structure Rel (s : St w T A) (a : Unbounded.St T A) : Prop where
  mem : MemRel s a
  thread : ∀ t, ThreadOk s a (s.thread t) (a.thread t)
  exclusive : Exclusive s
  pending : Pending s a

end St3.Injector
