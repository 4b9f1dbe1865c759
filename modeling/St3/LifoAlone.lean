import St3.Alone
import St3.LifoSim

/-!
The loads and stores of the LIFO queue that `extend`, `steal` and `steal_and_pop` are made of.
-/

namespace St3.Lifo

open Words Slots Deque

universe u

variable {w k : ℕ} {T : Type u} {A : Type*}

/-- What `push`, `extend` and a steal load of the queue they fill. -/
structure Kept (w : ℕ) where
  pushCount : BitVec w
  popCount : BitVec w
  head : BitVec w
  deriving DecidableEq

def Kept.tail (v : Kept w) : BitVec w := v.pushCount - v.popCount

/-- What the loop of `book_items` holds on to. -/
structure Look (w : ℕ) where
  packed : BitVec (2 * w)
  oldHead : BitVec w
  deriving DecidableEq

namespace Queue

def keep (q : Queue w T) : Kept w := ⟨q.pushCount, (unpack q.popCountAndHead).1, q.head⟩

def look (q : Queue w T) : Look w := ⟨q.popCountAndHead, q.head⟩

/-- The tests of `book_items` up to the call of `count_fn`. -/
def test (l : Look w) (q : Queue w T) : Except StealError (BitVec w) :=
  let (popCount, head) := unpack l.packed
  if l.oldHead ≠ head then .error .busy
  else
    let tail := q.pushCount - popCount
    let itemCount := tail - head
    if itemCount = 0 then .error .empty else .ok itemCount

/-- The compare-exchange of `book_items`. -/
def cas (l : Look w) (count : BitVec w) (q : Queue w T) : Option (Queue w T) :=
  let (popCount, head) := unpack l.packed
  if q.popCountAndHead = l.packed then
    some { q with popCountAndHead := pack popCount (head + count) }
  else none

end Queue

def Shows (q : Queue w T) (r : Alone.Ring) : Prop :=
  q.mask = maskOf w r.k ∧ q.pushCount = word w r.pushes ∧
    q.popCountAndHead = pack (word w r.pops) (word w r.front) ∧ q.head = word w r.stealer

/-- The LIFO flavour. -/
def alone (w : ℕ) (T : Type u) : Alone.Flavour w T where
  Queue := Queue w T
  mask q := q.mask
  buffer q := q.buffer
  setBuffer b q := { q with buffer := b }
  Kept := Kept w
  keep := Queue.keep
  tail := Kept.tail
  head v := v.head
  publish v transferCount q := { q with pushCount := v.pushCount + transferCount }
  extendStore v tail q := { q with pushCount := tail + v.popCount }
  Look := Look w
  look := Queue.look
  test := Queue.test
  cas := Queue.cas
  first l := (unpack l.packed).2
  release _ newHead q := some { q with head := newHead }
  Shows := Shows
  mask_eq h := h.1
  tail_eq := by
    rintro q r ⟨-, hp, hc, -⟩
    rw [Kept.tail, Queue.keep, hp, hc, unpack_pack]
  head_eq h := h.2.2.2
  buffer_setBuffer _ _ := rfl
  shows_setBuffer h := h
  buffer_publish _ _ _ := rfl
  shows_publish := by
    rintro q₀ r₀ q r n ⟨-, hp, -, -⟩ ⟨hm, -, hc, hh⟩
    refine ⟨hm, ?_, hc, hh⟩
    rw [Queue.keep, hp, word_add]
  extendStore_eq v n q := by
    rw [Kept.tail, BitVec.add_assoc, BitVec.add_comm n, ← BitVec.add_assoc, BitVec.sub_add_cancel]
  test_eq := by
    rintro q r ⟨-, hp, hc, hh⟩
    simp only [Queue.test, Queue.look, hp, hc, hh, unpack_pack]
    rfl
  cas_eq := by
    rintro q r n ⟨hm, hp, hc, hh⟩
    refine ⟨{ q with popCountAndHead := pack (word w r.pops) (word w (r.front + n)) }, ?_,
      ⟨hm, hp, rfl, hh⟩, rfl⟩
    simp only [Queue.cas, Queue.look, hc, unpack_pack, word_add, if_true]
  first_eq := by
    rintro q r ⟨-, -, hc, -⟩ -
    rw [Queue.look, hc, unpack_pack]
  release_eq := by
    rintro q r ⟨hm, hp, hc, hh⟩
    exact ⟨_, rfl, ⟨hm, hp, hc, rfl⟩, rfl⟩

/-- A queue of a run that has no call of its owner and no booking under way stores what the deque
stores that it stands for. -/
lemma Rel.stores {s : St w T A} {a : Deque.St T A} (hk : k < w) (h : Rel k s a)
    (ho : s.owner = .idle) (hf : a.holder = .free) : (alone w T).Stores s.queue a.stored := by
  obtain ⟨extra, hm, hown, -⟩ := h
  rw [ho] at hown
  generalize a.owner = o at hown
  cases hown
  have h0 := hm.free.mp hf
  have h1 := hm.lent
  have h2 := hm.cap
  have hl : a.lent = [] := List.eq_nil_of_length_eq_zero (by omega)
  have hring := hm.ring
  simp only [hl, h0, List.nil_append, List.append_nil, List.length_nil, Nat.sub_zero] at hring h2
  refine ⟨⟨k, s.stolen, s.stolen, (gauge s a).pushes, s.pops⟩,
    ⟨hm.mask, hm.pushCount, hm.packed, ?_⟩, ⟨hk, le_rfl, ?_, ?_⟩, rfl, hring.len, ?_, ?_⟩
  · rw [hm.head, h0, Nat.sub_zero]
  · show s.stolen + s.pops ≤ s.stolen + a.stored.length + s.pops
    omega
  · show s.stolen + a.stored.length + s.pops ≤ s.stolen + 2 ^ k + s.pops
    omega
  · show s.stolen + a.stored.length + s.pops - s.pops = s.stolen + a.stored.length
    omega
  · intro i x hx
    have hi : i < a.stored.length := (List.getElem?_eq_some_iff.mp hx).1
    have := hring.item (s.stolen + i) (by omega) (by omega)
    refine itemAt_eq_some.mp (this.trans ?_)
    rw [tape, if_neg (by omega), Nat.add_sub_cancel_left, List.getElem?_map, hx]
    rfl

end St3.Lifo
