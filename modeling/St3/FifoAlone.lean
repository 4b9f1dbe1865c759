import St3.Alone
import St3.FifoSim

/-!
The loads and stores of the FIFO queue that `extend`, `steal` and `steal_and_pop` are made of.
-/

namespace St3.Fifo

open Words Slots Deque

universe u

variable {w k : ℕ} {T : Type u} {A : Type*}

/-- What `push`, `extend` and a steal load of the queue they fill. -/
structure Kept (w : ℕ) where
  stealerHead : BitVec w
  tail : BitVec w
  deriving DecidableEq

namespace Queue

def keep (q : Queue w T) : Kept w := ⟨(unpack q.heads).2, q.tail⟩

/-- The tests of `book_items` up to the call of `count_fn`. -/
def test (heads : BitVec (2 * w)) (q : Queue w T) : Except StealError (BitVec w) :=
  let (workerHead, stealerHead) := unpack heads
  if stealerHead ≠ workerHead then .error .busy
  else
    let itemCount := q.tail - workerHead
    if itemCount = 0 then .error .empty else .ok itemCount

/-- The compare-exchange of `book_items`. -/
def cas (heads : BitVec (2 * w)) (count : BitVec w) (q : Queue w T) : Option (Queue w T) :=
  let (workerHead, stealerHead) := unpack heads
  if q.heads = heads then some { q with heads := pack (workerHead + count) stealerHead } else none

/-- The end of a steal, with its assertion. -/
def release (stealerHead : BitVec w) (q : Queue w T) : Option (Queue w T) :=
  let (workerHead, sh) := unpack q.heads
  if stealerHead = sh then some { q with heads := pack workerHead workerHead } else none

end Queue

def Shows (q : Queue w T) (r : Alone.Ring) : Prop :=
  q.mask = maskOf w r.k ∧ q.heads = pack (word w r.front) (word w r.stealer) ∧
    q.tail = word w r.pushes ∧ r.pops = 0

/-- The FIFO flavour. -/
def alone (w : ℕ) (T : Type u) : Alone.Flavour w T where
  Queue := Queue w T
  mask q := q.mask
  buffer q := q.buffer
  setBuffer b q := { q with buffer := b }
  Kept := Kept w
  keep := Queue.keep
  tail v := v.tail
  head v := v.stealerHead
  publish v transferCount q := { q with tail := v.tail + transferCount }
  extendStore _ tail q := { q with tail := tail }
  Look := BitVec (2 * w)
  look q := q.heads
  test := Queue.test
  cas := Queue.cas
  first heads := (unpack heads).2
  release stealerHead _ q := Queue.release stealerHead q
  Shows := Shows
  mask_eq h := h.1
  tail_eq := by
    rintro q r ⟨-, -, ht, hc⟩
    rw [Queue.keep, ht, hc]
    exact (BitVec.sub_zero _).symm
  head_eq := by
    rintro q r ⟨-, hh, -, -⟩
    rw [Queue.keep, hh, unpack_pack]
  buffer_setBuffer _ _ := rfl
  shows_setBuffer h := h
  buffer_publish _ _ _ := rfl
  shows_publish := by
    rintro q₀ r₀ q r n ⟨-, -, ht, -⟩ ⟨hm, hh, -, hc⟩
    refine ⟨hm, hh, ?_, hc⟩
    rw [Queue.keep, ht, word_add]
  extendStore_eq _ _ _ := rfl
  test_eq := by
    rintro q r ⟨-, hh, ht, hc⟩
    have hz : word w r.pushes - word w r.pops = word w r.pushes := by
      rw [hc]
      exact BitVec.sub_zero _
    simp only [Queue.test, hh, ht, hz, unpack_pack]
    rfl
  cas_eq := by
    rintro q r n ⟨hm, hh, ht, hc⟩
    refine ⟨{ q with heads := pack (word w (r.front + n)) (word w r.stealer) }, ?_,
      ⟨hm, rfl, ht, hc⟩, rfl⟩
    simp only [Queue.cas, hh, unpack_pack, word_add, if_true]
  first_eq := by
    rintro q r ⟨-, hh, -, -⟩ he
    rw [hh, unpack_pack, he]
  release_eq := by
    rintro q r ⟨hm, hh, ht, hc⟩
    refine ⟨{ q with heads := pack (word w r.front) (word w r.front) }, ?_, ⟨hm, rfl, ht, hc⟩, rfl⟩
    simp only [Queue.release, hh, unpack_pack, if_true]

/-- A queue of a run that has no call of its owner and no booking under way stores what the deque
stores that it stands for. -/
lemma Rel.stores {s : St w T A} {a : Deque.St T A} (hk : k < w) (h : Rel k s a)
    (ho : s.owner = .idle) (hf : a.holder = .free) : (alone w T).Stores s.queue a.stored := by
  obtain ⟨fin, extra, pend, hm, hown, -⟩ := h
  rw [ho] at hown
  generalize a.owner = o at hown
  cases hown
  have h0 := hm.free.mp hf
  have h1 := hm.lent
  have h2 := hm.cap
  have h3 := hm.held
  have h4 := hm.fin_le
  have hl : a.lent = [] := List.eq_nil_of_length_eq_zero (by omega)
  have hring := hm.ring
  have hfin : fin = s.wh := by omega
  have hsh : s.sh = s.wh := by omega
  simp only [hl, h0, hfin, hsh, Nat.sub_self, List.replicate_zero, List.map_nil, List.nil_append,
    List.append_nil, List.length_nil, Nat.sub_zero, clear_none] at hring h2
  refine ⟨⟨k, s.wh, s.wh, s.wh + a.stored.length, 0⟩, ⟨hm.mask, ?_, hm.tail, rfl⟩,
    ⟨hk, le_rfl, ?_, ?_⟩, rfl, hring.len, rfl, ?_⟩
  · rw [hm.heads, hsh]
  · simp only
    omega
  · simp only
    omega
  · intro i x hx
    have hi : i < a.stored.length := (List.getElem?_eq_some_iff.mp hx).1
    have := hring.item (s.wh + i) (by omega) (by omega)
    refine itemAt_eq_some.mp (this.trans ?_)
    rw [tape, if_neg (by omega), Nat.add_sub_cancel_left, List.getElem?_map, hx]
    rfl

end St3.Fifo
