import St3.Deque
import St3.Words

/-!
What a queue does not decide itself: which thread makes the next access, whether a weak
compare-exchange fails spuriously, what `count_fn` answers, what the iterator of `extend`
yields, what another queue hands over.
-/

namespace St3.Deque

/-- What the surroundings decide in a step. -/
structure Choice (T A : Type*) where
  spurious : Bool
  /-- The answer of `count_fn`. -/
  want : ℕ
  /-- The next item of the iterator, or the next item that arrives. -/
  item : Option T
  /-- How the booking in another queue ended. -/
  booked : Except StealError ℕ
  /-- The name of a new `Drain`. -/
  drain : A

/-- The count to book from `itemCount` items. -/
def bookCount {w : ℕ} (want : ℕ) (maxCount itemCount : BitVec w) : BitVec w :=
  BitVec.ofNat w (min (min want maxCount.toNat) itemCount.toNat)

lemma toNat_bookCount_le {w : ℕ} (want : ℕ) (maxCount itemCount : BitVec w) :
    (bookCount want maxCount itemCount).toNat ≤ itemCount.toNat := by
  rw [bookCount, BitVec.toNat_ofNat]
  exact (Nat.mod_le _ _).trans (Nat.min_le_right _ _)

/-- Who makes the next access. A stealer brings the free capacity of its destination. -/
inductive Cmd (w : ℕ) (T A : Type*)
  | call (op : Op T)
  | owner (c : Choice T A)
  | start (a : A) (t : Task) (free : BitVec w)
  | agent (a : A) (c : Choice T A)
  | forget (a : A)

end St3.Deque
