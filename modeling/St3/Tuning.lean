import Mathlib.Data.Nat.Log
import St3.Words

/-!
The policy of a pool, and the pools that can be built with it.
-/

namespace St3.Pool

/-- `Tuning`. -/
structure Tuning where
  roundsBeforePark : ℕ
  backoffSpins : ℕ
  injectorBatch : ℕ
  lifoRunLimit : ℕ
  shareDisplaced : Bool
  stealableInbox : Bool
  localWakes : Bool
  promoteEvery : ℕ
  deriving DecidableEq, Repr

namespace Tuning

def locality : Tuning where
  roundsBeforePark := 4
  backoffSpins := 128
  injectorBatch := 1
  lifoRunLimit := 32
  shareDisplaced := false
  stealableInbox := false
  localWakes := true
  promoteEvery := 64

def almostTokio : Tuning :=
  { locality with stealableInbox := true, lifoRunLimit := 3, roundsBeforePark := 0 }

def spread : Tuning := { locality with localWakes := false }

def throughput : Tuning := { locality with localWakes := false, injectorBatch := 8 }

/-- What `Pool::with_tuning` asserts of a tuning. -/
structure Accepted (t : Tuning) : Prop where
  limit : 0 < t.lifoRunLimit
  promote : 0 < t.promoteEvery
  batch : 0 < t.injectorBatch

instance (t : Tuning) : Decidable t.Accepted :=
  decidable_of_iff (0 < t.lifoRunLimit ∧ 0 < t.promoteEvery ∧ 0 < t.injectorBatch)
    ⟨fun ⟨h1, h2, h3⟩ => ⟨h1, h2, h3⟩, fun ⟨h1, h2, h3⟩ => ⟨h1, h2, h3⟩⟩

lemma almostTokio_accepted : almostTokio.Accepted := by decide

/-- Every preset passes the check. -/
lemma presets_accepted : locality.Accepted ∧ almostTokio.Accepted ∧ spread.Accepted ∧
    throughput.Accepted :=
  ⟨by decide, almostTokio_accepted, by decide, by decide⟩

end Tuning

/-- The arguments of `Pool::with_tuning`, with what it asserts of them. `bits` is the width of
a `usize`. -/
structure Config (n : ℕ) where
  capacity : ℕ
  tuning : Tuning
  bits : ℕ
  accepted : tuning.Accepted
  pos : 0 < n
  le : n ≤ bits

/-- A pool of one worker, on a machine with words of 64 bits. -/
def Config.single (capacity : ℕ) (t : Tuning) (h : t.Accepted) : Config 1 :=
  ⟨capacity, t, 64, h, Nat.one_pos, Nat.le_of_ble_eq_true rfl⟩

/-- The capacity of a deque of the pool. -/
def Config.cap {n : ℕ} (cfg : Config n) : ℕ := Words.nextPowerOfTwo cfg.capacity

end St3.Pool
