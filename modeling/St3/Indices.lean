import St3.Injector
import St3.Words

/-!
The indices of the injector as images of unbounded positions, and the ticket that a position
stands for: every lap has one position that is no ticket.
-/

namespace St3.Injector

open Words

variable {w : ℕ}

/-- The index of position `n`, with its `HAS_NEXT` bit. -/
def idx (w n : ℕ) (b : Bool) : BitVec w := word w (2 * n + b.toNat)

lemma toNat_idx_shift (hw : 6 ≤ w) (n : ℕ) (b : Bool) :
    (idx w n b >>> 1).toNat = n % 2 ^ (w - 1) := by
  obtain ⟨v, rfl⟩ : ∃ v, w = v + 1 := ⟨w - 1, by omega⟩
  rw [idx, BitVec.toNat_ushiftRight, BitVec.toNat_ofNat, Nat.shiftRight_eq_div_pow, pow_one,
    Nat.add_sub_cancel, Nat.pow_succ', Nat.mod_mul_right_div_self]
  congr 1
  cases b
  · simp
  · simp only [Bool.toNat_true]
    omega

lemma dvd_turn (hw : 6 ≤ w) : 32 ∣ 2 ^ (w - 1) := by
  have h : w - 1 = 5 + (w - 6) := by omega
  rw [h, Nat.pow_add]
  exact ⟨2 ^ (w - 6), rfl⟩

lemma offset_idx (hw : 6 ≤ w) (n : ℕ) (b : Bool) : offset (idx w n b) = n % 32 := by
  rw [offset, toNat_idx_shift hw]
  exact Nat.mod_mod_of_dvd n (dvd_turn hw)

/-- Indices in different laps show positions in different laps. -/
lemma lapOf_ne (hw : 6 ≤ w) {n m : ℕ} {b c : Bool} (h : lapOf (idx w n b) ≠ lapOf (idx w m c)) :
    n / 32 ≠ m / 32 := by
  intro he
  refine h ?_
  rw [lapOf, lapOf, toNat_idx_shift hw, toNat_idx_shift hw]
  obtain ⟨d, hd⟩ := dvd_turn hw
  have hdiv : ∀ k, k % 2 ^ (w - 1) / 32 = k / 32 % d := by
    intro k
    rw [hd, Nat.mod_mul_right_div_self]
  show n % _ / 32 = m % _ / 32
  rw [hdiv, hdiv, he]

/-- Less than a full turn ahead, equal indices show equal positions. -/
lemma shift_inj (hw : 6 ≤ w) {n m : ℕ} {b c : Bool} (hle : m ≤ n) (hlt : n < m + 2 ^ (w - 1)) :
    idx w m c >>> 1 = idx w n b >>> 1 ↔ m = n := by
  refine ⟨fun h => ?_, fun h => BitVec.eq_of_toNat_eq ?_⟩
  · have h' := congrArg BitVec.toNat h
    rw [toNat_idx_shift hw, toNat_idx_shift hw] at h'
    have hd : 2 ^ (w - 1) ∣ n - m := (Nat.modEq_iff_dvd' hle).mp h'
    have := Nat.eq_zero_of_dvd_of_lt hd (by omega)
    omega
  · rw [toNat_idx_shift hw, toNat_idx_shift hw, h]

/-- The bit of an index says nothing of its position. -/
lemma idx_shift (hw : 6 ≤ w) {n : ℕ} {b c : Bool} : idx w n b >>> 1 = idx w n c >>> 1 :=
  (shift_inj hw le_rfl (Nat.lt_add_of_pos_right (Nat.two_pow_pos _))).mpr rfl

lemma idx_add_one (n : ℕ) (b : Bool) : idx w n b + one w = idx w (n + 1) b := by
  show word w _ + word w 2 = word w _
  rw [word_add]
  congr 1
  omega

lemma idx_getElem_zero (n : ℕ) (b : Bool) (h : 0 < w) : (idx w n b)[0] = b := by
  rw [idx, word_getElem h]
  cases b <;> simp [Nat.testBit_zero, Nat.add_mod]

lemma idx_getElem_succ (n i : ℕ) (b : Bool) (h : i + 1 < w) :
    (idx w n b)[i + 1] = n.testBit i := by
  rw [idx, word_getElem h, Nat.testBit_succ]
  congr 1
  cases b
  · simp
  · simp only [Bool.toNat_true]
    omega

lemma one_getElem_succ (i : ℕ) (h : i + 1 < w) : (1 : BitVec w)[i + 1] = false := by
  rw [show (1 : BitVec w) = word w 1 from rfl, word_getElem h, Nat.testBit_succ]
  exact Nat.zero_testBit i

lemma one_getElem_zero (h : 0 < w) : (1 : BitVec w)[0] = true := by
  rw [show (1 : BitVec w) = word w 1 from rfl, word_getElem h]
  rfl

lemma hasNext_idx (hw : 6 ≤ w) (n : ℕ) (b : Bool) : hasNext (idx w n b) = b := by
  have h : 0 < w := by omega
  rw [hasNext, BitVec.getLsbD_eq_getElem h, idx_getElem_zero]

lemma setHasNext_idx (n : ℕ) : setHasNext (idx w n false) = idx w n true := by
  ext i hi
  cases i with
  | zero => rw [setHasNext, BitVec.getElem_or, one_getElem_zero, Bool.or_true, idx_getElem_zero]
  | succ i =>
    rw [setHasNext, BitVec.getElem_or, one_getElem_succ, idx_getElem_succ, idx_getElem_succ,
      Bool.or_false]

lemma clearHasNext_idx (n : ℕ) (b : Bool) : clearHasNext (idx w n b) = idx w n false := by
  ext i hi
  cases i with
  | zero =>
    rw [clearHasNext, BitVec.getElem_and, BitVec.getElem_not, one_getElem_zero, Bool.not_true,
      Bool.and_false, idx_getElem_zero]
  | succ i =>
    rw [clearHasNext, BitVec.getElem_and, BitVec.getElem_not, one_getElem_succ, idx_getElem_succ,
      idx_getElem_succ, Bool.not_false, Bool.and_true]

lemma idx_inj (hw : 6 ≤ w) {n m : ℕ} {b c : Bool} (hle : m ≤ n) (hlt : n < m + 2 ^ (w - 1))
    (h : idx w n b = idx w m c) : n = m ∧ b = c := by
  have hs : idx w m c >>> 1 = idx w n b >>> 1 := by rw [h]
  refine ⟨((shift_inj hw hle hlt).mp hs).symm, ?_⟩
  rw [← hasNext_idx hw n b, h, hasNext_idx hw]

/-! ### Tickets -/

/-- How many tickets lie before position `n`. -/
def tick (n : ℕ) : ℕ := 31 * (n / 32) + n % 32

lemma tick_zero : tick 0 = 0 := rfl

lemma tick_succ {n : ℕ} (h : n % 32 ≠ 31) : tick (n + 1) = tick n + 1 := by
  simp only [tick]
  omega

/-- Leaving the parking position takes no ticket. -/
lemma tick_park {n : ℕ} (h : n % 32 = 31) : tick (n + 1) = tick n := by
  simp only [tick]
  omega

lemma tick_mono {n m : ℕ} (h : n ≤ m) : tick n ≤ tick m := by
  simp only [tick]
  omega

/-- A position that is a ticket is the slot of the block of its lap. -/
lemma tick_eq (n : ℕ) : tick n = 31 * (n / 32) + n % 32 := rfl

end St3.Injector
