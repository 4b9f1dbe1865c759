import Mathlib.Data.Nat.Log
import Mathlib.Data.Nat.ModEq
import Mathlib.Tactic.Lemma
import Mathlib.Tactic.Ring

/-!
Wrap-around counters: a machine word of width `w` as the image of an unbounded natural
number, and the index of such a position in a ring whose size is a power of two.

A counter that only grows is followed by its unbounded value; two words are compared
through these values as long as they are less than a full turn apart.
-/

namespace St3.Words

variable {w : ℕ}

/-- The word that shows the counter value `n`. -/
abbrev word (w n : ℕ) : BitVec w := BitVec.ofNat w n

@[simp] lemma word_add (a b : ℕ) : word w a + word w b = word w (a + b) :=
  (BitVec.ofNat_add a b).symm

lemma word_add_one (a : ℕ) : word w a + 1#w = word w (a + 1) := word_add a 1

lemma word_sub {a b : ℕ} (h : b ≤ a) : word w a - word w b = word w (a - b) := by
  obtain ⟨d, rfl⟩ := Nat.exists_eq_add_of_le h
  rw [← word_add, BitVec.add_comm, BitVec.add_sub_cancel, Nat.add_sub_cancel_left]

lemma toNat_word {n : ℕ} (h : n < 2 ^ w) : (word w n).toNat = n := by
  rw [BitVec.toNat_ofNat, Nat.mod_eq_of_lt h]

lemma toNat_word_sub {a b : ℕ} (h : b ≤ a) (hlt : a < b + 2 ^ w) :
    (word w a - word w b).toNat = a - b := by
  rw [word_sub h, toNat_word (by omega)]

/-- Less than a full turn apart, equal words show equal counters. -/
lemma word_inj {a b : ℕ} (h : b ≤ a) (hlt : a < b + 2 ^ w) : word w a = word w b ↔ a = b := by
  refine ⟨fun e => ?_, fun e => by rw [e]⟩
  have h0 := toNat_word_sub h hlt
  rw [e, BitVec.sub_self, BitVec.toNat_zero] at h0
  omega

lemma word_getElem {n i : ℕ} (h : i < w) : (word w n)[i] = n.testBit i := by
  rw [← BitVec.getLsbD_eq_getElem h, BitVec.getLsbD_ofNat]
  simp [h]

/-! ### Packing two words into one -/

/-- `pack`: the first word in the high half, the second in the low half. -/
def pack (a b : BitVec w) : BitVec (2 * w) :=
  (a.setWidth (2 * w) <<< w) ||| b.setWidth (2 * w)

/-- `unpack`: the two halves. -/
def unpack (v : BitVec (2 * w)) : BitVec w × BitVec w :=
  ((v >>> w).setWidth w, v.setWidth w)

@[simp] lemma unpack_pack (a b : BitVec w) : unpack (pack a b) = (a, b) := by
  refine Prod.ext ?_ ?_
  · ext i hi
    have h : w + i < 2 * w := by omega
    simp [pack, unpack, h, BitVec.getLsbD_eq_getElem hi]
  · ext i hi
    have h : i < 2 * w := by omega
    simp [pack, unpack, hi, h]

lemma pack_inj {a b a' b' : BitVec w} : pack a b = pack a' b' ↔ a = a' ∧ b = b' := by
  refine ⟨fun h => ?_, fun ⟨h, h'⟩ => by rw [h, h']⟩
  have h' := congrArg unpack h
  simpa using h'

/-! ### Ring indices -/

/-- The mask of a ring of `2 ^ k` slots. -/
def maskOf (w k : ℕ) : BitVec w := word w (2 ^ k - 1)

/-- The slot a position falls on: `(position & mask) as usize`. -/
def slotIdx (pos mask : BitVec w) : ℕ := (pos &&& mask).toNat

/-- `next_power_of_two`: the least power of two that is at least `n`. -/
def nextPowerOfTwo (n : ℕ) : ℕ := 2 ^ Nat.clog 2 n

lemma two_pow_lt {k : ℕ} (hk : k < w) : 2 ^ k < 2 ^ w := Nat.pow_lt_pow_right (by omega) hk

lemma toNat_maskOf {k : ℕ} (hk : k < w) : (maskOf w k).toNat = 2 ^ k - 1 :=
  toNat_word (lt_of_le_of_lt (Nat.sub_le _ _) (two_pow_lt hk))

lemma maskOf_eq {k : ℕ} : word w (2 ^ k) - 1#w = maskOf w k := word_sub Nat.one_le_two_pow

lemma maskOf_add_one {k : ℕ} : maskOf w k + 1#w = word w (2 ^ k) := by
  have h : 1 ≤ 2 ^ k := Nat.one_le_two_pow
  rw [maskOf, word_add_one, Nat.sub_add_cancel h]

lemma slotIdx_word {k : ℕ} (hk : k < w) (n : ℕ) :
    slotIdx (word w n) (maskOf w k) = n % 2 ^ k := by
  rw [slotIdx, BitVec.toNat_and, toNat_maskOf hk, Nat.and_two_pow_sub_one_eq_mod,
    BitVec.toNat_ofNat]
  exact Nat.mod_mod_of_dvd n (Nat.pow_dvd_pow 2 hk.le)

end St3.Words
