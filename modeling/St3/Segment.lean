import St3.Slots
import St3.Transfer

/-!
Items in consecutive slots of a ring, and the accesses that one thread makes to the slots when
nothing else runs.

`Seg buf cap pos xs` says that the slots from position `pos` on hold the items `xs`; it says
nothing of other slots, so that two segments of one buffer are two such facts.
-/

namespace St3.Slots

open Words Transfer

variable {w : ℕ} {T : Type*}

/-- Within one turn from `lo` on, a slot has one position. -/
lemma eq_of_mod_eq (lo : ℕ) {cap m n : ℕ} (hm : lo ≤ m ∧ m < lo + cap)
    (hn : lo ≤ n ∧ n < lo + cap) (h : m % cap = n % cap) : m = n := (mod_inj hm hn).mp h

def Seg (buf : List (Slot T)) (cap pos : ℕ) (xs : List T) : Prop :=
  ∀ i x, xs[i]? = some x → buf[(pos + i) % cap]? = some (.live x)

variable {buf buf' : List (Slot T)} {cap pos n : ℕ} {xs ys : List T}

lemma seg_iff : Seg buf cap pos xs ↔
    ∀ i (h : i < xs.length), buf[(pos + i) % cap]? = some (.live xs[i]) := by
  constructor
  · intro h i hi
    exact h i _ (List.getElem?_eq_getElem hi)
  · intro h i x hx
    obtain ⟨hi, rfl⟩ := List.getElem?_eq_some_iff.mp hx
    exact h i hi

lemma Seg.nil : Seg buf cap pos [] := by
  intro i x h
  simp at h

lemma Seg.drop (h : Seg buf cap pos xs) : Seg buf cap (pos + n) (xs.drop n) := by
  intro i x hx
  rw [List.getElem?_drop] at hx
  rw [Nat.add_assoc]
  exact h (n + i) x hx

lemma Seg.append (h : Seg buf cap pos xs) (h' : Seg buf cap (pos + xs.length) ys) :
    Seg buf cap pos (xs ++ ys) := by
  intro i x hx
  rcases Nat.lt_or_ge i xs.length with hlt | hge
  · rw [List.getElem?_append_left hlt] at hx
    exact h i x hx
  · rw [List.getElem?_append_right hge] at hx
    have := h' (i - xs.length) x hx
    rwa [Nat.add_assoc, Nat.add_sub_of_le hge] at this

/-- The items stay where the slots do not change. -/
lemma Seg.agree (h : Seg buf cap pos xs)
    (he : ∀ i < xs.length, buf'[(pos + i) % cap]? = buf[(pos + i) % cap]?) :
    Seg buf' cap pos xs := by
  intro i x hx
  have hi : i < xs.length := (List.getElem?_eq_some_iff.mp hx).1
  rw [he i hi]
  exact h i x hx

/-- A change of a slot that is none of the segment's. -/
lemma Seg.set {m : ℕ} (h : Seg buf cap pos xs) (s : Slot T) (hm : pos + xs.length ≤ m)
    (hlt : m < pos + cap) : Seg (buf.set (m % cap) s) cap pos xs := by
  refine h.agree fun i hi => ?_
  have hne : m % cap ≠ (pos + i) % cap := fun e => by
    have := eq_of_mod_eq pos ⟨by omega, hlt⟩ ⟨by omega, by omega⟩ e
    omega
  rw [List.getElem?_set_ne hne]

/-- A change of a slot that lies before the segment. -/
lemma Seg.set_before {m : ℕ} (h : Seg buf cap pos xs) (s : Slot T) (hm : m < pos)
    (hlt : pos + xs.length ≤ m + cap) : Seg (buf.set (m % cap) s) cap pos xs := by
  refine h.agree fun i hi => ?_
  have hne : m % cap ≠ (pos + i) % cap := fun e => by
    have := eq_of_mod_eq m ⟨by omega, by omega⟩ ⟨by omega, by omega⟩ e
    omega
  rw [List.getElem?_set_ne hne]

lemma Seg.snoc (h : Seg buf cap pos xs) (x : T) (hl : buf.length = cap)
    (hlt : xs.length < cap) :
    Seg (buf.set ((pos + xs.length) % cap) (.live x)) cap pos (xs ++ [x]) := by
  refine (h.set (.live x) le_rfl (by omega)).append ?_
  intro i y hy
  have hlen : (pos + xs.length) % cap < buf.length := by rw [hl]; exact Nat.mod_lt _ (by omega)
  rcases i with _ | i
  · simp only [List.getElem?_cons_zero, Option.some.injEq] at hy
    rw [Nat.add_zero, List.getElem?_set_self hlen, hy]
  · simp at hy

/-! ### Accesses -/

/-- `read_at`, which moves the item out of its slot. -/
def readAt (buf : List (Slot T)) (mask pos : BitVec w) : Option T × List (Slot T) :=
  match (buf[slotIdx pos mask]?).getD .uninit with
  | .live x => (some x, buf.set (slotIdx pos mask) (.moved x))
  | .moved x => (some x, buf)
  | .uninit => (none, buf)

/-- `write_at`. -/
def writeAt (buf : List (Slot T)) (mask pos : BitVec w) (x : T) : List (Slot T) :=
  buf.set (slotIdx pos mask) (.live x)

/-- What a slot is once its item was moved out. -/
def Slot.leave : Slot T → Slot T
  | .live x => .moved x
  | s => s

/-- The slots of a range whose items were moved elsewhere. -/
def vacate (buf : List (Slot T)) (mask pos : BitVec w) : ℕ → List (Slot T)
  | 0 => buf
  | n + 1 => (vacate buf mask pos n).modify (ringSlot pos mask n) Slot.leave

lemma length_vacate (mask pos : BitVec w) : (vacate buf mask pos n).length = buf.length := by
  induction n with
  | zero => rfl
  | succ n ih => rw [vacate, List.length_modify, ih]

lemma getElem?_vacate (mask pos : BitVec w) {j : ℕ} (hj : ∀ o < n, ringSlot pos mask o ≠ j) :
    (vacate buf mask pos n)[j]? = buf[j]? := by
  induction n with
  | zero => rfl
  | succ n ih =>
    rw [vacate, List.getElem?_modify_ne _ _ (hj n (by omega)), ih fun o ho => hj o (by omega)]

lemma readAt_live {k : ℕ} {x : T} (hk : k < w) (h : buf[n % 2 ^ k]? = some (.live x)) :
    readAt buf (maskOf w k) (word w n) = (some x, buf.set (n % 2 ^ k) (.moved x)) := by
  unfold readAt
  rw [slotIdx_word hk, h]
  rfl

lemma writeAt_word {k : ℕ} (hk : k < w) (x : T) :
    writeAt buf (maskOf w k) (word w n) x = buf.set (n % 2 ^ k) (.live x) := by
  rw [writeAt, slotIdx_word hk]

lemma ringSlot_word {k : ℕ} (hk : k < w) (o : ℕ) :
    ringSlot (word w n) (maskOf w k) o = (n + o) % 2 ^ k := by
  rw [ringSlot, word_add, slotIdx_word hk]

end St3.Slots
