import St3.Words
import Mathlib.Data.List.Basic

/-!
A ring of slots read as a window on an unbounded tape.

Position `n` of the tape falls on slot `n % cap`. `Holds buf cap lo base cells` says that in
the window of `cap` positions from `lo` on the live slots are those of `cells`, laid out from
position `base`; `none` in `cells` is a position whose item is gone.
-/

namespace St3.Slots

/-- A slot of uninitialised memory, one with an item in it, or one whose item was moved out. -/
inductive Slot (T : Type*)
  | uninit
  | live (x : T)
  | moved (x : T)
  deriving DecidableEq, Repr

variable {T : Type*}

def Slot.item? : Slot T → Option T
  | .live x => some x
  | _ => none

@[simp] lemma Slot.item?_uninit : (Slot.uninit : Slot T).item? = none := rfl
@[simp] lemma Slot.item?_live (x : T) : (Slot.live x).item? = some x := rfl
@[simp] lemma Slot.item?_moved (x : T) : (Slot.moved x).item? = none := rfl

lemma Slot.item?_eq_some {s : Slot T} {x : T} : s.item? = some x ↔ s = .live x := by
  cases s <;> simp [Slot.item?]

/-- The item at a position, if its slot is live. -/
def itemAt (buf : List (Slot T)) (cap n : ℕ) : Option T := buf[n % cap]?.bind Slot.item?

/-- The tape that has `cells` from `base` on and nothing elsewhere. -/
def tape (base : ℕ) (cells : List (Option T)) (n : ℕ) : Option T :=
  if n < base then none else cells[n - base]?.join

structure Holds (buf : List (Slot T)) (cap lo base : ℕ) (cells : List (Option T)) : Prop where
  len : buf.length = cap
  lo_le : lo ≤ base
  le_hi : base + cells.length ≤ lo + cap
  item : ∀ n, lo ≤ n → n < lo + cap → itemAt buf cap n = tape base cells n

lemma mod_inj {cap lo m n : ℕ} (hm : lo ≤ m ∧ m < lo + cap) (hn : lo ≤ n ∧ n < lo + cap) :
    m % cap = n % cap ↔ m = n := by
  refine ⟨fun h => ?_, fun h => by rw [h]⟩
  have key : ∀ {a b : ℕ}, a ≤ b → b < a + cap → a % cap = b % cap → a = b := by
    intro a b hab hlt he
    have hd : cap ∣ b - a := (Nat.modEq_iff_dvd' hab).mp he
    have := Nat.eq_zero_of_dvd_of_lt hd (by omega)
    omega
  rcases le_total m n with hle | hle
  · exact key hle (by omega) h
  · exact (key hle (by omega) h.symm).symm

lemma itemAt_eq_some {buf : List (Slot T)} {cap n : ℕ} {x : T} :
    itemAt buf cap n = some x ↔ buf[n % cap]? = some (.live x) := by
  simp [itemAt, Option.bind_eq_some_iff, Slot.item?_eq_some]

lemma itemAt_set {buf : List (Slot T)} {cap lo m n : ℕ} (s : Slot T) (hl : buf.length = cap)
    (hm : lo ≤ m ∧ m < lo + cap) (hn : lo ≤ n ∧ n < lo + cap) :
    itemAt (buf.set (m % cap) s) cap n = if m = n then s.item? else itemAt buf cap n := by
  have hc : 0 < cap := by omega
  have hlt : m % cap < buf.length := by rw [hl]; exact Nat.mod_lt _ hc
  by_cases h : m = n
  · subst h; simp [itemAt, hlt]
  · have hne : m % cap ≠ n % cap := fun e => h ((mod_inj hm hn).mp e)
    simp [itemAt, hne, h]

/-! ### The tape -/

lemma tape_append_none (base : ℕ) (cells : List (Option T)) :
    tape base (cells ++ [none]) = tape base cells := by
  funext n
  unfold tape
  split_ifs with h
  · rfl
  · rw [List.getElem?_append]
    split_ifs with h'
    · rfl
    · rw [List.getElem?_eq_none (Nat.le_of_not_lt h')]
      rcases hk : n - base - cells.length with _ | j <;> simp

lemma tape_cons_none (base : ℕ) (cells : List (Option T)) :
    tape base (none :: cells) = tape (base + 1) cells := by
  funext n
  unfold tape
  rcases Nat.lt_trichotomy n base with h | h | h
  · rw [if_pos h, if_pos (by omega)]
  · subst h; simp
  · obtain ⟨d, rfl⟩ := Nat.exists_eq_add_of_lt h
    rw [if_neg (by omega), if_neg (by omega), show base + d + 1 - base = d + 1 by omega,
      show base + d + 1 - (base + 1) = d by omega, List.getElem?_cons_succ]

lemma tape_mid (base : ℕ) (l r : List (Option T)) (c : Option T) :
    tape base (l ++ c :: r) (base + l.length) = c := by
  simp [tape]

lemma tape_set_mid (base n : ℕ) (l r : List (Option T)) (c c' : Option T)
    (h : n ≠ base + l.length) :
    tape base (l ++ c' :: r) n = tape base (l ++ c :: r) n := by
  unfold tape
  split_ifs with hb
  · rfl
  · rw [List.getElem?_append, List.getElem?_append]
    split_ifs with h'
    · rfl
    · obtain ⟨j, hj⟩ : ∃ j, n - base - l.length = j + 1 := ⟨n - base - l.length - 1, by omega⟩
      rw [hj, List.getElem?_cons_succ, List.getElem?_cons_succ]

lemma tape_of_length_le {base n : ℕ} {cells : List (Option T)} (h : base + cells.length ≤ n) :
    tape base cells n = none := by
  unfold tape
  split_ifs with hb
  · rfl
  · rw [List.getElem?_eq_none (by omega), Option.join_none]

/-! ### Reading, writing and giving slots back -/

namespace Holds

variable {buf : List (Slot T)} {cap lo base : ℕ} {l r cells : List (Option T)} {x : T}

/-- The slot of a live cell. -/
lemma get (h : Holds buf cap lo base (l ++ some x :: r)) :
    buf[(base + l.length) % cap]? = some (.live x) := by
  have h1 := h.lo_le
  have h2 := h.le_hi
  simp only [List.length_append, List.length_cons] at h2
  rw [← itemAt_eq_some, h.item _ (by omega) (by omega), tape_mid]

/-- Changing the slot of one cell. -/
lemma set (h : Holds buf cap lo base (l ++ c :: r)) (s : Slot T) :
    Holds (buf.set ((base + l.length) % cap) s) cap lo base (l ++ s.item? :: r) := by
  have h1 := h.lo_le
  have h2 := h.le_hi
  simp only [List.length_append, List.length_cons] at h2
  refine ⟨by simpa using h.len, h1, by simpa using h.le_hi, fun n hn hn' => ?_⟩
  rw [itemAt_set s h.len ⟨by omega, by omega⟩ ⟨hn, hn'⟩]
  split_ifs with he
  · subst he; rw [tape_mid]
  · rw [h.item n hn hn', tape_set_mid _ _ _ _ _ _ (Ne.symm he)]

/-- Moving an item out. -/
lemma take (h : Holds buf cap lo base (l ++ some x :: r)) :
    Holds (buf.set ((base + l.length) % cap) (.moved x)) cap lo base (l ++ none :: r) :=
  h.set (.moved x)

lemma snoc_none (h : Holds buf cap lo base cells) (hlt : base + cells.length < lo + cap) :
    Holds buf cap lo base (cells ++ [none]) :=
  ⟨h.len, h.lo_le, by simp; omega, by simpa only [tape_append_none] using h.item⟩

lemma of_snoc_none (h : Holds buf cap lo base (cells ++ [none])) : Holds buf cap lo base cells := by
  have h2 := h.le_hi
  simp only [List.length_append, List.length_singleton] at h2
  exact ⟨h.len, h.lo_le, by omega, by simpa only [tape_append_none] using h.item⟩

lemma of_cons_none (h : Holds buf cap lo base (none :: cells)) :
    Holds buf cap lo (base + 1) cells := by
  have h1 := h.lo_le
  have h2 := h.le_hi
  simp only [List.length_cons] at h2
  exact ⟨h.len, by omega, by omega, by simpa only [tape_cons_none] using h.item⟩

lemma of_replicate_none {d : ℕ} (h : Holds buf cap lo base (List.replicate d none ++ cells)) :
    Holds buf cap lo (base + d) cells := by
  induction d generalizing base with
  | zero => simpa using h
  | succ d ih =>
    rw [List.replicate_succ, List.cons_append] at h
    rw [Nat.add_comm d 1, ← Nat.add_assoc]
    exact ih h.of_cons_none

/-- Writing the next slot. -/
lemma put (h : Holds buf cap lo base cells) (hlt : base + cells.length < lo + cap) (x : T) :
    Holds (buf.set ((base + cells.length) % cap) (.live x)) cap lo base (cells ++ [some x]) := by
  have := (h.snoc_none hlt).set (.live x)
  simpa using this

/-- The slot after the last cell is not live. -/
lemma free (h : Holds buf cap lo base cells) (hlt : base + cells.length < lo + cap) :
    itemAt buf cap (base + cells.length) = none := by
  have h1 := h.lo_le
  rw [h.item _ (by omega) hlt, tape_of_length_le le_rfl]

/-- Moving the window up to the first cell. -/
lemma advance {lo' : ℕ} (h : Holds buf cap lo base cells) (hlo : lo ≤ lo') (hb : lo' ≤ base) :
    Holds buf cap lo' base cells := by
  have h1 := h.lo_le
  have h2 := h.le_hi
  refine ⟨h.len, hb, by omega, fun n hn hn' => ?_⟩
  by_cases hlt : n < lo + cap
  · exact h.item n (by omega) hlt
  · -- the window wraps: position `n` falls on the slot of `n - cap`, which lies before `base`
    have hn0 : itemAt buf cap n = itemAt buf cap (n - cap) := by
      rw [itemAt, itemAt, ← Nat.mod_eq_sub_mod (by omega)]
    have hlow : tape base cells (n - cap) = none := by rw [tape, if_pos (by omega)]
    rw [hn0, h.item _ (by omega) (by omega), hlow, tape_of_length_le (by omega)]

end Holds

lemma holds_uninit (cap n : ℕ) :
    Holds (List.replicate cap (Slot.uninit : Slot T)) cap n n [] := by
  refine ⟨by simp, le_rfl, by simp, fun m _ _ => ?_⟩
  rw [tape_of_length_le (by simp; omega), itemAt, List.getElem?_replicate]
  split_ifs <;> rfl

/-! ### A slot that is read later -/

/-- The buffer as it will be when the slot of position `n` has been read. -/
def clear (buf : List (Slot T)) (cap : ℕ) : Option (ℕ × T) → List (Slot T)
  | none => buf
  | some (n, x) => buf.set (n % cap) (.moved x)

@[simp] lemma clear_none (buf : List (Slot T)) (cap : ℕ) : clear buf cap none = buf := rfl

/-- A slot that is live then is live now, and reading it does not meet the other. -/
lemma clear_get {buf : List (Slot T)} {cap i : ℕ} {pend : Option (ℕ × T)} {x : T}
    (h : (clear buf cap pend)[i]? = some (.live x)) (s : Slot T) :
    buf[i]? = some (.live x) ∧ (clear buf cap pend).set i s = clear (buf.set i s) cap pend ∧
      ∀ n y, pend = some (n, y) → n % cap ≠ i := by
  cases pend with
  | none => exact ⟨h, rfl, by simp⟩
  | some p =>
    obtain ⟨n, y⟩ := p
    simp only [clear] at h ⊢
    have hne : n % cap ≠ i := by
      rintro rfl
      rw [List.getElem?_set_self'] at h
      cases hb : buf[n % cap]? <;> simp [hb] at h
    refine ⟨by simpa [hne] using h, List.set_comm _ _ hne, ?_⟩
    rintro m z hm
    simp only [Option.some.injEq, Prod.mk.injEq] at hm
    rwa [← hm.1]

end St3.Slots
