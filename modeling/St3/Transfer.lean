import St3.Words
import Mathlib.Data.List.Basic
import Mathlib.Logic.Function.Basic

/-!
The bulk transfer of items between ring buffers, and the per-element loop it stands for.

Buffers have names, so that source and destination may be one buffer, and addresses: the buffers
of items that take no space are all at one address, whether they are one or not. `none` is an
access outside of a buffer, a copy between ranges that overlap, or an assertion that fails.
-/

namespace St3.Transfer

open Words

variable {w : ℕ} {ι α : Type*} [DecidableEq ι]

/-- The contents of the buffers. -/
abbrev Mem (ι α : Type*) := ι → List α

/-! ### The source -/

/-- One read and one write. -/
def moveItem (src : ι) (i : ℕ) (dst : ι) (j : ℕ) (m : Mem ι α) : Option (Mem ι α) :=
  (m src)[i]?.bind fun x =>
    if j < (m dst).length then some (Function.update m dst ((m dst).set j x)) else none

/-- The loop over the offsets `0..n`, which reads at `f` and writes at `g`. -/
def moveItems (src : ι) (f : ℕ → ℕ) (dst : ι) (g : ℕ → ℕ) : ℕ → Mem ι α → Option (Mem ι α)
  | 0, m => some m
  | n + 1, m => (moveItems src f dst g n m).bind (moveItem src (f n) dst (g n))

/-- `ptr::copy_nonoverlapping`. -/
def copyNonoverlapping (src : ι) (i : ℕ) (dst : ι) (j len : ℕ) (m : Mem ι α) :
    Option (Mem ι α) :=
  if i + len ≤ (m src).length ∧ j + len ≤ (m dst).length ∧
      (src = dst → i + len ≤ j ∨ j + len ≤ i) then
    some (Function.update m dst
      ((m dst).take j ++ (((m src).drop i).take len ++ (m dst).drop (j + len))))
  else none

/-- `SMALL_CHUNK`. -/
def smallChunk : ℕ := 8

/-- The chunks of `n` items whose ranges wrap after `s` and after `d` items. -/
def chunks (s d n : ℕ) : List (ℕ × ℕ) :=
  let lo := if s ≤ d then s else d
  let hi := if s ≤ d then d else s
  [(0, lo), (lo, hi), (hi, n)]

/-- What is asserted of the chunks of a transfer between buffers of one address. -/
def disjointChunks (cap srcIdx dcap dstIdx : ℕ) (cs : List (ℕ × ℕ)) : Bool :=
  cs.all fun a => cs.all fun b =>
    let a0 := (srcIdx + a.1) &&& (cap - 1)
    let al := a.2 - a.1
    let b0 := (dstIdx + b.1) &&& (dcap - 1)
    let bl := b.2 - b.1
    a0 + al ≤ b0 || b0 + bl ≤ a0

def moveChunk (cap srcIdx dcap dstIdx : ℕ) (src dst : ι) (m : Mem ι α) (c : ℕ × ℕ) :
    Option (Mem ι α) :=
  let len := c.2 - c.1
  if len = 0 then some m
  else
    let srcChunk := (srcIdx + c.1) &&& (cap - 1)
    let dstChunk := (dstIdx + c.1) &&& (dcap - 1)
    if len ≤ smallChunk then moveItems src (srcChunk + ·) dst (dstChunk + ·) len m
    else copyNonoverlapping src srcChunk dst dstChunk len m

/-- `transfer_items`, with its debug assertions, for buffers at the addresses `addr`. -/
def transferItems (addr : ι → ℕ) (src : ι) (srcMask srcPos : BitVec w) (dst : ι)
    (dstMask dstPos count : BitVec w) (m : Mem ι α) : Option (Mem ι α) :=
  let cap := srcMask.toNat + 1
  let dcap := dstMask.toNat + 1
  let srcIdx := slotIdx srcPos srcMask
  let dstIdx := slotIdx dstPos dstMask
  let n := count.toNat
  if cap = (m src).length ∧ dcap = (m dst).length ∧
      nextPowerOfTwo cap = cap ∧ nextPowerOfTwo dcap = dcap then
    if n ≤ 1 then
      if n = 1 then moveItem src srcIdx dst dstIdx m else some m
    else
      let cs := chunks (min (cap - srcIdx) n) (min (dcap - dstIdx) n) n
      if addr src ≠ addr dst ∨ disjointChunks cap srcIdx dcap dstIdx cs then
        cs.foldlM (moveChunk cap srcIdx dcap dstIdx src dst) m
      else none
  else none

/-- `transfer_items_scalar`. -/
def transferItemsScalar (src : ι) (srcMask srcPos : BitVec w) (dst : ι)
    (dstMask dstPos count : BitVec w) (m : Mem ι α) : Option (Mem ι α) :=
  moveItems src (fun o => slotIdx (srcPos + word w o) srcMask)
    dst (fun o => slotIdx (dstPos + word w o) dstMask) count.toNat m

/-- The transfer of `n` items comes past the assertion on its chunks. -/
def Passes (addr : ι → ℕ) (src : ι) (srcMask srcPos : BitVec w) (dst : ι)
    (dstMask dstPos : BitVec w) (n : ℕ) : Prop :=
  let cap := srcMask.toNat + 1
  let dcap := dstMask.toNat + 1
  let srcIdx := slotIdx srcPos srcMask
  let dstIdx := slotIdx dstPos dstMask
  addr src ≠ addr dst ∨ src = dst ∨ n ≤ 1 ∨ disjointChunks cap srcIdx dcap dstIdx
    (chunks (min (cap - srcIdx) n) (min (dcap - dstIdx) n) n) = true

instance (addr : ι → ℕ) (src : ι) (srcMask srcPos : BitVec w) (dst : ι)
    (dstMask dstPos : BitVec w) (n : ℕ) :
    Decidable (Passes addr src srcMask srcPos dst dstMask dstPos n) :=
  inferInstanceAs (Decidable (_ ∨ _ ∨ _ ∨ _))

/-! ### What moving a range does -/

/-- `m'` is `m` after the items of the offsets from `a` to `b` were moved from the slots `f`
of one buffer to the slots `g` of another. -/
structure Moved (src : ι) (f : ℕ → ℕ) (dst : ι) (g : ℕ → ℕ) (a b : ℕ) (m m' : Mem ι α) :
    Prop where
  other : ∀ x, x ≠ dst → m' x = m x
  len : (m' dst).length = (m dst).length
  item : ∀ o, a ≤ o → o < b → (m' dst)[g o]? = (m src)[f o]?
  rest : ∀ j, (∀ o, a ≤ o → o < b → g o ≠ j) → (m' dst)[j]? = (m dst)[j]?

/-- The first `n` reads and writes stay in their buffers, no slot is written twice and none
is written that is read. -/
structure Fits (src : ι) (f : ℕ → ℕ) (dst : ι) (g : ℕ → ℕ) (n : ℕ) (m : Mem ι α) : Prop where
  read : ∀ o < n, f o < (m src).length
  write : ∀ o < n, g o < (m dst).length
  inj : ∀ o < n, ∀ o' < n, g o = g o' → o = o'
  apart : src = dst → ∀ o < n, ∀ o' < n, f o ≠ g o'

variable {src dst : ι} {f g : ℕ → ℕ} {m m' m'' : Mem ι α} {a b c n : ℕ}

omit [DecidableEq ι] in
lemma Moved.refl : Moved src f dst g a a m m :=
  ⟨fun _ _ => rfl, rfl, fun _ h h' => absurd (Nat.lt_of_le_of_lt h h') (lt_irrefl a),
    fun _ _ => rfl⟩

/-- Two transfers of the same items leave the same buffers. -/
lemma Moved.unique (h : Moved src f dst g a b m m') (h' : Moved src f dst g a b m m'') :
    m' = m'' := by
  ext1 x
  by_cases hx : x = dst
  · subst hx
    apply List.ext_getElem?
    intro j
    by_cases hj : ∃ o, a ≤ o ∧ o < b ∧ g o = j
    · obtain ⟨o, ha, hb, rfl⟩ := hj
      rw [h.item o ha hb, h'.item o ha hb]
    · have hj' : ∀ o, a ≤ o → o < b → g o ≠ j := fun o ha hb e => hj ⟨o, ha, hb, e⟩
      rw [h.rest j hj', h'.rest j hj']
  · rw [h.other x hx, h'.other x hx]

/-- A slot that is still to be read is as it was. -/
lemma Moved.unread (h : Moved src f dst g a b m m') (hf : Fits src f dst g n m) (hb : b ≤ n)
    {o : ℕ} (ho : o < n) : (m' src)[f o]? = (m src)[f o]? := by
  by_cases hx : src = dst
  · have hr := h.rest (f o) fun o' _ ho' => (hf.apart hx o ho o' (by omega)).symm
    rw [← hx] at hr
    exact hr
  · rw [h.other src hx]

lemma Moved.trans (h : Moved src f dst g a b m m') (h' : Moved src f dst g b c m' m'')
    (hab : a ≤ b) (hf : Fits src f dst g n m) (hbc : b ≤ c) (hc : c ≤ n) :
    Moved src f dst g a c m m'' := by
  refine ⟨fun x hx => (h'.other x hx).trans (h.other x hx), h'.len.trans h.len, ?_, ?_⟩
  · intro o ha ho
    rcases Nat.lt_or_ge o b with hlt | hge
    · rw [h'.rest (g o), h.item o ha hlt]
      intro o' hb ho' e
      have := hf.inj o' (by omega) o (by omega) e
      omega
    · rw [h'.item o hge ho, h.unread hf (by omega) (by omega)]
  · intro j hj
    rw [h'.rest j fun o hb ho => hj o (by omega) ho, h.rest j fun o ha ho => hj o ha (by omega)]

/-- What fits still fits after some of it was moved. -/
lemma Fits.moved (hf : Fits src f dst g n m) (h : Moved src f dst g a b m m') :
    Fits src f dst g n m' := by
  have hs : (m' src).length = (m src).length := by
    by_cases hx : src = dst
    · rw [hx]; exact h.len
    · rw [h.other src hx]
  exact ⟨by rw [hs]; exact hf.read, by rw [h.len]; exact hf.write, hf.inj, hf.apart⟩

lemma moveItem_spec {i j : ℕ} (hf : Fits src f dst g n m) {o : ℕ} (ho : o < n)
    (hi : i = f o) (hj : j = g o) :
    ∃ m', moveItem src i dst j m = some m' ∧ Moved src f dst g o (o + 1) m m' := by
  subst hi hj
  have hr := hf.read o ho
  have hw := hf.write o ho
  refine ⟨_, by rw [moveItem, List.getElem?_eq_getElem hr, Option.bind_some, if_pos hw], ?_, ?_,
    ?_, ?_⟩
  · intro x hx
    rw [Function.update_of_ne hx]
  · rw [Function.update_self, List.length_set]
  · intro o' h h'
    obtain rfl : o' = o := by omega
    rw [Function.update_self, List.getElem?_set_self hw, List.getElem?_eq_getElem hr]
  · intro j hj
    rw [Function.update_self, List.getElem?_set_ne (hj o le_rfl (by omega))]

lemma moveItems_spec {f' g' : ℕ → ℕ} (hf : Fits src f dst g n m) {len : ℕ} (hn : a + len ≤ n)
    (hi : ∀ i < len, f' i = f (a + i)) (hj : ∀ i < len, g' i = g (a + i)) :
    ∃ m', moveItems src f' dst g' len m = some m' ∧ Moved src f dst g a (a + len) m m' := by
  induction len with
  | zero => exact ⟨m, rfl, .refl⟩
  | succ k ih =>
    obtain ⟨m₁, h₁, hm₁⟩ := ih (by omega) (fun i h => hi i (by omega)) fun i h => hj i (by omega)
    obtain ⟨m₂, h₂, hm₂⟩ := moveItem_spec (hf.moved hm₁) (o := a + k) (by omega)
      (hi k (by omega)) (hj k (by omega))
    refine ⟨m₂, by rw [moveItems, h₁]; exact h₂, ?_⟩
    exact hm₁.trans hm₂ (by omega) hf (by omega) (by omega)

lemma copyNonoverlapping_spec {i j : ℕ} (hf : Fits src f dst g n m) {len : ℕ}
    (hn : a + len ≤ n) (hlen : 0 < len) (hi : ∀ k < len, i + k = f (a + k))
    (hj : ∀ k < len, j + k = g (a + k)) :
    ∃ m', copyNonoverlapping src i dst j len m = some m' ∧
      Moved src f dst g a (a + len) m m' := by
  have hr := hf.read (a + (len - 1)) (by omega)
  have hw := hf.write (a + (len - 1)) (by omega)
  rw [← hi _ (by omega)] at hr
  rw [← hj _ (by omega)] at hw
  have hov : src = dst → i + len ≤ j ∨ j + len ≤ i := by
    intro hx
    by_contra hc
    rcases Nat.le_total i j with hle | hle
    · refine hf.apart hx (a + (j - i)) (by omega) (a + 0) (by omega) ?_
      rw [← hi _ (by omega), ← hj _ (by omega)]
      omega
    · refine hf.apart hx (a + 0) (by omega) (a + (i - j)) (by omega) ?_
      rw [← hi _ (by omega), ← hj _ (by omega)]
      omega
  have htl : ((m dst).take j).length = j := by rw [List.length_take]; omega
  have hdl : (((m src).drop i).take len).length = len := by
    rw [List.length_take, List.length_drop]; omega
  refine ⟨_, if_pos ⟨by omega, by omega, hov⟩, ?_, ?_, ?_, ?_⟩
  · intro x hx
    rw [Function.update_of_ne hx]
  · rw [Function.update_self, List.length_append, List.length_append, htl, hdl, List.length_drop]
    omega
  · intro o h h'
    obtain ⟨k, rfl⟩ := Nat.exists_eq_add_of_le h
    rw [Function.update_self, ← hi k (by omega), ← hj k (by omega),
      List.getElem?_append_right (by omega), htl, Nat.add_sub_cancel_left,
      List.getElem?_append_left (by omega), List.getElem?_take_of_lt (by omega),
      List.getElem?_drop]
  · intro k hk
    rw [Function.update_self]
    rcases Nat.lt_or_ge k j with hlt | hge
    · rw [List.getElem?_append_left (by omega), List.getElem?_take_of_lt hlt]
    · have hge' : j + len ≤ k := by
        by_contra hc
        refine hk (a + (k - j)) (by omega) (by omega) ?_
        rw [← hj _ (by omega)]
        omega
      rw [List.getElem?_append_right (by omega), htl, List.getElem?_append_right (by omega), hdl,
        List.getElem?_drop]
      congr 1
      omega

/-! ### Chunks of a ring -/

/-- Positions `pos`, `pos + 1` and on, as slots of a ring. -/
def ringSlot (pos mask : BitVec w) (o : ℕ) : ℕ := slotIdx (pos + word w o) mask

lemma ringSlot_eq {k : ℕ} (hk : k < w) (pos : BitVec w) (o : ℕ) :
    ringSlot pos (maskOf w k) o = (pos.toNat + o) % 2 ^ k := by
  have h : pos = word w pos.toNat := by rw [word, BitVec.ofNat_toNat, BitVec.setWidth_eq]
  rw [ringSlot, h, word_add, slotIdx_word hk, ← h]

lemma ringSlot_zero (k : ℕ) (pos : BitVec w) :
    slotIdx pos (maskOf w k) = ringSlot pos (maskOf w k) 0 := by
  rw [ringSlot, show word w 0 = 0#w from rfl, BitVec.add_zero]

lemma mem_chunks {s d n : ℕ} (hs : s ≤ n) (hd : d ≤ n) {c : ℕ × ℕ} (hc : c ∈ chunks s d n) :
    c.1 ≤ c.2 ∧ c.2 ≤ n ∧ (c.2 ≤ s ∨ s ≤ c.1) ∧ (c.2 ≤ d ∨ d ≤ c.1) := by
  unfold chunks at hc
  simp only [List.mem_cons, List.not_mem_nil, or_false] at hc
  rcases hc with rfl | rfl | rfl <;> dsimp only <;> split_ifs <;> omega

lemma chunks_eq {s d n : ℕ} (hs : s ≤ n) (hd : d ≤ n) :
    ∃ lo hi, chunks s d n = [(0, lo), (lo, hi), (hi, n)] ∧ lo ≤ hi ∧ hi ≤ n := by
  refine ⟨_, _, rfl, ?_, ?_⟩ <;> split_ifs <;> omega

/-- A chunk that the wrap point does not cut lies in the buffer. -/
lemma chunk_le {cap idx n a b : ℕ} (hi : idx < cap) (hn : n ≤ cap) (hab : a ≤ b) (hb : b ≤ n)
    (hs : b ≤ min (cap - idx) n ∨ min (cap - idx) n ≤ a) : (idx + a) % cap + (b - a) ≤ cap := by
  rcases Nat.lt_or_ge (idx + a) cap with hlt | hge
  · rw [Nat.mod_eq_of_lt hlt]
    omega
  · rw [Nat.mod_eq_sub_mod hge, Nat.mod_eq_of_lt (by omega)]
    omega

lemma mod_add_of_lt {cap x i : ℕ} (h : x % cap + i < cap) : x % cap + i = (x + i) % cap := by
  rw [Nat.add_mod, Nat.mod_eq_of_lt (b := cap) (a := i) (by omega), Nat.mod_eq_of_lt h]

/-- Two stretches that do not meet on the unbounded line, less than a turn apart, do not meet
in the ring; one of them may be empty. -/
lemma arcs_apart {cap x y al bl : ℕ} (hc : 0 < cap) (h1 : x + al ≤ y) (h2 : y + bl ≤ x + cap) :
    x % cap + al ≤ y % cap ∨ y % cap + bl ≤ x % cap := by
  have hx := Nat.div_add_mod x cap
  have hy := Nat.div_add_mod y cap
  have hle : x / cap ≤ y / cap := Nat.div_le_div_right (by omega)
  have hge : y / cap ≤ x / cap + 1 := by
    rw [← Nat.add_div_right x hc]
    exact Nat.div_le_div_right (by omega)
  rcases Nat.lt_or_ge (x / cap) (y / cap) with hlt | hge'
  · have e : y / cap = x / cap + 1 := by omega
    rw [e, Nat.mul_succ] at hy
    omega
  · have e : y / cap = x / cap := by omega
    rw [e] at hy
    omega

/-- The assertion holds of two ranges less than a turn apart. -/
lemma disjointChunks_of_apart {k S D n : ℕ} (h1 : S + n ≤ D) (h2 : D + n ≤ S + 2 ^ k) :
    disjointChunks (2 ^ k) (S % 2 ^ k) (2 ^ k) (D % 2 ^ k)
      (chunks (min (2 ^ k - S % 2 ^ k) n) (min (2 ^ k - D % 2 ^ k) n) n) = true := by
  have hc : 0 < 2 ^ k := Nat.two_pow_pos k
  unfold disjointChunks
  simp only [List.all_eq_true, Bool.or_eq_true, decide_eq_true_eq, Nat.and_two_pow_sub_one_eq_mod]
  intro a ha b hb
  obtain ⟨ha1, ha2, -⟩ := mem_chunks (Nat.min_le_right _ _) (Nat.min_le_right _ _) ha
  obtain ⟨hb1, hb2, -⟩ := mem_chunks (Nat.min_le_right _ _) (Nat.min_le_right _ _) hb
  rw [Nat.mod_add_mod, Nat.mod_add_mod]
  exact arcs_apart hc (by omega) (by omega)

/-! ### The bulk transfer -/

section
variable {j k : ℕ} {srcPos dstPos count : BitVec w}

/-- The transfer asks for no more than either ring has, and within one ring it asks for ranges
that do not meet. -/
structure Asks (src : ι) (j : ℕ) (srcPos : BitVec w) (dst : ι) (k : ℕ) (dstPos : BitVec w)
    (n : ℕ) (m : Mem ι α) : Prop where
  src_lt : j < w
  dst_lt : k < w
  src_len : (m src).length = 2 ^ j
  dst_len : (m dst).length = 2 ^ k
  src_le : n ≤ 2 ^ j
  dst_le : n ≤ 2 ^ k
  apart : src = dst → ∀ o < n, ∀ o' < n,
    ringSlot srcPos (maskOf w j) o ≠ ringSlot dstPos (maskOf w k) o'

omit [DecidableEq ι] in
lemma Asks.fits {n : ℕ} (h : Asks src j srcPos dst k dstPos n m) :
    Fits src (ringSlot srcPos (maskOf w j)) dst (ringSlot dstPos (maskOf w k)) n m := by
  have hj := Nat.two_pow_pos j
  have hk := Nat.two_pow_pos k
  refine ⟨fun o _ => ?_, fun o _ => ?_, fun o ho o' ho' e => ?_, h.apart⟩
  · rw [ringSlot_eq h.src_lt, h.src_len]
    exact Nat.mod_lt _ hj
  · rw [ringSlot_eq h.dst_lt, h.dst_len]
    exact Nat.mod_lt _ hk
  · have hn := h.dst_le
    rw [ringSlot_eq h.dst_lt, ringSlot_eq h.dst_lt] at e
    have e' : o ≡ o' [MOD 2 ^ k] := Nat.ModEq.add_left_cancel' _ e
    rwa [Nat.ModEq, Nat.mod_eq_of_lt (by omega), Nat.mod_eq_of_lt (by omega)] at e'

omit [DecidableEq ι] in
/-- Within one ring the destination range starts after the source range and ends before the
source range comes round again. -/
lemma Asks.turn {n : ℕ} (h : Asks src j srcPos dst k dstPos n m) (hx : src = dst) (hn : 0 < n) :
    j = k ∧ ∃ D, D % 2 ^ k = dstPos.toNat % 2 ^ k ∧ srcPos.toNat + n ≤ D ∧
      D + n ≤ srcPos.toNat + 2 ^ k := by
  have hjk : j = k := by
    have := h.dst_len
    rw [← hx, h.src_len] at this
    exact Nat.pow_right_injective le_rfl this
  subst hjk
  have hc := Nat.two_pow_pos j
  have hle := h.src_le
  have ha := h.apart hx
  simp only [ringSlot_eq h.src_lt] at ha
  -- the first position from the start of the source range on that has the slot of `dstPos`
  have hS := Nat.mod_lt srcPos.toNat hc
  have hD := Nat.mod_lt dstPos.toNat hc
  obtain ⟨d, hd, he⟩ : ∃ d < 2 ^ j, (srcPos.toNat + d) % 2 ^ j = dstPos.toNat % 2 ^ j := by
    rcases Nat.lt_or_ge (dstPos.toNat % 2 ^ j) (srcPos.toNat % 2 ^ j) with hlt | hge
    · refine ⟨dstPos.toNat % 2 ^ j + 2 ^ j - srcPos.toNat % 2 ^ j, by omega, ?_⟩
      rw [Nat.add_mod, Nat.mod_eq_of_lt (a := _ - _) (by omega), Nat.add_sub_of_le (by omega),
        Nat.add_mod_right, Nat.mod_mod]
    · refine ⟨dstPos.toNat % 2 ^ j - srcPos.toNat % 2 ^ j, by omega, ?_⟩
      rw [Nat.add_mod, Nat.mod_eq_of_lt (a := _ - _) (by omega), Nat.add_sub_of_le (by omega),
        Nat.mod_mod]
  refine ⟨rfl, srcPos.toNat + d, he, ?_, ?_⟩
  · by_contra hlt
    exact ha d (by omega) 0 hn (by rw [he, Nat.add_zero])
  · by_contra hlt
    refine ha 0 hn (2 ^ j - d) (by omega) ?_
    calc (srcPos.toNat + 0) % 2 ^ j
        = (srcPos.toNat + d + (2 ^ j - d)) % 2 ^ j := by
          rw [Nat.add_assoc, Nat.add_sub_of_le (by omega), Nat.add_mod_right, Nat.add_zero]
      _ = (dstPos.toNat + (2 ^ j - d)) % 2 ^ j := by
          rw [← Nat.mod_add_mod, he, Nat.mod_add_mod]

lemma moveChunk_spec {n : ℕ} (h : Asks src j srcPos dst k dstPos n m) {c : ℕ × ℕ}
    {cs : List (ℕ × ℕ)} (hcs : cs = chunks (min (2 ^ j - slotIdx srcPos (maskOf w j)) n)
      (min (2 ^ k - slotIdx dstPos (maskOf w k)) n) n) (hc : c ∈ cs) :
    ∃ m', moveChunk (2 ^ j) (slotIdx srcPos (maskOf w j)) (2 ^ k) (slotIdx dstPos (maskOf w k))
        src dst m c = some m' ∧
      Moved src (ringSlot srcPos (maskOf w j)) dst (ringSlot dstPos (maskOf w k)) c.1 c.2 m m' := by
  subst hcs
  obtain ⟨h1, h2, h3, h4⟩ := mem_chunks (Nat.min_le_right _ _) (Nat.min_le_right _ _) hc
  obtain ⟨len, hlen⟩ := Nat.exists_eq_add_of_le h1
  have hS := Nat.mod_lt (srcPos.toNat + 0) (Nat.two_pow_pos j)
  have hD := Nat.mod_lt (dstPos.toNat + 0) (Nat.two_pow_pos k)
  rw [ringSlot_zero, ringSlot_eq h.src_lt] at h3 ⊢
  rw [ringSlot_zero, ringSlot_eq h.dst_lt] at h4 ⊢
  have hs := chunk_le hS h.src_le h1 h2 h3
  have hd := chunk_le hD h.dst_le h1 h2 h4
  rw [hlen, Nat.add_sub_cancel_left, Nat.mod_add_mod, Nat.add_zero] at hs hd
  have hi : ∀ i < len,
      (srcPos.toNat + c.1) % 2 ^ j + i = ringSlot srcPos (maskOf w j) (c.1 + i) := by
    intro i hi
    rw [ringSlot_eq h.src_lt, mod_add_of_lt (by omega), Nat.add_assoc]
  have hj : ∀ i < len,
      (dstPos.toNat + c.1) % 2 ^ k + i = ringSlot dstPos (maskOf w k) (c.1 + i) := by
    intro i hi
    rw [ringSlot_eq h.dst_lt, mod_add_of_lt (by omega), Nat.add_assoc]
  unfold moveChunk
  simp only [Nat.and_two_pow_sub_one_eq_mod, Nat.add_zero, Nat.mod_add_mod]
  rw [hlen, Nat.add_sub_cancel_left]
  split_ifs with h0 hsm
  · subst h0
    exact ⟨m, rfl, .refl⟩
  · exact moveItems_spec h.fits (by omega) hi hj
  · exact copyNonoverlapping_spec h.fits (by omega) (by omega) hi hj

lemma Asks.moved {n : ℕ} (h : Asks src j srcPos dst k dstPos n m)
    (hm : Moved src f dst g a b m m') : Asks src j srcPos dst k dstPos n m' := by
  have hs : (m' src).length = (m src).length := by
    by_cases hx : src = dst
    · rw [hx]; exact hm.len
    · rw [hm.other src hx]
  exact ⟨h.src_lt, h.dst_lt, hs.trans h.src_len, hm.len.trans h.dst_len, h.src_le, h.dst_le,
    h.apart⟩

omit [DecidableEq ι] in
/-- The assertion of a transfer holds. -/
lemma Asks.assertion {n : ℕ} (h : Asks src j srcPos dst k dstPos n m) (hx : src = dst)
    (hn : 0 < n) :
    disjointChunks (2 ^ j) (slotIdx srcPos (maskOf w j)) (2 ^ k) (slotIdx dstPos (maskOf w k))
      (chunks (min (2 ^ j - slotIdx srcPos (maskOf w j)) n)
        (min (2 ^ k - slotIdx dstPos (maskOf w k)) n) n) = true := by
  obtain ⟨rfl, D, hD, h1, h2⟩ := h.turn hx hn
  rw [ringSlot_zero, ringSlot_zero, ringSlot_eq h.src_lt, ringSlot_eq h.src_lt,
    Nat.add_zero, Nat.add_zero, ← hD]
  exact disjointChunks_of_apart h1 h2

/-- What `transfer_items` does, if it comes past its assertions. -/
theorem transferItems_spec (addr : ι → ℕ) (h : Asks src j srcPos dst k dstPos count.toNat m) :
    ∃ m', transferItems addr src (maskOf w j) srcPos dst (maskOf w k) dstPos count m =
        (if Passes addr src (maskOf w j) srcPos dst (maskOf w k) dstPos count.toNat then some m'
          else none) ∧
      Moved src (ringSlot srcPos (maskOf w j)) dst (ringSlot dstPos (maskOf w k)) 0 count.toNat
        m m' := by
  have hj : (maskOf w j).toNat + 1 = 2 ^ j := by
    rw [toNat_maskOf h.src_lt, Nat.sub_add_cancel Nat.one_le_two_pow]
  have hk : (maskOf w k).toNat + 1 = 2 ^ k := by
    rw [toNat_maskOf h.dst_lt, Nat.sub_add_cancel Nat.one_le_two_pow]
  unfold transferItems
  simp only [hj, hk]
  rw [if_pos ⟨h.src_len.symm, h.dst_len.symm, by rw [nextPowerOfTwo, Nat.clog_pow _ _ (by omega)],
    by rw [nextPowerOfTwo, Nat.clog_pow _ _ (by omega)]⟩]
  by_cases h1 : count.toNat ≤ 1
  · have hp : Passes addr src (maskOf w j) srcPos dst (maskOf w k) dstPos count.toNat :=
      .inr (.inr (.inl h1))
    simp only [if_pos h1, if_pos hp]
    split_ifs with h0
    · rw [h0]
      exact moveItem_spec h.fits (by omega) (ringSlot_zero _ _) (ringSlot_zero _ _)
    · have : count.toNat = 0 := by omega
      rw [this]
      exact ⟨m, rfl, .refl⟩
  · -- of one buffer the assertion holds
    have hpass : (addr src ≠ addr dst ∨ disjointChunks (2 ^ j) (slotIdx srcPos (maskOf w j))
        (2 ^ k) (slotIdx dstPos (maskOf w k))
        (chunks (min (2 ^ j - slotIdx srcPos (maskOf w j)) count.toNat)
          (min (2 ^ k - slotIdx dstPos (maskOf w k)) count.toNat) count.toNat) = true) ↔
        Passes addr src (maskOf w j) srcPos dst (maskOf w k) dstPos count.toNat := by
      have hone := fun hx : src = dst => h.assertion hx (by omega)
      unfold Passes
      simp only [hj, hk]
      tauto
    simp only [if_neg h1, hpass]
    obtain ⟨lo, hi, hcs, hlo, hhi⟩ := chunks_eq
      (Nat.min_le_right (2 ^ j - slotIdx srcPos (maskOf w j)) count.toNat)
      (Nat.min_le_right (2 ^ k - slotIdx dstPos (maskOf w k)) count.toNat)
    obtain ⟨m₁, e₁, h₁⟩ := moveChunk_spec h hcs.symm (List.mem_cons_self ..)
    obtain ⟨m₂, e₂, h₂⟩ := moveChunk_spec (h.moved h₁) hcs.symm (c := (lo, hi)) (by simp)
    obtain ⟨m₃, e₃, h₃⟩ := moveChunk_spec ((h.moved h₁).moved h₂) hcs.symm
      (c := (hi, count.toNat)) (by simp)
    refine ⟨m₃, ?_, ?_⟩
    · congr 1
      rw [hcs, List.foldlM_cons, e₁]
      change ((moveChunk _ _ _ _ _ _ m₁ (lo, hi)).bind _) = _
      rw [e₂, Option.bind_some, List.foldlM_cons, e₃]
      rfl
    · have h₁₂ := h₁.trans h₂ (Nat.zero_le lo) h.fits hlo hhi
      exact h₁₂.trans h₃ (Nat.zero_le hi) h.fits hhi le_rfl

lemma transferItemsScalar_spec (h : Asks src j srcPos dst k dstPos count.toNat m) :
    ∃ m', transferItemsScalar src (maskOf w j) srcPos dst (maskOf w k) dstPos count m = some m' ∧
      Moved src (ringSlot srcPos (maskOf w j)) dst (ringSlot dstPos (maskOf w k)) 0 count.toNat
        m m' := by
  obtain ⟨m', e, hm⟩ := moveItems_spec h.fits (Nat.zero_add count.toNat).le
    (fun i _ => by rw [Nat.zero_add]) fun i _ => by rw [Nat.zero_add]
  rw [Nat.zero_add] at hm
  exact ⟨m', e, hm⟩

omit [DecidableEq ι] in
/-- No chunk leaves the source buffer or the destination buffer. -/
lemma Asks.chunk_le (h : Asks src j srcPos dst k dstPos count.toNat m) {c : ℕ × ℕ}
    (hc : c ∈ chunks (min (2 ^ j - slotIdx srcPos (maskOf w j)) count.toNat)
      (min (2 ^ k - slotIdx dstPos (maskOf w k)) count.toNat) count.toNat) :
    ((slotIdx srcPos (maskOf w j) + c.1) &&& (2 ^ j - 1)) + (c.2 - c.1) ≤ (m src).length ∧
      ((slotIdx dstPos (maskOf w k) + c.1) &&& (2 ^ k - 1)) + (c.2 - c.1) ≤ (m dst).length := by
  obtain ⟨h1, h2, h3, h4⟩ := mem_chunks (Nat.min_le_right _ _) (Nat.min_le_right _ _) hc
  rw [h.src_len, h.dst_len, Nat.and_two_pow_sub_one_eq_mod, Nat.and_two_pow_sub_one_eq_mod]
  have hS : slotIdx srcPos (maskOf w j) < 2 ^ j := by
    rw [ringSlot_zero, ringSlot_eq h.src_lt]
    exact Nat.mod_lt _ (Nat.two_pow_pos j)
  have hD : slotIdx dstPos (maskOf w k) < 2 ^ k := by
    rw [ringSlot_zero, ringSlot_eq h.dst_lt]
    exact Nat.mod_lt _ (Nat.two_pow_pos k)
  exact ⟨Transfer.chunk_le hS h.src_le h1 h2 h3, Transfer.chunk_le hD h.dst_le h1 h2 h4⟩

/-- **The bulk transfer is the per-element transfer**: both leave the same buffers, in which only
the slots of the destination range have changed, and no chunk leaves its buffer, if and only if
the bulk transfer comes past its assertion on the chunks. That is not meant for two buffers of
items that take no space, but is made of them. -/
theorem bulk_matches_scalar (addr : ι → ℕ) (h : Asks src j srcPos dst k dstPos count.toNat m) :
    (∃ m', transferItems addr src (maskOf w j) srcPos dst (maskOf w k) dstPos count m = some m' ∧
      transferItemsScalar src (maskOf w j) srcPos dst (maskOf w k) dstPos count m = some m' ∧
      (∀ o < count.toNat, (m' dst)[ringSlot dstPos (maskOf w k) o]? =
        (m src)[ringSlot srcPos (maskOf w j) o]?) ∧
      (∀ i, (∀ o < count.toNat, ringSlot dstPos (maskOf w k) o ≠ i) →
        (m' dst)[i]? = (m dst)[i]?) ∧
      (∀ x, x ≠ dst → m' x = m x) ∧
      ∀ c ∈ chunks (min (2 ^ j - slotIdx srcPos (maskOf w j)) count.toNat)
          (min (2 ^ k - slotIdx dstPos (maskOf w k)) count.toNat) count.toNat,
        ((slotIdx srcPos (maskOf w j) + c.1) &&& (2 ^ j - 1)) + (c.2 - c.1) ≤ (m src).length ∧
          ((slotIdx dstPos (maskOf w k) + c.1) &&& (2 ^ k - 1)) + (c.2 - c.1) ≤
            (m dst).length) ↔
      Passes addr src (maskOf w j) srcPos dst (maskOf w k) dstPos count.toNat := by
  obtain ⟨m₁, e₁, h₁⟩ := transferItems_spec addr h
  obtain ⟨m₂, e₂, h₂⟩ := transferItemsScalar_spec h
  obtain rfl := h₁.unique h₂
  constructor
  · rintro ⟨m', e, -⟩
    by_contra hp
    rw [e₁, if_neg hp] at e
    cases e
  · intro hp
    rw [if_pos hp] at e₁
    exact ⟨m₁, e₁, e₂, fun o ho => h₁.item o (Nat.zero_le o) ho,
      fun i hi => h₁.rest i fun o _ ho => hi o ho, h₁.other, fun c hc => h.chunk_le hc⟩

end

/-- Nine items of a ring of sixteen slots, which wraps after three of them, come after the first
six slots of a ring of thirty-two. -/
theorem bulk_matches_scalar_wrapped :
    let m : Mem Bool ℕ := fun b => if b then List.replicate 32 0 else List.range 16
    ∃ m', transferItems Bool.toNat false (maskOf 8 4) 253#8 true (maskOf 8 5) 6#8 9#8 m = some m' ∧
      m' true = [0, 0, 0, 0, 0, 0, 13, 14, 15, 0, 1, 2, 3, 4, 5] ++ List.replicate 17 0 := by
  intro m
  have ha : Asks false 4 253#8 true 5 6#8 (9#8).toNat m :=
    ⟨by decide, by decide, by decide, by decide, by decide, by decide, by decide⟩
  obtain ⟨m', h, -⟩ := (bulk_matches_scalar Bool.toNat ha).mpr (.inl (by decide))
  have hv : (transferItems Bool.toNat false (maskOf 8 4) 253#8 true (maskOf 8 5) 6#8 9#8 m).map
    (· true) = some ([0, 0, 0, 0, 0, 0, 13, 14, 15, 0, 1, 2, 3, 4, 5] ++ List.replicate 17 0) := by
    decide
  rw [h] at hv
  exact ⟨m', h, Option.some.inj hv⟩

/-- Two full buffers of items that take no space, and two of them moved from the one to the
other. -/
theorem bulk_asserts_on_units : ¬ ∀ (addr : Bool → ℕ) (m : Mem Bool Unit) (j k : ℕ)
    (srcPos dstPos count : BitVec 16), Asks false j srcPos true k dstPos count.toNat m →
      ∃ m', transferItems addr false (maskOf 16 j) srcPos true (maskOf 16 k) dstPos count m =
        some m' ∧
        transferItemsScalar false (maskOf 16 j) srcPos true (maskOf 16 k) dstPos count m =
          some m' := by
  intro h
  have ha : Asks false 1 0#16 true 1 0#16 (2#16).toNat fun _ : Bool => [(), ()] :=
    ⟨by decide, by decide, by decide, by decide, by decide, by decide, by decide⟩
  obtain ⟨m', e, -⟩ := h (fun _ => 1) _ 1 1 0#16 0#16 2#16 ha
  have hv : transferItems (fun _ => 1) false (maskOf 16 1) 0#16 true (maskOf 16 1) 0#16 2#16
    (fun _ : Bool => [(), ()]) = none := by decide
  rw [hv] at e
  cases e

end St3.Transfer
