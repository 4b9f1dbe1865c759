import St3.Surroundings
import St3.Segment

/-!
What `extend`, `steal` and `steal_and_pop` do when nothing else runs, for both flavours at once.

A flavour brings the loads and stores of its own: what a call that fills a queue keeps of it,
what the loop of `book_items` holds on to, the stores at the end. Nothing else running, a
compare-exchange finds what was loaded; that it may fail spuriously only repeats the loop on
the same values. `none` is a compare-exchange that fails all the same, an assertion that fails,
or what is no item.
-/

namespace St3.Alone

open Words Slots Deque Transfer

universe u

/-- The unbounded positions that the words of a queue show: the head that moves when a steal is
finished, the head that moves when it is booked, and the tail as the difference of two counts.
(The FIFO queue counts no pops.) -/
structure Ring where
  k : ℕ
  stealer : ℕ
  front : ℕ
  pushes : ℕ
  pops : ℕ

namespace Ring

def tail (r : Ring) : ℕ := r.pushes - r.pops

structure Ok (w : ℕ) (r : Ring) : Prop where
  lt : r.k < w
  stealer : r.stealer ≤ r.front
  tail : r.front + r.pops ≤ r.pushes
  cap : r.pushes ≤ r.stealer + 2 ^ r.k + r.pops

end Ring

/-- One flavour of the queue. -/
structure Flavour (w : ℕ) (T : Type u) where
  Queue : Type u
  mask : Queue → BitVec w
  buffer : Queue → List (Slot T)
  setBuffer : List (Slot T) → Queue → Queue
  /-- What a call that fills the queue loads of it first. -/
  Kept : Type
  keep : Queue → Kept
  tail : Kept → BitVec w
  head : Kept → BitVec w
  /-- The store at the end of a steal into the queue. -/
  publish : Kept → BitVec w → Queue → Queue
  /-- The store at the end of `extend`. -/
  extendStore : Kept → BitVec w → Queue → Queue
  /-- What the loop of `book_items` holds on to. -/
  Look : Type
  look : Queue → Look
  /-- The item count, if no booking is under way and there are items. -/
  test : Look → Queue → Except StealError (BitVec w)
  cas : Look → BitVec w → Queue → Option Queue
  first : Look → BitVec w
  /-- The end of a steal that was booked from the one position to the other. -/
  release : BitVec w → BitVec w → Queue → Option Queue
  /-- What the words of a queue stand for. -/
  Shows : Queue → Ring → Prop
  mask_eq : ∀ {q r}, Shows q r → mask q = maskOf w r.k
  tail_eq : ∀ {q r}, Shows q r → tail (keep q) = word w r.pushes - word w r.pops
  head_eq : ∀ {q r}, Shows q r → head (keep q) = word w r.stealer
  buffer_setBuffer : ∀ b q, buffer (setBuffer b q) = b
  shows_setBuffer : ∀ {b q r}, Shows q r → Shows (setBuffer b q) r
  buffer_publish : ∀ v n q, buffer (publish v n q) = buffer q
  shows_publish : ∀ {q₀ r₀ q r} (n : ℕ), Shows q₀ r₀ → Shows q r →
    Shows (publish (keep q₀) (word w n) q) { r with pushes := r₀.pushes + n }
  extendStore_eq : ∀ v n q, extendStore v (tail v + n) q = publish v n q
  test_eq : ∀ {q r}, Shows q r → test (look q) q =
    if word w r.stealer ≠ word w r.front then .error .busy
    else if word w r.pushes - word w r.pops - word w r.front = 0#w then .error .empty
    else .ok (word w r.pushes - word w r.pops - word w r.front)
  cas_eq : ∀ {q r} (n : ℕ), Shows q r → ∃ q', cas (look q) (word w n) q = some q' ∧
    Shows q' { r with front := r.front + n } ∧ buffer q' = buffer q
  first_eq : ∀ {q r}, Shows q r → r.stealer = r.front → first (look q) = word w r.front
  release_eq : ∀ {q r}, Shows q r → ∃ q',
    release (word w r.stealer) (word w r.front) q = some q' ∧
      Shows q' { r with stealer := r.front } ∧ buffer q' = buffer q

variable {w : ℕ} {T : Type u} (F : Flavour w T)

namespace Flavour

def capacity (q : F.Queue) : BitVec w := F.mask q + 1#w

/-! ### `extend` -/

/-- The loop of `extend`, on the items that its iterator yields: an item it has been handed when
the buffer is full is dropped. -/
def extendLoop (mask maxTail : BitVec w) :
    List T → BitVec w → List (Slot T) → BitVec w × List (Slot T) × List T
  | [], tail, buf => (tail, buf, [])
  | x :: xs, tail, buf =>
    if tail = maxTail then (tail, buf, xs)
    else extendLoop mask maxTail xs (tail + 1#w) (writeAt buf mask tail x)

/-- `extend`, with what is left in the iterator. -/
def extend (xs : List T) (q : F.Queue) : F.Queue × List T :=
  let v := F.keep q
  let maxTail := F.head v + F.capacity q
  let (tail, buf, rest) := extendLoop (F.mask q) maxTail xs (F.tail v) (F.buffer q)
  (F.extendStore v tail (F.setBuffer buf q), rest)

/-! ### `steal` and `steal_and_pop` -/

/-- `book_items`: the first position, the count, and the queue with the booking. -/
def bookItems (countFn : ℕ → ℕ) (maxCount : BitVec w) (q : F.Queue) :
    Option (Except StealError (BitVec w × BitVec w × F.Queue)) :=
  let l := F.look q
  match F.test l q with
  | .error e => some (.error e)
  | .ok itemCount =>
    let count := bookCount (countFn itemCount.toNat) maxCount itemCount
    if count = 0#w then some (.error .empty)
    else (F.cas l count q).map fun q' => .ok (F.first l, count, q')

/-- What a steal has settled before it moves an item. -/
structure Plan where
  kept : F.Kept
  first : BitVec w
  count : BitVec w
  transferCount : BitVec w

/-- A steal up to its booking: `dest` is the destination when its free capacity is computed, `q`
the source when it is booked. -/
def plan (andPop : Bool) (countFn : ℕ → ℕ) (dest q : F.Queue) :
    Option (Except StealError (F.Plan × F.Queue)) :=
  let v := F.keep dest
  let free := F.capacity dest - (F.tail v - F.head v)
  if free ≤ F.capacity dest then
    (F.bookItems countFn (free + BitVec.ofNat w andPop.toNat) q).bind fun b =>
      match b with
      | .error e => some (.error e)
      | .ok (first, count, q') =>
        let transferCount := count - BitVec.ofNat w andPop.toNat
        if transferCount ≤ free then some (.ok (⟨v, first, count, transferCount⟩, q')) else none
  else none

section
variable {ι : Type*} [DecidableEq ι]

/-- The transfer of `n` items from the head of one queue to the tail of another comes past the
assertion on its chunks. -/
def Passes (addr : ι → ℕ) (src dst : ι) (σ : ι → F.Queue) (n : ℕ) : Prop :=
  Transfer.Passes addr src (F.mask (σ src)) (F.first (F.look (σ src))) dst (F.mask (σ dst))
    (F.tail (F.keep (σ dst))) n

instance (addr : ι → ℕ) (src dst : ι) (σ : ι → F.Queue) (n : ℕ) :
    Decidable (F.Passes addr src dst σ n) :=
  inferInstanceAs (Decidable (Transfer.Passes ..))

/-- The queues with the buffers that `transfer_items` leaves, the slots it has read marked. -/
def relocate (src dst : ι) (p : F.Plan) (m : Mem ι (Slot T)) (σ : ι → F.Queue) : ι → F.Queue :=
  let σ₁ := Function.update σ dst (F.setBuffer (m dst) (σ dst))
  let buf := vacate (F.buffer (σ₁ src)) (F.mask (σ src)) p.first p.transferCount.toNat
  Function.update σ₁ src (F.setBuffer buf (σ₁ src))

/-- The move of the items, between buffers at the addresses `addr`. -/
def moveOut (addr : ι → ℕ) (src dst : ι) (p : F.Plan) (σ : ι → F.Queue) : Option (ι → F.Queue) :=
  (transferItems addr src (F.mask (σ src)) p.first dst (F.mask (σ dst)) (F.tail p.kept)
      p.transferCount fun i => F.buffer (σ i)).map fun m => F.relocate src dst p m σ

/-- The two stores at the end of a steal. -/
def finish (src dst : ι) (p : F.Plan) (σ : ι → F.Queue) : Option (ι → F.Queue) :=
  let σ₁ := Function.update σ dst (F.publish p.kept p.transferCount (σ dst))
  (F.release p.first (p.first + p.count) (σ₁ src)).map fun q => Function.update σ₁ src q

def steal (addr : ι → ℕ) (countFn : ℕ → ℕ) (src dst : ι) (σ : ι → F.Queue) :
    Option (Except StealError ℕ × (ι → F.Queue)) :=
  (F.plan false countFn (σ dst) (σ src)).bind fun b =>
    match b with
    | .error e => some (.error e, σ)
    | .ok (p, q) =>
      (F.moveOut addr src dst p (Function.update σ src q)).bind fun σ₁ =>
        (F.finish src dst p σ₁).map fun σ₂ => (.ok p.transferCount.toNat, σ₂)

def stealAndPop (addr : ι → ℕ) (countFn : ℕ → ℕ) (src dst : ι) (σ : ι → F.Queue) :
    Option (Except StealError (T × ℕ) × (ι → F.Queue)) :=
  (F.plan true countFn (σ dst) (σ src)).bind fun b =>
    match b with
    | .error e => some (.error e, σ)
    | .ok (p, q) =>
      (F.moveOut addr src dst p (Function.update σ src q)).bind fun σ₁ =>
        let (x, buf) := readAt (F.buffer (σ₁ src)) (F.mask (σ₁ src)) (p.first + p.transferCount)
        let σ₂ := Function.update σ₁ src (F.setBuffer buf (σ₁ src))
        x.bind fun lastItem =>
          (F.finish src dst p σ₂).map fun σ₃ => (.ok (lastItem, p.transferCount.toNat), σ₃)

end

/-! ### Positions -/

variable {F} {q q' dest : F.Queue} {r r₀ : Ring} {xs ys : List T}

lemma word_tail (h : r.Ok w) : word w r.pushes - word w r.pops = word w r.tail :=
  word_sub (by have := h.tail; omega)

/-- The item count that `book_items` computes. -/
lemma word_count (h : r.Ok w) :
    word w r.pushes - word w r.pops - word w r.front = word w (r.tail - r.front) := by
  have := h.tail
  rw [word_tail h, word_sub (by rw [Ring.tail]; omega)]

lemma count_le (h : r.Ok w) : r.tail - r.front ≤ 2 ^ r.k := by
  have h1 := h.stealer
  have h2 := h.cap
  have h3 := Nat.two_pow_pos r.k
  rw [Ring.tail]
  omega

/-- The free capacity that a steal computes. -/
lemma word_free (hs : F.Shows q r) (h : r.Ok w) :
    F.capacity q - (F.tail (F.keep q) - F.head (F.keep q)) =
      word w (2 ^ r.k - (r.tail - r.stealer)) := by
  have h1 := h.stealer
  have h2 := h.tail
  have h3 := h.cap
  rw [F.tail_eq hs, F.head_eq hs, word_tail h, word_sub (by rw [Ring.tail]; omega), capacity,
    F.mask_eq hs, maskOf_add_one, word_sub (by rw [Ring.tail]; omega)]

lemma toNat_capacity (hs : F.Shows q r) (h : r.Ok w) : (F.capacity q).toNat = 2 ^ r.k := by
  rw [capacity, F.mask_eq hs, maskOf_add_one, toNat_word (two_pow_lt h.lt)]

lemma two_pow_succ_lt (hw : 1 < w) {k : ℕ} (hk : k < w) : 2 ^ k + 1 < 2 ^ w := by
  have h1 : 2 ^ k ≤ 2 ^ (w - 1) := Nat.pow_le_pow_right (by omega) (by omega)
  have h2 : 2 ^ w = 2 * 2 ^ (w - 1) := by
    rw [← Nat.pow_succ', Nat.sub_one, Nat.succ_pred (by omega)]
  have h3 : 2 ^ 1 ≤ 2 ^ (w - 1) := Nat.pow_le_pow_right (by omega) (by omega)
  omega

/-- The count that a steal books: what `count_fn` answers, cut to the room in the destination
and to the items in the source. -/
def grab (andPop : Bool) (countFn : ℕ → ℕ) (r₀ r : Ring) : ℕ :=
  min (min (countFn (r.tail - r.front)) (2 ^ r₀.k - (r₀.tail - r₀.stealer) + andPop.toNat))
    (r.tail - r.front)

lemma grab_le (r₀ r : Ring) (andPop : Bool) (countFn : ℕ → ℕ) :
    grab andPop countFn r₀ r ≤ 2 ^ r₀.k - (r₀.tail - r₀.stealer) + andPop.toNat ∧
      grab andPop countFn r₀ r ≤ r.tail - r.front := by
  unfold grab
  omega

/-- What a steal settles before it moves an item. -/
lemma plan_spec (hw : 1 < w) (andPop : Bool) (countFn : ℕ → ℕ) (hd : F.Shows dest r₀)
    (h₀ : r₀.Ok w) (hs : F.Shows q r) (h : r.Ok w) (hq : r.stealer = r.front) :
    (grab andPop countFn r₀ r = 0 → F.plan andPop countFn dest q = some (.error .empty)) ∧
      (grab andPop countFn r₀ r ≠ 0 → ∃ q',
        F.plan andPop countFn dest q = some (.ok (⟨F.keep dest, word w r.front,
          word w (grab andPop countFn r₀ r),
          word w (grab andPop countFn r₀ r - andPop.toNat)⟩, q')) ∧
        F.Shows q' { r with front := r.front + grab andPop countFn r₀ r } ∧
        F.buffer q' = F.buffer q) := by
  have hm : andPop.toNat ≤ 1 := Bool.toNat_le andPop
  have hk := two_pow_succ_lt hw h₀.lt
  have hk' := two_pow_succ_lt hw h.lt
  have hn := count_le h
  obtain ⟨hg1, hg2⟩ := grab_le r₀ r andPop countFn
  have hfree : (word w (2 ^ r₀.k - (r₀.tail - r₀.stealer))).toNat =
      2 ^ r₀.k - (r₀.tail - r₀.stealer) := toNat_word (by omega)
  have hle₀ : r₀.tail - r₀.stealer ≤ 2 ^ r₀.k := by
    have := h₀.cap
    have := Nat.two_pow_pos r₀.k
    rw [Ring.tail]
    omega
  have hcap : word w (2 ^ r₀.k - (r₀.tail - r₀.stealer)) ≤ F.capacity dest := by
    rw [BitVec.le_def, toNat_capacity hd h₀, hfree]
    omega
  have hcount : bookCount (countFn (word w (r.tail - r.front)).toNat)
      (word w (2 ^ r₀.k - (r₀.tail - r₀.stealer)) + word w andPop.toNat)
      (word w (r.tail - r.front)) = word w (grab andPop countFn r₀ r) := by
    rw [bookCount, word_add, toNat_word (by omega), toNat_word (by omega)]
    rfl
  have hzero : word w (grab andPop countFn r₀ r) = 0#w ↔ grab andPop countFn r₀ r = 0 :=
    word_inj (b := 0) (Nat.zero_le _) (by omega)
  unfold plan bookItems
  simp only [word_free hd h₀, F.test_eq hs, word_count h]
  rw [if_pos hcap, if_neg (by rw [hq]; exact fun hne => hne rfl)]
  by_cases hn0 : r.tail - r.front = 0
  · have hg : grab andPop countFn r₀ r = 0 := by omega
    rw [if_pos (by rw [hn0])]
    exact ⟨fun _ => rfl, fun hne => absurd hg hne⟩
  · rw [if_neg fun e => hn0 ((word_inj (b := 0) (Nat.zero_le _) (by omega)).mp e)]
    simp only [hcount]
    constructor
    · intro hg
      rw [if_pos (hzero.mpr hg)]
      rfl
    · intro hg
      obtain ⟨q', e, hq', hb⟩ := F.cas_eq (grab andPop countFn r₀ r) hs
      rw [if_neg (mt hzero.mp hg), e, F.first_eq hs hq]
      refine ⟨q', ?_, hq', hb⟩
      have hle : word w (grab andPop countFn r₀ r) - word w andPop.toNat ≤
          word w (2 ^ r₀.k - (r₀.tail - r₀.stealer)) := by
        rw [word_sub (by omega), BitVec.le_def, hfree, toNat_word (by omega)]
        omega
      simp only [Option.map_some, Option.bind_some]
      rw [if_pos hle, word_sub (by omega)]

/-! ### The copy -/

section
variable {ι : Type*} [DecidableEq ι] {src dst : ι} {σ σ₁ : ι → F.Queue} {p : F.Plan} {S D n : ℕ}

lemma shows_relocate {m : Mem ι (Slot T)} {i : ι} (h : F.Shows (σ i) r) :
    F.Shows (F.relocate src dst p m σ i) r := by
  have h' : F.Shows (Function.update σ dst (F.setBuffer (m dst) (σ dst)) i) r := by
    by_cases hi : i = dst
    · subst hi
      rw [Function.update_self]
      exact F.shows_setBuffer h
    · rwa [Function.update_of_ne hi]
  unfold relocate
  by_cases hi : i = src
  · subst hi
    rw [Function.update_self]
    exact F.shows_setBuffer h'
  · rwa [Function.update_of_ne hi]

lemma relocate_other {m : Mem ι (Slot T)} {i : ι} (hs : i ≠ src) (hd : i ≠ dst) :
    F.relocate src dst p m σ i = σ i := by
  rw [relocate, Function.update_of_ne hs, Function.update_of_ne hd]

lemma buffer_relocate (src : ι) (p : F.Plan) {m : Mem ι (Slot T)} (i : ι)
    (hm : ∀ i, i ≠ dst → m i = F.buffer (σ i)) :
    F.buffer (F.relocate src dst p m σ i) =
      if i = src then vacate (m i) (F.mask (σ i)) p.first p.transferCount.toNat else m i := by
  have h' : F.buffer (Function.update σ dst (F.setBuffer (m dst) (σ dst)) i) = m i := by
    by_cases hi : i = dst
    · subst hi
      rw [Function.update_self, F.buffer_setBuffer]
    · rw [Function.update_of_ne hi, hm i hi]
  unfold relocate
  split_ifs with hi
  · subst hi
    rw [Function.update_self, F.buffer_setBuffer, h']
  · rw [Function.update_of_ne hi, h']

/-- The copy of `n` slots from position `S` of the source to position `D` of the destination. -/
lemma moveOut_slots (addr : ι → ℕ) (hs : F.Shows (σ src) r) (hd : F.Shows (σ dst) r₀) (hk : r.k < w)
    (hk₀ : r₀.k < w) (hl : (F.buffer (σ src)).length = 2 ^ r.k)
    (hl₀ : (F.buffer (σ dst)).length = 2 ^ r₀.k) (hf : p.first = word w S)
    (ht : F.tail p.kept = word w D) (hc : p.transferCount = word w n) (hn : n ≤ 2 ^ r.k)
    (hn₀ : n ≤ 2 ^ r₀.k) (hx : src = dst → S + n ≤ D ∧ D + n ≤ S + 2 ^ r.k) :
    ∃ σ₁, F.moveOut addr src dst p σ = (if Transfer.Passes addr src (F.mask (σ src)) p.first dst
        (F.mask (σ dst)) (F.tail p.kept) n then some σ₁ else none) ∧
      (∀ i r', F.Shows (σ i) r' → F.Shows (σ₁ i) r') ∧
      (∀ i, i ≠ src → i ≠ dst → σ₁ i = σ i) ∧
      (∀ i, (F.buffer (σ₁ i)).length = (F.buffer (σ i)).length) ∧
      (∀ o < n, (F.buffer (σ₁ dst))[(D + o) % 2 ^ r₀.k]? =
        (F.buffer (σ src))[(S + o) % 2 ^ r.k]?) ∧
      ∀ i j, (i = src → ∀ o < n, (S + o) % 2 ^ r.k ≠ j) →
        (i = dst → ∀ o < n, (D + o) % 2 ^ r₀.k ≠ j) →
        (F.buffer (σ₁ i))[j]? = (F.buffer (σ i))[j]? := by
  have hcn : p.transferCount.toNat = n := by rw [hc, toNat_word (by have := two_pow_lt hk; omega)]
  have hmask : src = dst → r.k = r₀.k := by
    rintro rfl
    rw [hl] at hl₀
    exact Nat.pow_right_injective le_rfl hl₀
  -- in one queue, the slots that are read are none of those that are written
  have hapart : src = dst → ∀ o < n, ∀ o' < n, (S + o) % 2 ^ r.k ≠ (D + o') % 2 ^ r₀.k := by
    intro hxe o ho o' ho' e
    obtain ⟨h1, h2⟩ := hx hxe
    rw [← hmask hxe] at e
    have := eq_of_mod_eq S ⟨by omega, by omega⟩ ⟨by omega, by omega⟩ e
    omega
  have hask : Asks src r.k p.first dst r₀.k (F.tail p.kept) p.transferCount.toNat
      fun i => F.buffer (σ i) := by
    refine ⟨hk, hk₀, hl, hl₀, by omega, by omega, fun hxe o ho o' ho' e => ?_⟩
    rw [hf, ht, ringSlot_word hk, ringSlot_word hk₀] at e
    exact hapart hxe o (by omega) o' (by omega) e
  obtain ⟨m', e, hm⟩ := transferItems_spec addr hask
  rw [← F.mask_eq hs, ← F.mask_eq hd, hcn] at e
  rw [hf, ht, hcn] at hm
  have hbuf := fun i => buffer_relocate src p i hm.other
  have hvac : ∀ buf : List (Slot T), ∀ j, (∀ o < n, (S + o) % 2 ^ r.k ≠ j) →
      (vacate buf (maskOf w r.k) (word w S) n)[j]? = buf[j]? :=
    fun buf j hj => getElem?_vacate _ _ fun o ho => by rw [ringSlot_word hk]; exact hj o ho
  refine ⟨F.relocate src dst p m' σ, by rw [moveOut, e]; split_ifs <;> rfl,
    fun i r' => shows_relocate, fun i => relocate_other, fun i => ?_, fun o ho => ?_,
    fun i j h1 h2 => ?_⟩
  · have hlen : (m' i).length = (F.buffer (σ i)).length := by
      by_cases hi : i = dst
      · rw [hi, hm.len]
      · rw [hm.other i hi]
    rw [hbuf]
    split_ifs
    · rw [length_vacate, hlen]
    · exact hlen
  · have hitem := hm.item o (Nat.zero_le o) ho
    rw [ringSlot_word hk₀, ringSlot_word hk] at hitem
    rw [hbuf, ← hitem]
    split_ifs with h1
    · rw [hf, h1, F.mask_eq hs, hcn, hvac _ _ fun o' ho' => hapart h1.symm o' ho' o ho]
    · rfl
  · have hrest : (m' i)[j]? = (F.buffer (σ i))[j]? := by
      by_cases hi : i = dst
      · subst hi
        exact hm.rest j fun o _ ho => by rw [ringSlot_word hk₀]; exact h2 rfl o ho
      · rw [hm.other i hi]
    rw [hbuf, ← hrest]
    split_ifs with hi
    · subst hi
      rw [hf, F.mask_eq hs, hcn, hvac _ _ (h1 rfl)]
    · rfl

/-- The copy of `n` items from position `S` of the source to position `D` of the destination. -/
lemma moveOut_spec (addr : ι → ℕ) (hs : F.Shows (σ src) r) (hd : F.Shows (σ dst) r₀) (hk : r.k < w)
    (hk₀ : r₀.k < w) (hl : (F.buffer (σ src)).length = 2 ^ r.k)
    (hl₀ : (F.buffer (σ dst)).length = 2 ^ r₀.k) (hf : p.first = word w S)
    (ht : F.tail p.kept = word w D) (hc : p.transferCount = word w n) (hn : n ≤ 2 ^ r.k)
    (hn₀ : n ≤ 2 ^ r₀.k) (hx : src = dst → S + n ≤ D ∧ D + n ≤ S + 2 ^ r.k) :
    ∃ σ₁, F.moveOut addr src dst p σ = (if Transfer.Passes addr src (F.mask (σ src)) p.first dst
        (F.mask (σ dst)) (F.tail p.kept) n then some σ₁ else none) ∧
      (∀ i r', F.Shows (σ i) r' → F.Shows (σ₁ i) r') ∧
      (∀ i, i ≠ src → i ≠ dst → σ₁ i = σ i) ∧
      (∀ i, (F.buffer (σ₁ i)).length = (F.buffer (σ i)).length) ∧
      (∀ xs, n ≤ xs.length → Seg (F.buffer (σ src)) (2 ^ r.k) S xs →
        Seg (F.buffer (σ₁ dst)) (2 ^ r₀.k) D (xs.take n)) ∧
      (∀ pos ys, src ≠ dst → Seg (F.buffer (σ dst)) (2 ^ r₀.k) pos ys → pos + ys.length ≤ D →
        D + n ≤ pos + 2 ^ r₀.k → Seg (F.buffer (σ₁ dst)) (2 ^ r₀.k) pos ys) ∧
      ∀ pos ys, Seg (F.buffer (σ src)) (2 ^ r.k) pos ys → S + n ≤ pos →
        pos + ys.length ≤ S + 2 ^ r.k →
        (src = dst → pos + ys.length ≤ D ∧ D + n ≤ pos + 2 ^ r.k) →
        Seg (F.buffer (σ₁ src)) (2 ^ r.k) pos ys := by
  obtain ⟨σ₁, e, hsh, ho, hlen, hcame, hrest⟩ :=
    moveOut_slots addr hs hd hk hk₀ hl hl₀ hf ht hc hn hn₀ hx
  have hmask : src = dst → r.k = r₀.k := by
    rintro rfl
    rw [hl] at hl₀
    exact Nat.pow_right_injective le_rfl hl₀
  refine ⟨σ₁, e, hsh, ho, hlen, fun xs hxs hseg i x hi => ?_,
    fun pos ys hne hseg h1 h2 => hseg.agree fun i hi => ?_,
    fun pos ys hseg h1 h2 hxx => hseg.agree fun i hi => ?_⟩
  · have hlt : i < n := by
      have := (List.getElem?_eq_some_iff.mp hi).1
      rw [List.length_take] at this
      omega
    rw [hcame i hlt]
    exact hseg i x (by rwa [List.getElem?_take_of_lt hlt] at hi)
  · refine hrest dst _ (fun he => absurd he.symm hne) fun _ o ho e => ?_
    have := eq_of_mod_eq pos ⟨by omega, by omega⟩ ⟨by omega, by omega⟩ e
    omega
  · refine hrest src _ (fun _ o ho e => ?_) fun he o ho e => ?_
    · have := eq_of_mod_eq S ⟨by omega, by omega⟩ ⟨by omega, by omega⟩ e
      omega
    · obtain ⟨h4, h5⟩ := hxx he
      rw [← hmask he] at e
      have := eq_of_mod_eq pos ⟨by omega, by omega⟩ ⟨by omega, by omega⟩ e
      omega

/-- The two stores at the end of a steal. -/
lemma finish_spec {q₀ : F.Queue} {rd : Ring} (h₀ : F.Shows q₀ r₀) (hs : F.Shows (σ src) r)
    (hd : F.Shows (σ dst) rd) (hv : p.kept = F.keep q₀) (hf : p.first = word w r.stealer)
    (hc : p.first + p.count = word w r.front) (ht : p.transferCount = word w n) :
    ∃ σ₁, F.finish src dst p σ = some σ₁ ∧ (∀ i, i ≠ src → i ≠ dst → σ₁ i = σ i) ∧
      (∀ i, F.buffer (σ₁ i) = F.buffer (σ i)) ∧
      (src ≠ dst → F.Shows (σ₁ src) { r with stealer := r.front } ∧
        F.Shows (σ₁ dst) { rd with pushes := r₀.pushes + n }) ∧
      (src = dst → F.Shows (σ₁ src) { r with stealer := r.front, pushes := r₀.pushes + n }) := by
  have hp : F.Shows (F.publish p.kept p.transferCount (σ dst))
      { rd with pushes := r₀.pushes + n } := by
    rw [hv, ht]
    exact F.shows_publish n h₀ hd
  unfold finish
  by_cases hx : src = dst
  · subst hx
    have hp' := F.shows_publish n h₀ hs
    rw [← hv, ← ht] at hp'
    obtain ⟨q', e, hq', hb⟩ := F.release_eq hp'
    simp only at e hq'
    rw [← hf, ← hc] at e
    simp only [Function.update_self, Function.update_idem]
    refine ⟨Function.update σ src q', by rw [e]; rfl, fun i hi _ => Function.update_of_ne hi _ _,
      fun i => ?_, fun hne => absurd rfl hne, fun _ => by rw [Function.update_self]; exact hq'⟩
    by_cases hi : i = src
    · subst hi
      rw [Function.update_self, hb, F.buffer_publish]
    · rw [Function.update_of_ne hi]
  · obtain ⟨q', e, hq', hb⟩ := F.release_eq hs
    rw [← hf, ← hc] at e
    simp only [Function.update_of_ne hx, e, Option.map_some]
    refine ⟨_, rfl, fun i hi hi' => ?_, fun i => ?_, fun _ => ⟨?_, ?_⟩, fun he => absurd he hx⟩
    · rw [Function.update_of_ne hi, Function.update_of_ne hi']
    · by_cases hi : i = src
      · subst hi
        rw [Function.update_self, hb]
      · rw [Function.update_of_ne hi]
        by_cases hi' : i = dst
        · subst hi'
          rw [Function.update_self, F.buffer_publish]
        · rw [Function.update_of_ne hi']
    · rwa [Function.update_self]
    · rwa [Function.update_of_ne (Ne.symm hx), Function.update_self]

end

/-! ### What a queue stores -/

variable (F) in
/-- No booking is under way, and the queue stores `xs`, from its head to its tail. -/
structure Contents (q : F.Queue) (r : Ring) (xs : List T) : Prop where
  shows' : F.Shows q r
  ok : r.Ok w
  quiet : r.stealer = r.front
  len : (F.buffer q).length = 2 ^ r.k
  tail : r.tail = r.front + xs.length
  seg : Seg (F.buffer q) (2 ^ r.k) r.front xs

variable (F) in
def Stores (q : F.Queue) (xs : List T) : Prop := ∃ r, F.Contents q r xs

lemma Contents.le (h : F.Contents q r xs) : xs.length ≤ 2 ^ r.k := by
  have h1 := count_le h.ok
  have h2 := h.tail
  omega

lemma Contents.pushes (h : F.Contents q r xs) : r.pushes = r.front + xs.length + r.pops := by
  have h1 := h.ok.tail
  have h2 := h.tail
  rw [Ring.tail] at h2
  omega

/-- The words of a queue say how many items it stores. -/
lemma Contents.length_eq (h : F.Contents q r xs) (h' : F.Contents q r₀ ys) :
    xs.length = ys.length := by
  have e : ∀ {r : Ring} {xs : List T}, F.Contents q r xs →
      (F.tail (F.keep q) - F.head (F.keep q)).toNat = xs.length := by
    intro r xs h
    have h1 := h.le
    have h2 := two_pow_lt h.ok.lt
    rw [F.tail_eq h.shows', F.head_eq h.shows', word_tail h.ok, h.tail, h.quiet,
      word_sub (by omega), Nat.add_sub_cancel_left, toNat_word (by omega)]
  rw [← e h, e h']

section
variable {ι : Type*} [DecidableEq ι] {src dst : ι} {σ σ₁ : ι → F.Queue} {p : F.Plan} {n t : ℕ}

variable (F) in
/-- Of the items `xs` of the source the first `n` were taken, and the first `t` of them appended
to the items `ys` of the destination. -/
structure Stolen (src dst : ι) (xs ys : List T) (n t : ℕ) (σ σ' : ι → F.Queue) : Prop where
  other : ∀ i, i ≠ src → i ≠ dst → σ' i = σ i
  source : src ≠ dst → F.Stores (σ' src) (xs.drop n)
  dest : src ≠ dst → F.Stores (σ' dst) (ys ++ xs.take t)
  self : src = dst → F.Stores (σ' src) (xs.drop n ++ xs.take t)

/-- The queues once the items were copied and taken, before the stores at the end. -/
structure Copied (src dst : ι) (r r₀ : Ring) (xs ys : List T) (n t : ℕ) (σ σ₁ : ι → F.Queue) :
    Prop where
  other : ∀ i, i ≠ src → i ≠ dst → σ₁ i = σ i
  len : ∀ i, (F.buffer (σ₁ i)).length = (F.buffer (σ i)).length
  source : F.Shows (σ₁ src) { r with front := r.front + n }
  dest : src ≠ dst → F.Shows (σ₁ dst) r₀
  left : Seg (F.buffer (σ₁ src)) (2 ^ r.k) (r.front + n) (xs.drop n)
  came : Seg (F.buffer (σ₁ dst)) (2 ^ r₀.k) (r₀.front + ys.length) (xs.take t)
  kept : src ≠ dst → Seg (F.buffer (σ₁ dst)) (2 ^ r₀.k) r₀.front ys

/-- What is true of the two queues when a steal starts: they may be one queue. -/
structure Ready (src dst : ι) (r r₀ : Ring) (xs ys : List T) (σ : ι → F.Queue) : Prop where
  source : F.Contents (σ src) r xs
  dest : F.Contents (σ dst) r₀ ys
  self : src = dst → r₀ = r ∧ ys = xs

lemma finish_stolen (h : Ready src dst r r₀ xs ys σ) (hn : n ≤ xs.length) (htn : t ≤ n)
    (ht : t ≤ 2 ^ r₀.k - ys.length) (hc : Copied src dst r r₀ xs ys n t σ σ₁)
    (hv : p.kept = F.keep (σ dst)) (hf : p.first = word w r.front) (hcnt : p.count = word w n)
    (htc : p.transferCount = word w t) :
    ∃ σ₂, F.finish src dst p σ₁ = some σ₂ ∧ F.Stolen src dst xs ys n t σ σ₂ := by
  have h1 := h.source.pushes
  have h2 := h.dest.pushes
  have h3 := h.source.le
  have h4 := h.dest.le
  have h5 := h.source.quiet
  have h6 := h.dest.quiet
  have hl := h.source.len
  have hl₀ := h.dest.len
  have hd : F.Shows (σ₁ dst) (if src = dst then { r with front := r.front + n } else r₀) := by
    split_ifs with hx
    · rw [← hx]
      exact hc.source
    · exact hc.dest hx
  obtain ⟨σ₂, e, ho, hb, hne, he⟩ := finish_spec (p := p) (n := t) h.dest.shows' hc.source hd hv
    (by rw [hf, h5]) (by rw [hf, hcnt, word_add]) htc
  refine ⟨σ₂, e, fun i hi hi' => (ho i hi hi').trans (hc.other i hi hi'), ?_, ?_, ?_⟩
  · intro hx
    refine ⟨_, (hne hx).1, ⟨h.source.ok.lt, le_rfl, ?_, ?_⟩, rfl, ?_, ?_, ?_⟩
    · simp only
      omega
    · simp only
      omega
    · rw [hb, hc.len, hl]
    · simp only [Ring.tail, List.length_drop]
      omega
    · rw [hb]
      exact hc.left
  · intro hx
    have hs := (hne hx).2
    rw [if_neg hx] at hs
    refine ⟨_, hs, ⟨h.dest.ok.lt, h.dest.ok.stealer, ?_, ?_⟩, h6, ?_, ?_, ?_⟩
    · simp only
      omega
    · simp only
      omega
    · rw [hb, hc.len, hl₀]
    · simp only [Ring.tail, List.length_append, List.length_take]
      omega
    · rw [hb]
      exact (hc.kept hx).append hc.came
  · intro hx
    obtain ⟨rfl, rfl⟩ := h.self hx
    subst hx
    refine ⟨_, he rfl, ⟨h.source.ok.lt, le_rfl, ?_, ?_⟩, rfl, ?_, ?_, ?_⟩
    · simp only
      omega
    · simp only
      omega
    · rw [hb, hc.len, hl]
    · simp only [Ring.tail, List.length_append, List.length_take, List.length_drop]
      omega
    · rw [hb]
      refine hc.left.append ?_
      have := hc.came
      rwa [List.length_drop, Nat.add_assoc, Nat.add_sub_of_le hn]

/-- The copy, from a source that has just been booked. -/
lemma moveOut_copied (addr : ι → ℕ) (h : Ready src dst r r₀ xs ys σ) (hn : n ≤ xs.length)
    (htn : t ≤ n) (ht : t ≤ 2 ^ r₀.k - ys.length) (hq' : F.Shows q' { r with front := r.front + n })
    (hb : F.buffer q' = F.buffer (σ src)) (hv : p.kept = F.keep (σ dst))
    (hf : p.first = word w r.front) (htc : p.transferCount = word w t) :
    ∃ σ₁, F.moveOut addr src dst p (Function.update σ src q') =
        (if F.Passes addr src dst σ t then some σ₁ else none) ∧
      (∀ i, i ≠ src → i ≠ dst → σ₁ i = σ i) ∧
      (∀ i, (F.buffer (σ₁ i)).length = (F.buffer (σ i)).length) ∧
      F.Shows (σ₁ src) { r with front := r.front + n } ∧ (src ≠ dst → F.Shows (σ₁ dst) r₀) ∧
      Seg (F.buffer (σ₁ src)) (2 ^ r.k) (r.front + t) (xs.drop t) ∧
      Seg (F.buffer (σ₁ dst)) (2 ^ r₀.k) (r₀.front + ys.length) (xs.take t) ∧
      (src ≠ dst → Seg (F.buffer (σ₁ dst)) (2 ^ r₀.k) r₀.front ys) := by
  have h3 := h.source.le
  have h4 := h.dest.le
  have hbuf : ∀ i, F.buffer (Function.update σ src q' i) = F.buffer (σ i) := by
    intro i
    by_cases hi : i = src
    · subst hi
      rw [Function.update_self, hb]
    · rw [Function.update_of_ne hi]
  have hs : F.Shows (Function.update σ src q' src) { r with front := r.front + n } := by
    rwa [Function.update_self]
  have hd : ∃ rd : Ring, F.Shows (Function.update σ src q' dst) rd ∧ rd.k = r₀.k := by
    by_cases hx : src = dst
    · obtain ⟨rfl, rfl⟩ := h.self hx
      subst hx
      exact ⟨_, hs, rfl⟩
    · exact ⟨r₀, by rw [Function.update_of_ne (Ne.symm hx)]; exact h.dest.shows', rfl⟩
  obtain ⟨rd, hd, hk⟩ := hd
  have htail : F.tail p.kept = word w (r₀.front + ys.length) := by
    rw [hv, F.tail_eq h.dest.shows', word_tail h.dest.ok, h.dest.tail]
  obtain ⟨σ₁, e, hsh, ho, hlen, hcame, hkept, hleft⟩ := moveOut_spec addr (p := p) (S := r.front)
    (D := r₀.front + ys.length) (n := t) hs hd h.source.ok.lt (by rw [hk]; exact h.dest.ok.lt)
    (by rw [hbuf]; exact h.source.len) (by rw [hbuf, hk]; exact h.dest.len) hf htail htc
    (by simp only; omega) (by rw [hk]; omega) (by
      intro hx
      obtain ⟨rfl, rfl⟩ := h.self hx
      simp only
      omega)
  rw [hbuf, hk] at hcame
  rw [hbuf, hk] at hkept
  rw [hbuf] at hleft
  have hpasses : Transfer.Passes addr src (F.mask (Function.update σ src q' src)) p.first dst
      (F.mask (Function.update σ src q' dst)) (F.tail p.kept) t ↔ F.Passes addr src dst σ t := by
    rw [Passes, F.mask_eq hs, F.mask_eq hd, hk, hf, hv, F.mask_eq h.source.shows',
      F.mask_eq h.dest.shows', F.first_eq h.source.shows' h.source.quiet]
  simp only [hpasses] at e
  refine ⟨σ₁, e, fun i hi hi' => ?_, fun i => by rw [hlen, hbuf], hsh _ _ hs, fun hx => ?_, ?_,
    hcame xs (by omega) h.source.seg, fun hx => ?_⟩
  · rw [ho i hi hi', Function.update_of_ne hi]
  · refine hsh _ _ ?_
    rw [Function.update_of_ne (Ne.symm hx)]
    exact h.dest.shows'
  · refine hleft _ _ h.source.seg.drop le_rfl ?_ fun hx => ?_
    · rw [List.length_drop]
      simp only
      omega
    · obtain ⟨rfl, rfl⟩ := h.self hx
      rw [List.length_drop]
      simp only
      omega
  · exact hkept _ _ hx h.dest.seg le_rfl (by omega)

omit [DecidableEq ι] in
/-- The count a steal books, in terms of what the queues store. -/
lemma Ready.grab_eq (h : Ready src dst r r₀ xs ys σ) (m : Bool) (countFn : ℕ → ℕ) :
    grab m countFn r₀ r = min (min (countFn xs.length)
      ((F.capacity (σ dst)).toNat - ys.length + m.toNat)) xs.length := by
  have h1 := h.source.tail
  have h2 := h.dest.tail
  have h3 := h.dest.quiet
  rw [grab, toNat_capacity h.dest.shows' h.dest.ok, h1, h2, h3, Nat.add_sub_cancel_left,
    Nat.add_sub_cancel_left]

lemma steal_spec (hw : 1 < w) (addr : ι → ℕ) (h : Ready src dst r r₀ xs ys σ) (countFn : ℕ → ℕ)
    (hn : n = min (min (countFn xs.length) ((F.capacity (σ dst)).toNat - ys.length)) xs.length) :
    (n = 0 → F.steal addr countFn src dst σ = some (.error .empty, σ)) ∧
      (n ≠ 0 → ∃ σ', F.steal addr countFn src dst σ =
          (if F.Passes addr src dst σ n then some (.ok n, σ') else none) ∧
        F.Stolen src dst xs ys n n σ σ') := by
  have hg : grab false countFn r₀ r = n := by rw [h.grab_eq, hn]; rfl
  have hcap := toNat_capacity h.dest.shows' h.dest.ok
  obtain ⟨hp0, hp1⟩ := plan_spec hw false countFn h.dest.shows' h.dest.ok h.source.shows'
    h.source.ok h.source.quiet
  rw [hg] at hp0 hp1
  unfold steal
  constructor
  · intro h0
    rw [hp0 h0]
    rfl
  · intro h0
    obtain ⟨q', e, hq', hb⟩ := hp1 h0
    have h3 := h.source.le
    obtain ⟨σ₁, e₁, ho, hl, hs, hd, hleft, hcame, hkept⟩ :=
      moveOut_copied addr (n := n) (t := n) (p := ⟨F.keep (σ dst), word w r.front, word w n,
        word w (n - false.toNat)⟩) h (by omega) le_rfl (by omega) hq' hb rfl rfl rfl
    obtain ⟨σ₂, e₂, h₂⟩ := finish_stolen (p := ⟨F.keep (σ dst), word w r.front, word w n,
      word w (n - false.toNat)⟩) h (by omega) le_rfl (by omega)
      ⟨ho, hl, hs, hd, hleft, hcame, hkept⟩ rfl rfl rfl rfl
    refine ⟨σ₂, ?_, h₂⟩
    have hlt := two_pow_lt h.source.ok.lt
    rw [e]
    simp only [Bool.toNat_false, Nat.sub_zero, Option.bind_some] at e₁ e₂ ⊢
    rw [e₁]
    split_ifs
    · simp only [Option.bind_some, e₂, Option.map_some]
      rw [toNat_word (by omega)]
    · rfl

lemma stealAndPop_spec (hw : 1 < w) (addr : ι → ℕ) (h : Ready src dst r r₀ xs ys σ)
    (countFn : ℕ → ℕ)
    (hn : n = min (min (countFn xs.length) ((F.capacity (σ dst)).toNat - ys.length + 1))
      xs.length) :
    (n = 0 → F.stealAndPop addr countFn src dst σ = some (.error .empty, σ)) ∧
      (n ≠ 0 → ∃ σ' x, xs[n - 1]? = some x ∧ F.stealAndPop addr countFn src dst σ =
          (if F.Passes addr src dst σ (n - 1) then some (.ok (x, n - 1), σ') else none) ∧
        F.Stolen src dst xs ys n (n - 1) σ σ') := by
  have hg : grab true countFn r₀ r = n := by rw [h.grab_eq, hn]; rfl
  have hcap := toNat_capacity h.dest.shows' h.dest.ok
  obtain ⟨hp0, hp1⟩ := plan_spec hw true countFn h.dest.shows' h.dest.ok h.source.shows'
    h.source.ok h.source.quiet
  rw [hg] at hp0 hp1
  unfold stealAndPop
  constructor
  · intro h0
    rw [hp0 h0]
    rfl
  · intro h0
    obtain ⟨t, rfl⟩ : ∃ t, n = t + 1 := ⟨n - 1, by omega⟩
    obtain ⟨q', e, hq', hb⟩ := hp1 h0
    have h3 := h.source.le
    have h4 := h.dest.le
    have hlt := two_pow_lt h.source.ok.lt
    obtain ⟨x, hx⟩ : ∃ x, xs[t]? = some x := ⟨xs[t], List.getElem?_eq_getElem (by omega)⟩
    obtain ⟨σ₁, e₁, ho, hl, hs, hd, hleft, hcame, hkept⟩ :=
      moveOut_copied addr (n := t + 1) (t := t) (p := ⟨F.keep (σ dst), word w r.front,
        word w (t + 1), word w (t + 1 - true.toNat)⟩) h (by omega) (by omega) (by omega) hq' hb
        rfl rfl rfl
    -- the last item, which is returned
    have hread : readAt (F.buffer (σ₁ src)) (F.mask (σ₁ src)) (word w r.front + word w t) =
        (some x, (F.buffer (σ₁ src)).set ((r.front + t) % 2 ^ r.k) (.moved x)) := by
      rw [F.mask_eq hs, word_add]
      refine readAt_live h.source.ok.lt ?_
      have := hleft 0 x (by rw [List.getElem?_drop, Nat.add_zero]; exact hx)
      rwa [Nat.add_zero] at this
    set b := (F.buffer (σ₁ src)).set ((r.front + t) % 2 ^ r.k) (Slot.moved x) with hbset
    have hset : ∀ i, i ≠ src → Function.update σ₁ src (F.setBuffer b (σ₁ src)) i = σ₁ i :=
      fun i hi => Function.update_of_ne hi _ _
    have hset' : Function.update σ₁ src (F.setBuffer b (σ₁ src)) src = F.setBuffer b (σ₁ src) :=
      Function.update_self ..
    have hcopied : Copied src dst r r₀ xs ys (t + 1) t σ
        (Function.update σ₁ src (F.setBuffer b (σ₁ src))) := by
      refine ⟨fun i hi hi' => (hset i hi).trans (ho i hi hi'), fun i => ?_, ?_, fun hne => ?_,
        ?_, ?_, fun hne => ?_⟩
      · by_cases hi : i = src
        · subst hi
          rw [hset', F.buffer_setBuffer, hbset, List.length_set, hl]
        · rw [hset i hi, hl]
      · rw [hset']
        exact F.shows_setBuffer hs
      · rw [hset dst (Ne.symm hne)]
        exact hd hne
      · rw [hset', F.buffer_setBuffer]
        have := hleft.drop (n := 1)
        rw [List.drop_drop, Nat.add_assoc] at this
        exact this.set_before _ (by omega) (by rw [List.length_drop]; omega)
      · by_cases hxe : dst = src
        · obtain ⟨rfl, rfl⟩ := h.self hxe.symm
          rw [hxe, hset', F.buffer_setBuffer]
          rw [hxe] at hcame
          exact hcame.set_before _ (by omega) (by rw [List.length_take]; omega)
        · rw [hset dst hxe]
          exact hcame
      · rw [hset dst (Ne.symm hne)]
        exact hkept hne
    obtain ⟨σ₂, e₂, h₂⟩ := finish_stolen (p := ⟨F.keep (σ dst), word w r.front, word w (t + 1),
      word w (t + 1 - true.toNat)⟩) h (by omega) (by omega) (by omega) hcopied rfl rfl rfl rfl
    refine ⟨σ₂, x, by rwa [Nat.add_sub_cancel], ?_, h₂⟩
    rw [e]
    simp only [Bool.toNat_true, Nat.add_sub_cancel, Option.bind_some] at e₁ e₂ ⊢
    rw [e₁]
    split_ifs
    · simp only [Option.bind_some, hread, e₂, Option.map_some]
      rw [toNat_word (by omega)]
    · rfl

end

/-! ### A steal from a queue into itself -/

/-- A steal that books finds no booking under way. -/
lemma plan_quiet {m : Bool} {countFn : ℕ → ℕ} {p : F.Plan} (hs : F.Shows q r) (h : r.Ok w)
    (hp : F.plan m countFn dest q = some (.ok (p, q'))) : r.stealer = r.front := by
  by_contra hne
  have h1 := h.stealer
  have h2 := h.tail
  have h3 := h.cap
  have h4 := two_pow_lt h.lt
  have hw' : word w r.stealer ≠ word w r.front := fun e => by
    have := (word_inj (a := r.front) (b := r.stealer) h1 (by omega)).mp e.symm
    omega
  unfold plan bookItems at hp
  simp only [F.test_eq hs, if_pos hw', Option.bind_some] at hp
  split at hp <;> simp at hp

/-- The slots that a steal into its own queue reads are none of those it writes, and the
assertion on its chunks holds. Between the loads of the destination and the booking other
stealers may have moved the head up. -/
lemma plan_apart (hw : 1 < w) {m : Bool} {countFn : ℕ → ℕ} {p : F.Plan}
    (hd : F.Shows dest r₀) (h₀ : r₀.Ok w) (hs : F.Shows q r) (h : r.Ok w) (hk : r.k = r₀.k)
    (ht : r.tail = r₀.tail) (hle : r₀.stealer ≤ r.stealer)
    (hp : F.plan m countFn dest q = some (.ok (p, q'))) :
    let n := p.transferCount.toNat
    F.mask q' = maskOf w r.k ∧
    (∀ o < n, ∀ o' < n, ringSlot p.first (F.mask q') o ≠ ringSlot (F.tail p.kept) (F.mask q') o') ∧
      disjointChunks (2 ^ r.k) (slotIdx p.first (F.mask q')) (2 ^ r.k)
        (slotIdx (F.tail p.kept) (F.mask q'))
        (chunks (min (2 ^ r.k - slotIdx p.first (F.mask q')) n)
          (min (2 ^ r.k - slotIdx (F.tail p.kept) (F.mask q')) n) n) = true := by
  have hq := plan_quiet hs h hp
  obtain ⟨h0, h1⟩ := plan_spec hw m countFn hd h₀ hs h hq
  by_cases hg : grab m countFn r₀ r = 0
  · rw [h0 hg] at hp
    simp at hp
  · obtain ⟨q₁, e, hq₁, -⟩ := h1 hg
    rw [e] at hp
    simp only [Option.some.injEq, Except.ok.injEq, Prod.mk.injEq] at hp
    obtain ⟨rfl, rfl⟩ := hp
    have hg' := grab_le r₀ r m countFn
    have hlt := two_pow_lt h.lt
    have hc := count_le h
    have h1 := h₀.stealer
    have h2 := h₀.tail
    have h3 := h₀.cap
    have h4 := h.tail
    simp only [Ring.tail] at ht hg' hc
    set n := grab m countFn r₀ r - m.toNat with hn
    rw [show (word w n).toNat = n from toNat_word (by omega), F.tail_eq hd, word_tail h₀,
      F.mask_eq hq₁]
    -- the booked items end where the free slots begin, and these end before the booked items
    have ha : r.front + n ≤ r₀.tail := by
      rw [Ring.tail]
      omega
    have hb : r₀.tail + n ≤ r.front + 2 ^ r.k := by
      rw [Ring.tail, hk]
      omega
    refine ⟨rfl, fun o ho o' ho' e => ?_, ?_⟩
    · rw [ringSlot_word h.lt, ringSlot_word h.lt] at e
      have := eq_of_mod_eq r.front ⟨by omega, by omega⟩ ⟨by omega, by omega⟩ e
      omega
    · rw [slotIdx_word h.lt, slotIdx_word h.lt]
      exact disjointChunks_of_apart ha hb

/-! ### `extend` -/

lemma extendLoop_spec (xs : List T) {k pos : ℕ} {buf : List (Slot T)} (hk : k < w)
    (hl : buf.length = 2 ^ k) (hy : ys.length ≤ 2 ^ k) (h : Seg buf (2 ^ k) pos ys) :
    ∃ buf', extendLoop (maskOf w k) (word w (pos + 2 ^ k)) xs (word w (pos + ys.length)) buf =
        (word w (pos + (ys ++ xs.take (2 ^ k - ys.length)).length), buf',
          xs.drop (2 ^ k - ys.length + 1)) ∧
      buf'.length = 2 ^ k ∧ Seg buf' (2 ^ k) pos (ys ++ xs.take (2 ^ k - ys.length)) := by
  have hlt := two_pow_lt hk
  induction xs generalizing ys buf with
  | nil => exact ⟨buf, by simp [extendLoop], hl, by simpa using h⟩
  | cons x xs ih =>
    by_cases hfull : ys.length = 2 ^ k
    · refine ⟨buf, ?_, hl, by simpa [hfull] using h⟩
      simp [extendLoop, hfull]
    · have hne : word w (pos + ys.length) ≠ word w (pos + 2 ^ k) := fun e => by
        have := (word_inj (a := pos + 2 ^ k) (b := pos + ys.length) (by omega) (by omega)).mp e.symm
        omega
      obtain ⟨d, hd⟩ : ∃ d, 2 ^ k - ys.length = d + 1 := ⟨2 ^ k - ys.length - 1, by omega⟩
      have hlen : (ys ++ [x]).length = ys.length + 1 := by simp
      obtain ⟨buf', e, hl', h'⟩ := ih (by simpa using hl) (by omega) (h.snoc x hl (by omega))
      rw [hlen, show 2 ^ k - (ys.length + 1) = d by omega] at e h'
      rw [hd, List.take_succ_cons, List.drop_succ_cons]
      refine ⟨buf', ?_, hl', by simpa using h'⟩
      rw [extendLoop, if_neg hne, word_add_one, writeAt_word hk, Nat.add_assoc]
      simpa using e

/-- `extend` appends what it has room for; it pulls one item more, if there is one. -/
lemma extend_spec (xs : List T) (h : F.Stores q ys) :
    F.Stores (F.extend xs q).1 (ys ++ xs.take ((F.capacity q).toNat - ys.length)) ∧
      (F.extend xs q).2 = xs.drop ((F.capacity q).toNat - ys.length + 1) := by
  obtain ⟨r, h⟩ := h
  have h1 := h.pushes
  have h2 := h.le
  obtain ⟨buf', e, hl, hseg⟩ := extendLoop_spec xs h.ok.lt h.len h.le h.seg
  have hlen : (ys ++ xs.take (2 ^ r.k - ys.length)).length ≤ 2 ^ r.k := by
    rw [List.length_append, List.length_take]
    omega
  have hext : F.extend xs q = (F.publish (F.keep q)
      (word w (xs.take (2 ^ r.k - ys.length)).length) (F.setBuffer buf' q),
        xs.drop (2 ^ r.k - ys.length + 1)) := by
    have ht : F.tail (F.keep q) = word w (r.front + ys.length) := by
      rw [F.tail_eq h.shows', word_tail h.ok, h.tail]
    unfold extend
    simp only [capacity, F.mask_eq h.shows', maskOf_add_one, F.head_eq h.shows', h.quiet, word_add,
      ht, e]
    rw [← F.extendStore_eq, ht, word_add, List.length_append, Nat.add_assoc]
  rw [hext, toNat_capacity h.shows' h.ok]
  refine ⟨⟨_, F.shows_publish _ h.shows' (F.shows_setBuffer h.shows'), ⟨h.ok.lt, h.ok.stealer, ?_,
    ?_⟩, h.quiet, ?_, ?_, ?_⟩, rfl⟩
  · simp only
    omega
  · have := h.quiet
    simp only
    rw [List.length_append] at hlen
    omega
  · rw [F.buffer_publish, F.buffer_setBuffer, hl]
  · simp only [Ring.tail, List.length_append]
    omega
  · rw [F.buffer_publish, F.buffer_setBuffer]
    exact hseg

end Flavour

end St3.Alone
