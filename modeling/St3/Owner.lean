import St3.LifoAlone
import St3.FifoAlone

/-!
What the owner of a queue and its callers do to it in one thread, beside `extend` and the steals:
`pop`, and the loop of `book_items` when the queue has changed under it.
-/

namespace St3.Alone

open Words Slots Deque

universe u

namespace Ring

/-- The positions after a pop, at the tail or at the head. -/
def pop (tailPops : Bool) (r : Ring) : Ring :=
  if tailPops then { r with pops := r.pops + 1 }
  else { r with
    front := r.front + 1
    stealer := if r.stealer = r.front then r.front + 1 else r.stealer }

/-- The position of the item that is popped. -/
def popPos (tailPops : Bool) (r : Ring) : ℕ := if tailPops then r.tail - 1 else r.front

/-- Positions only grow. -/
structure Le (r r' : Ring) : Prop where
  k : r'.k = r.k
  stealer : r.stealer ≤ r'.stealer
  front : r.front ≤ r'.front
  pushes : r.pushes ≤ r'.pushes
  pops : r.pops ≤ r'.pops

variable {r r' r'' : Ring}

lemma Le.refl (r : Ring) : r.Le r := ⟨rfl, le_rfl, le_rfl, le_rfl, le_rfl⟩

lemma Le.trans (h : r.Le r') (h' : r'.Le r'') : r.Le r'' :=
  ⟨h'.k.trans h.k, h.stealer.trans h'.stealer, h.front.trans h'.front, h.pushes.trans h'.pushes,
    h.pops.trans h'.pops⟩

end Ring

/-- A flavour, with the other loads and stores of one thread. -/
structure Owner (w : ℕ) (T : Type u) extends Flavour w T where
  /-- The head at which items are booked. -/
  front : Queue → BitVec w
  /-- `pop` up to its read: the position, and the queue with the item claimed. -/
  claim : Queue → Option (BitVec w × Queue)
  /-- Items are popped at the tail. -/
  tailPops : Bool
  /-- What the loop of `book_items` holds on to after a failed compare-exchange. -/
  relook : Look → Queue → Look
  /-- The loop started with the positions `r₁` and loaded last at the positions `r`. -/
  Looked : Look → Ring → Ring → Prop
  front_eq : ∀ {q r}, Shows q r → front q = word w r.front
  claim_none : ∀ {q r}, Shows q r → r.Ok w → r.tail = r.front → claim q = none
  claim_some : ∀ {q r}, Shows q r → r.Ok w → r.tail ≠ r.front → ∃ q',
    claim q = some (word w (r.popPos tailPops), q') ∧ Shows q' (r.pop tailPops) ∧
      buffer q' = buffer q
  looked : ∀ {q r}, Shows q r → Looked (look q) r r
  relooked : ∀ {l q r₁ r' r}, Looked l r₁ r' → Shows q r → Looked (relook l q) r₁ r
  test_ok : ∀ {l q r₁ r n}, Looked l r₁ r → Shows q r → test l q = .ok n →
    n = word w r.pushes - word w r.pops - word w r.front ∧
      (word w r₁.stealer = word w r.front ∨ word w r.stealer = word w r.front)
  cas_some : ∀ {l q r₁ r' r q'} (n : ℕ), Looked l r₁ r' → Shows q r → cas l (word w n) q = some q' →
    word w r.pops = word w r'.pops ∧ word w r.front = word w r'.front ∧
      Shows q' { r with front := r.front + n } ∧ buffer q' = buffer q
  first_looked : ∀ {l r₁ r}, Looked l r₁ r → r.stealer = r.front → first l = word w r.front
  release_at : ∀ {q r} (n : ℕ), Shows q r → (tailPops → n = r.front) → ∃ q',
    release (word w r.stealer) (word w n) q = some q' ∧ Shows q' { r with stealer := r.front } ∧
      buffer q' = buffer q

end St3.Alone

/-! ### LIFO -/

namespace St3.Lifo

open Words Slots Deque Alone

universe u

variable {w : ℕ} {T : Type u}

namespace Queue

/-- `pop` up to its read. -/
def claim (q : Queue w T) : Option (BitVec w × Queue w T) :=
  let (popCount, head) := unpack q.popCountAndHead
  let tail := q.pushCount - popCount
  if tail = head then none
  else some (tail - 1#w, { q with popCountAndHead := pack (popCount + 1#w) head })

end Queue

lemma front_eq {q : Queue w T} {r : Ring} (h : (alone w T).Shows q r) :
    (unpack q.popCountAndHead).2 = word w r.front := by
  obtain ⟨-, -, hc, -⟩ := h
  rw [hc, unpack_pack]

lemma claim_none {q : Queue w T} {r : Ring} (h : (alone w T).Shows q r) (hr : r.Ok w)
    (he : r.tail = r.front) : q.claim = none := by
  obtain ⟨-, hp, hc, -⟩ := h
  unfold Queue.claim
  rw [hp, hc, unpack_pack]
  exact if_pos ((Flavour.word_tail hr).trans (congrArg _ he))

lemma claim_some {q : Queue w T} {r : Ring} (h : (alone w T).Shows q r) (hr : r.Ok w)
    (hne : r.tail ≠ r.front) : ∃ q' : Queue w T,
      q.claim = some (word w (r.popPos true), q') ∧ (alone w T).Shows q' (r.pop true) ∧
        (alone w T).buffer q' = (alone w T).buffer q := by
  obtain ⟨hm, hp, hc, hh⟩ := h
  have h1 := hr.stealer
  have h2 := hr.tail
  have h3 := hr.cap
  have h4 := two_pow_lt hr.lt
  have hlt : r.front < r.tail := by
    rw [Ring.tail] at hne ⊢
    omega
  have hn : word w r.tail ≠ word w r.front := fun e => by
    rw [word_inj hlt.le (by rw [Ring.tail]; omega)] at e
    exact hne e
  refine ⟨{ q with popCountAndHead := pack (word w (r.pops + 1)) (word w r.front) }, ?_,
    ⟨hm, hp, rfl, hh⟩, rfl⟩
  unfold Queue.claim
  simp only [hp, hc, unpack_pack, Flavour.word_tail hr, if_neg hn, word_add_one]
  rw [show word w r.tail - 1#w = word w (r.tail - 1) from word_sub (by omega)]
  rfl

/-- The LIFO flavour. -/
def owner (w : ℕ) (T : Type u) : Owner w T where
  toFlavour := alone w T
  front := fun q : Queue w T => (unpack q.popCountAndHead).2
  claim := Queue.claim
  tailPops := true
  relook := fun (l : Look w) (q : Queue w T) => { l with packed := q.popCountAndHead }
  Looked := fun (l : Look w) r₁ r =>
    l.packed = pack (word w r.pops) (word w r.front) ∧ l.oldHead = word w r₁.stealer
  front_eq := front_eq
  claim_none := claim_none
  claim_some := claim_some
  looked := by
    rintro q r ⟨-, -, hc, hh⟩
    exact ⟨hc, hh⟩
  relooked := by
    rintro l q r₁ r' r ⟨-, ho⟩ ⟨-, -, hc, -⟩
    exact ⟨hc, ho⟩
  test_ok := by
    rintro l q r₁ r n ⟨hl, ho⟩ ⟨-, hp, -, -⟩ h
    simp only [alone, Queue.test, hl, ho, hp, unpack_pack] at h
    split_ifs at h with h1 h2
    cases h
    exact ⟨rfl, .inl (not_not.mp h1)⟩
  cas_some := by
    rintro l q r₁ r' r q' n ⟨hl, -⟩ ⟨hm, hp, hc, hh⟩ h
    simp only [alone, Queue.cas, hl, hc, unpack_pack] at h
    split_ifs at h with he
    obtain ⟨e1, e2⟩ := pack_inj.mp he
    cases h
    refine ⟨e1, e2, ⟨hm, hp, ?_, hh⟩, rfl⟩
    show pack _ _ = pack _ _
    rw [← e1, ← e2, word_add]
  first_looked := by
    rintro l r₁ r ⟨hl, -⟩ -
    simp only [alone, hl, unpack_pack]
  release_at := by
    rintro q r n ⟨hm, hp, hc, -⟩ hn
    refine ⟨_, rfl, ⟨hm, hp, hc, ?_⟩, rfl⟩
    rw [← hn rfl]

end St3.Lifo

/-! ### FIFO -/

namespace St3.Fifo

open Words Slots Deque Alone

universe u

variable {w : ℕ} {T : Type u}

namespace Queue

/-- `pop` up to its read. -/
def claim (q : Queue w T) : Option (BitVec w × Queue w T) :=
  let (workerHead, stealerHead) := unpack q.heads
  if q.tail = workerHead then none
  else
    let nextStealer := stealerHead + if stealerHead = workerHead then 1#w else 0#w
    some (workerHead, { q with heads := pack (workerHead + 1#w) nextStealer })

end Queue

lemma front_eq {q : Queue w T} {r : Ring} (h : (alone w T).Shows q r) :
    (unpack q.heads).1 = word w r.front := by
  obtain ⟨-, hh, -, -⟩ := h
  rw [hh, unpack_pack]

lemma claim_none {q : Queue w T} {r : Ring} (h : (alone w T).Shows q r) (_ : r.Ok w)
    (he : r.tail = r.front) : q.claim = none := by
  obtain ⟨-, hh, ht, hc⟩ := h
  rw [Ring.tail, hc, Nat.sub_zero] at he
  unfold Queue.claim
  rw [hh, ht, unpack_pack]
  exact if_pos (congrArg _ he)

lemma claim_some {q : Queue w T} {r : Ring} (h : (alone w T).Shows q r) (hr : r.Ok w)
    (hne : r.tail ≠ r.front) : ∃ q' : Queue w T,
      q.claim = some (word w (r.popPos false), q') ∧ (alone w T).Shows q' (r.pop false) ∧
        (alone w T).buffer q' = (alone w T).buffer q := by
  obtain ⟨hm, hh, ht, hc⟩ := h
  have h1 := hr.stealer
  have h2 := hr.tail
  have h3 := hr.cap
  have h4 := two_pow_lt hr.lt
  rw [Ring.tail, hc, Nat.sub_zero] at hne
  have hn : word w r.pushes ≠ word w r.front := fun e => by
    rw [word_inj (by omega) (by omega)] at e
    exact hne e
  have hs : word w r.stealer = word w r.front ↔ r.stealer = r.front := by
    rw [eq_comm, word_inj h1 (by omega), eq_comm]
  refine ⟨{ q with heads := pack (word w (r.pop false).front) (word w (r.pop false).stealer) }, ?_,
    ⟨hm, rfl, ht, hc⟩, rfl⟩
  unfold Queue.claim Ring.pop Ring.popPos
  simp only [hh, ht, unpack_pack, if_neg hn, hs, word_add_one, Bool.false_eq_true, if_false]
  split_ifs with he
  · rw [he, word_add_one]
  · rw [BitVec.add_zero]

/-- The FIFO flavour. -/
def owner (w : ℕ) (T : Type u) : Owner w T where
  toFlavour := alone w T
  front := fun q : Queue w T => (unpack q.heads).1
  claim := Queue.claim
  tailPops := false
  relook := fun _ (q : Queue w T) => q.heads
  Looked := fun (l : BitVec (2 * w)) _ r =>
    l = pack (word w r.front) (word w r.stealer) ∧ r.pops = 0
  front_eq := front_eq
  claim_none := claim_none
  claim_some := claim_some
  looked := by
    rintro q r ⟨-, hh, -, hc⟩
    exact ⟨hh, hc⟩
  relooked := by
    rintro l q r₁ r' r - ⟨-, hh, -, hc⟩
    exact ⟨hh, hc⟩
  test_ok := by
    rintro l q r₁ r n ⟨hl, -⟩ ⟨-, -, ht, hc⟩ h
    have hz : word w r.pushes - word w r.pops = word w r.pushes := by
      rw [hc]
      exact BitVec.sub_zero _
    simp only [alone, Queue.test, hl, ht, unpack_pack] at h
    split_ifs at h with h1 h2
    cases h
    exact ⟨by rw [hz], .inr (not_not.mp h1)⟩
  cas_some := by
    rintro l q r₁ r' r q' n ⟨hl, hc'⟩ ⟨hm, hh, ht, hc⟩ h
    simp only [alone, Queue.cas, hl, hh, unpack_pack] at h
    split_ifs at h with he
    obtain ⟨e1, e2⟩ := pack_inj.mp he
    cases h
    refine ⟨by rw [hc, hc'], e1, ⟨hm, ?_, ht, hc⟩, rfl⟩
    show pack _ _ = pack _ _
    rw [← e1, ← e2, word_add]
  first_looked := by
    rintro l r₁ r ⟨hl, -⟩ he
    simp only [alone, hl, unpack_pack, he]
  release_at := by
    rintro q r n ⟨hm, hh, ht, hc⟩ -
    refine ⟨{ q with heads := pack (word w r.front) (word w r.front) }, ?_, ⟨hm, rfl, ht, hc⟩, rfl⟩
    simp only [alone, Queue.release, hh, unpack_pack, if_true]

end St3.Fifo
