import St3.FifoRel

/-!
What the memory of the FIFO queue holds, and what each kind of access does to it: writing
behind the tail, publishing, claiming and reading the oldest item, booking a prefix, reading
a booked item, giving the booked slots back.
-/

namespace St3.Fifo

open Words Slots Deque

variable {w k : ℕ} {T A : Type*}

def gauge (s : St w T A) (a : Deque.St T A) (fin : ℕ) : Gauge :=
  ⟨s.wh, s.sh, fin, a.stored.length⟩

/-- The memory of `s` stands for the contents of `a`, with `extra` in the ring behind them and
`pend` still in its slot; `fin` is the end of the booking under way. -/
structure MemRel (k : ℕ) (s : St w T A) (a : Deque.St T A) (fin : ℕ) (extra : List T)
    (pend : Option (ℕ × T)) : Prop where
  fault : s.fault = false
  mask : s.queue.mask = maskOf w k
  heads : s.queue.heads = pack (word w s.wh) (word w s.sh)
  tail : s.queue.tail = word w (s.wh + a.stored.length)
  held : s.sh + a.held = s.wh
  lent : s.sh + a.lent.length ≤ fin
  fin_le : fin ≤ s.wh
  cap : a.held + a.stored.length + extra.length ≤ 2 ^ k
  ring : Holds (clear s.queue.buffer (2 ^ k) pend) (2 ^ k) s.sh (fin - a.lent.length)
    (a.lent.map some ++ List.replicate (s.wh - fin) none ++ (a.stored ++ extra).map some)
  pending : ∀ n x, pend = some (n, x) → s.queue.buffer[n % 2 ^ k]? = some (.live x)
  free : a.holder = .free ↔ a.held = 0

variable {s : St w T A} {a : Deque.St T A} {fin : ℕ} {extra rest : List T} {x : T}
  {pend : Option (ℕ × T)}

lemma slot_word (hk : k < w) (hm : s.queue.mask = maskOf w k) (n : ℕ) :
    s.slot (word w n) = (s.queue.buffer[n % 2 ^ k]?).getD .uninit := by
  rw [St.slot, hm, slotIdx_word hk]

/-- Reading a live slot moves its item out. -/
lemma readAt_word (hk : k < w) (hm : s.queue.mask = maskOf w k) {n : ℕ}
    (h : s.queue.buffer[n % 2 ^ k]? = some (.live x)) :
    s.readAt (word w n) =
      (some x, { s with queue.buffer := s.queue.buffer.set (n % 2 ^ k) (.moved x) }) := by
  have hs : s.slot (word w n) = .live x := by rw [slot_word hk hm, h]; rfl
  simp only [St.readAt, hs, hm, slotIdx_word hk]

namespace MemRel

/-- The cells end at the tail. -/
lemma length_eq (h : MemRel k s a fin extra pend) :
    fin - a.lent.length + (a.lent.map some ++ List.replicate (s.wh - fin) none ++
      (a.stored ++ extra).map some).length = s.wh + a.stored.length + extra.length := by
  have h1 := h.lent
  have h2 := h.fin_le
  simp only [List.length_map, List.length_append, List.length_replicate]
  omega

lemma snap_ok (h : MemRel k s a fin extra pend) (hk : k < w) : s.snap.Ok (gauge s a fin) := by
  have h1 := h.held
  have h2 := h.cap
  have h3 := two_pow_lt hk
  exact ⟨h.heads, le_rfl, le_rfl, by simp only [St.snap]; omega, by simp only [St.snap]; omega⟩

/-- Without slots to give back nothing is booked. -/
lemma of_held (h : MemRel k s a fin extra pend) (hh : a.held = 0) :
    s.sh = s.wh ∧ fin = s.wh ∧ a.lent = [] := by
  have h1 := h.held
  have h2 := h.lent
  have h3 := h.fin_le
  exact ⟨by omega, by omega, List.length_eq_zero_iff.mp (by omega)⟩

/-- The position behind the tail and what the owner has written is on no booked slot. -/
lemma not_booked (h : MemRel k s a fin extra pend) (hk : k < w)
    (hlt : a.held + a.stored.length + extra.length < 2 ^ k) :
    s.booked (word w (s.wh + a.stored.length + extra.length)) = false := by
  have hh := h.held
  have h3 := two_pow_lt hk
  have hsh : s.snap.stealerHead = word w s.sh := (h.snap_ok hk).stealerHead
  have hwh : s.snap.workerHead = word w s.wh := (h.snap_ok hk).workerHead
  rw [St.booked, hsh, hwh, word_sub (by omega), word_sub (by omega), h.mask, slotIdx_word hk,
    toNat_word (by omega), Nat.mod_eq_of_lt (by omega)]
  simp only [decide_eq_false_iff_not]
  omega

lemma write (h : MemRel k s a fin extra none) (hk : k < w)
    (hlt : a.held + a.stored.length + extra.length < 2 ^ k) (x : T) :
    MemRel k (s.writeAt (word w (s.wh + a.stored.length + extra.length)) x) a fin (extra ++ [x])
      none := by
  have hh := h.held
  have hfree := h.ring.free (by rw [h.length_eq]; omega)
  have hput := h.ring.put (by rw [h.length_eq]; omega) x
  rw [h.length_eq] at hfree hput
  have hslot : (s.slot (word w (s.wh + a.stored.length + extra.length))).item? = none := by
    rw [slot_word hk h.mask]
    rw [itemAt, clear_none] at hfree
    cases hq : s.queue.buffer[(s.wh + a.stored.length + extra.length) % 2 ^ k]? with
    | none => rfl
    | some sl => simpa [hq] using hfree
  have hidx : slotIdx (word w (s.wh + a.stored.length + extra.length)) s.queue.mask =
      (s.wh + a.stored.length + extra.length) % 2 ^ k := by
    rw [h.mask, slotIdx_word hk]
  refine { h with
    fault := by simp [St.writeAt, h.fault, hslot, h.not_booked hk hlt]
    cap := by simp only [List.length_append, List.length_singleton]; omega
    ring := ?_
    pending := by simp }
  simp only [St.writeAt, hidx]
  simpa using hput

lemma publish (h : MemRel k s a fin extra pend) :
    MemRel k { s with queue.tail := word w (s.wh + a.stored.length + extra.length) }
      (a.append extra) fin [] pend := by
  have hcap := h.cap
  refine { h with
    tail := ?_
    cap := ?_
    ring := ?_ }
  · refine congrArg (word w) ?_
    simp only [Deque.St.append, List.length_append]
    omega
  · rw [List.length_nil]
    simp only [Deque.St.append, List.length_append]
    omega
  · simpa [Deque.St.append] using h.ring

/-- Claiming the oldest item, which is read later. -/
lemma claim (h : MemRel k s a fin [] none) (hs : a.stored = x :: rest) (o : OwnerSt T A) :
    MemRel k
      { s with
        queue.heads := pack (word w (s.wh + 1)) (word w (s.sh + (s.sh == s.wh).toNat))
        wh := s.wh + 1
        sh := s.sh + (s.sh == s.wh).toNat }
      { a with
        stored := rest
        held := Flavour.fifo.heldAfterPop a.held
        given := a.given ++ [x]
        owner := o }
      (if s.sh = s.wh then s.wh + 1 else fin) [] (some (s.wh, x)) := by
  have hcap := h.cap
  have hheld := h.held
  have hlent := h.lent
  have hfin := h.fin_le
  have hlen : a.stored.length = rest.length + 1 := by rw [hs]; rfl
  have hpos : fin - a.lent.length + (a.lent.map some ++ List.replicate (s.wh - fin) none).length =
      s.wh := by
    simp only [List.length_append, List.length_map, List.length_replicate]
    omega
  have hring : Holds s.queue.buffer (2 ^ k) s.sh (fin - a.lent.length)
      ((a.lent.map some ++ List.replicate (s.wh - fin) none) ++ some x :: rest.map some) := by
    simpa [hs] using h.ring
  have hget := hring.get
  have htake := hring.take
  rw [hpos] at hget htake
  by_cases hsh : s.sh = s.wh
  · have h0 : a.held = 0 := by omega
    obtain ⟨-, hf, hl⟩ := h.of_held h0
    have hb : (s.sh == s.wh).toNat = 1 := by simp [hsh]
    refine {
      fault := h.fault
      mask := h.mask
      heads := rfl
      tail := by rw [h.tail]; congr 1; simp only; omega
      held := by simp only [hb, h0, Flavour.heldAfterPop, if_true]; omega
      lent := by
        show s.sh + (s.sh == s.wh).toNat + a.lent.length ≤ _
        rw [hb, if_pos hsh, hl, List.length_nil]
        omega
      fin_le := by simp [hsh]
      cap := by simp only [h0, Flavour.heldAfterPop, if_true, List.length_nil] at hcap ⊢; omega
      ring := ?_
      pending := by rintro n y ⟨⟩; exact hget
      free := by simpa [h0, Flavour.heldAfterPop] using h.free }
    simp only [hsh, hl, hf, List.length_nil, Nat.sub_zero, List.map_nil, Nat.sub_self,
      List.replicate_zero, List.nil_append, beq_self_eq_true, Bool.toNat_true, if_true] at htake ⊢
    simpa [clear] using htake.of_cons_none.advance (Nat.le_succ _) le_rfl
  · have h0 : a.held ≠ 0 := by omega
    have hb : (s.sh == s.wh).toNat = 0 := by simp [hsh]
    refine {
      fault := h.fault
      mask := h.mask
      heads := rfl
      tail := by rw [h.tail]; congr 1; simp only; omega
      held := by simp only [hb, h0, Flavour.heldAfterPop, if_false]; omega
      lent := by simp only [hb, hsh, if_false]; omega
      fin_le := by simp only [hsh, if_false]; omega
      cap := by simp only [h0, Flavour.heldAfterPop, if_false, List.length_nil] at hcap ⊢; omega
      ring := ?_
      pending := by rintro n y ⟨⟩; exact hget
      free := by simpa [h0, Flavour.heldAfterPop] using h.free }
    have hrep : List.replicate (s.wh + 1 - fin) (none : Option T) =
        List.replicate (s.wh - fin) none ++ [none] := by
      rw [← List.replicate_succ', Nat.sub_add_comm hfin]
    simp only [hb, hsh, if_false, Nat.add_zero, clear, hrep, List.append_nil]
    simpa using htake

lemma readClaimed {n : ℕ} (h : MemRel k s a fin extra (some (n, x))) (hk : k < w) :
    ∃ buf, s.readAt (word w n) = (some x, { s with queue.buffer := buf }) ∧
      MemRel k { s with queue.buffer := buf } a fin extra none :=
  ⟨_, readAt_word hk h.mask (h.pending n x rfl), { h with
    ring := h.ring
    pending := by simp }⟩

lemma book (h : MemRel k s a fin extra pend) (hh : a.held = 0) (y : A) {n : ℕ} (h0 : 0 < n)
    (hn : n ≤ a.stored.length) :
    MemRel k
      { s with
        queue.heads := pack (word w (s.wh + n)) (word w s.sh)
        wh := s.wh + n }
      (a.book y n) (s.wh + n) extra pend := by
  obtain ⟨hsh, hf, hl⟩ := h.of_held hh
  have hcap := h.cap
  refine { h with
    heads := rfl
    tail := ?_
    held := by simp only [Deque.St.book]; omega
    lent := by simp only [Deque.St.book, List.length_take]; omega
    fin_le := le_rfl
    cap := by simp only [Deque.St.book, List.length_drop]; omega
    ring := ?_
    free := ?_ }
  · refine h.tail.trans ?_
    congr 1
    simp only [Deque.St.book, List.length_drop]
    omega
  · have hr := h.ring
    have e1 : (List.take n a.stored).length = n := by simp [hn]
    simp only [hf, hl, List.length_nil, Nat.sub_zero, List.map_nil, Nat.sub_self,
      List.replicate_zero, List.nil_append] at hr
    simp only [Deque.St.book, e1, Nat.add_sub_cancel, Nat.sub_self, List.replicate_zero,
      List.append_nil]
    rw [← List.map_append, ← List.append_assoc, List.take_append_drop]
    exact hr
  · simp only [Deque.St.book, reduceCtorEq, false_iff]
    omega

/-- Reading the first booked item. -/
lemma readLent (h : MemRel k s a fin extra pend) (hk : k < w) (hl : a.lent = x :: rest) :
    ∃ buf, s.readAt (word w (fin - a.lent.length)) = (some x, { s with queue.buffer := buf }) ∧
      MemRel k { s with queue.buffer := buf } (a.give x rest) fin extra pend := by
  have hlen : a.lent.length = rest.length + 1 := by rw [hl]; rfl
  have hlent := h.lent
  have hring : Holds (clear s.queue.buffer (2 ^ k) pend) (2 ^ k) s.sh (fin - a.lent.length)
      ([] ++ some x :: (rest.map some ++ List.replicate (s.wh - fin) none ++
        (a.stored ++ extra).map some)) := by simpa [hl] using h.ring
  have hget := hring.get
  have htake := hring.take.of_cons_none
  simp only [List.length_nil, Nat.add_zero] at hget htake
  obtain ⟨hlive, hset, hne⟩ := clear_get hget (.moved x)
  have hbase : fin - a.lent.length + 1 = fin - rest.length := by omega
  rw [hbase, hset] at htake
  refine ⟨_, readAt_word hk h.mask hlive, { h with
    lent := by simp only [Deque.St.give]; omega
    ring := htake
    pending := ?_ }⟩
  intro n y hp
  simp only
  rw [List.getElem?_set_ne (hne n y hp).symm]
  exact h.pending n y hp

lemma release (h : MemRel k s a fin extra pend) (hl : a.lent = []) :
    MemRel k
      { s with
        queue.heads := pack (word w s.wh) (word w s.wh)
        sh := s.wh }
      a.release s.wh extra pend := by
  have hcap := h.cap
  have hheld := h.held
  have hfin := h.fin_le
  refine { h with
    heads := rfl
    held := rfl
    lent := by simp [Deque.St.release, hl]
    fin_le := le_rfl
    cap := by simp only [Deque.St.release]; omega
    ring := ?_
    free := by simp [Deque.St.release] }
  have hr := h.ring
  simp only [hl, List.length_nil, Nat.sub_zero, List.map_nil, List.nil_append] at hr
  have hr' := hr.of_replicate_none
  rw [Nat.add_sub_cancel' hfin] at hr'
  simpa [Deque.St.release, hl] using hr'.advance (by omega) le_rfl

/-- A `Drain` with items left is leaked. -/
lemma leak (h : MemRel k s a fin extra pend) {y : A} (hy : a.holder = .agent y) :
    MemRel k s { a with holder := .lost } fin extra pend := by
  have hne : a.held ≠ 0 := by simp [← h.free, hy]
  exact { h with free := by simpa using hne }

/-- Only the contents of the abstract state matter. -/
lemma congr {a' : Deque.St T A} {s' : St w T A} (h : MemRel k s a fin extra pend)
    (hq : s'.queue = s.queue) (hf : s'.fault = s.fault) (hw : s'.wh = s.wh)
    (hs : s'.sh = s.sh) (h1 : a'.stored = a.stored) (h2 : a'.lent = a.lent)
    (h3 : a'.held = a.held) (h4 : a'.holder = a.holder) : MemRel k s' a' fin extra pend := by
  obtain ⟨q, p, ag, f, n, m⟩ := s
  obtain ⟨q', p', ag', f', n', m'⟩ := s'
  obtain ⟨st, l, he, ho, ow, agt, en, gi⟩ := a
  obtain ⟨st', l', he', ho', ow', agt', en', gi'⟩ := a'
  simp only at hq hf hw hs h1 h2 h3 h4
  subst hq hf hw hs h1 h2 h3 h4
  exact ⟨h.1, h.2, h.3, h.4, h.5, h.6, h.7, h.8, h.9, h.10, h.11⟩

end MemRel

end St3.Fifo
