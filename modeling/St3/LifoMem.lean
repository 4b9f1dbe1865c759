import St3.LifoRel

/-!
What the memory of the LIFO queue holds, and what each kind of access does to it: writing
behind the tail, publishing, claiming and reading the newest item, booking a prefix, reading
a booked item, giving the booked slots back.
-/

namespace St3.Lifo

open Words Slots Deque

variable {w k : ℕ} {T A : Type*}

def gauge (s : St w T A) (a : Deque.St T A) : Gauge := ⟨s.pops, s.stolen, a.stored.length, a.held⟩

/-- The memory of `s` stands for the contents of `a`, with `extra` in the ring behind them. -/
structure MemRel (k : ℕ) (s : St w T A) (a : Deque.St T A) (extra : List T) : Prop where
  fault : s.fault = false
  mask : s.queue.mask = maskOf w k
  pushCount : s.queue.pushCount = word w (gauge s a).pushes
  packed : s.queue.popCountAndHead = pack (word w s.pops) (word w s.stolen)
  head : s.queue.head = word w (s.stolen - a.held)
  lent : a.lent.length ≤ a.held
  held : a.held ≤ s.stolen
  cap : a.held + a.stored.length + extra.length ≤ 2 ^ k
  ring : Holds s.queue.buffer (2 ^ k) (s.stolen - a.held) (s.stolen - a.lent.length)
    ((a.lent ++ a.stored ++ extra).map some)
  free : a.holder = .free ↔ a.held = 0
  /-- The slots of the booking that were read already. -/
  moved : ∀ n, s.stolen - a.held ≤ n → n < s.stolen - a.lent.length →
    ∃ x, s.queue.buffer[n % 2 ^ k]? = some (.moved x)
  /-- A leaked `Drain` with items left has left the booking as it was. -/
  lost : a.holder = .lost →
    a.lent ≠ [] ∧ (a.held - a.lent.length, a.lent.length) ∈ s.abandoned
  abandoned : ∀ e ∈ s.abandoned, e.2 ≠ 0 →
    a.holder = .lost ∧ e = (a.held - a.lent.length, a.lent.length)

variable {s : St w T A} {a : Deque.St T A} {extra rest : List T} {x : T}

lemma slot_word (hk : k < w) (hm : s.queue.mask = maskOf w k) (n : ℕ) :
    s.slot (word w n) = (s.queue.buffer[n % 2 ^ k]?).getD .uninit := by
  rw [St.slot, hm, slotIdx_word hk]

/-- Reading a live slot moves its item out. -/
lemma readAt_word (hk : k < w) (hm : s.queue.mask = maskOf w k) {n : ℕ}
    (h : s.queue.buffer[n % 2 ^ k]? = some (.live x)) :
    s.readAt (word w n) =
      (some x, { s with queue.buffer := s.queue.buffer.set (n % 2 ^ k) (.moved x) }) := by
  have hs : s.slot (word w n) = .live x := by rw [slot_word hk hm, h]; rfl
  simp only [St.readAt, hs, hm, slotIdx_word hk]

/-- Other slots are moved as before. -/
lemma getElem?_set_of_window {buf : List (Slot T)} {cap m n : ℕ} (lo : ℕ) (sl : Slot T)
    (hm : lo ≤ m ∧ m < lo + cap) (hn : lo ≤ n ∧ n < lo + cap) (hne : m ≠ n) :
    (buf.set (m % cap) sl)[n % cap]? = buf[n % cap]? := by
  have h : m % cap ≠ n % cap := fun e => hne ((mod_inj hm hn).mp e)
  simp [h]

namespace MemRel

/-- The ring lies between the given-back slots and the tail. -/
lemma bounds (h : MemRel k s a extra) :
    s.stolen - a.held ≤ s.stolen - a.lent.length ∧
      s.stolen + a.stored.length + extra.length ≤ s.stolen - a.held + 2 ^ k ∧
      s.stolen - a.lent.length + ((a.lent ++ a.stored ++ extra).map some).length =
        s.stolen + a.stored.length + extra.length := by
  have h1 := h.lent
  have h2 := h.held
  have h3 := h.cap
  simp only [List.length_map, List.length_append]
  omega

lemma held_lt (h : MemRel k s a extra) (hk : k < w) : a.held < 2 ^ w := by
  have h1 := h.cap
  have h2 := two_pow_lt hk
  omega

lemma snap_ok (h : MemRel k s a extra) : s.snap.Ok (gauge s a) := ⟨h.packed, le_rfl, le_rfl⟩

/-- How far a position behind the tail is ahead of `head`. -/
lemma sub_head (h : MemRel k s a extra) (n : ℕ) :
    word w ((gauge s a).tail + n) - s.queue.head = word w (a.held + a.stored.length + n) := by
  have hh := h.held
  have ht : (gauge s a).tail = s.stolen + a.stored.length := rfl
  rw [h.head, word_sub (by omega)]
  congr 1
  omega

/-- The position behind the tail and what the owner has written is on no booked slot. -/
lemma not_booked (h : MemRel k s a extra) (hk : k < w)
    (hlt : a.held + a.stored.length + extra.length < 2 ^ k) :
    s.booked (word w (s.stolen + a.stored.length + extra.length)) = false := by
  have hheld : s.snap.head - s.queue.head = word w a.held := by
    have := h.held
    have hs : s.snap.head = word w s.stolen := h.snap_ok.head
    rw [hs, h.head, word_sub (Nat.sub_le _ _)]
    congr 1
    omega
  have hpos : word w (s.stolen + a.stored.length + extra.length) - s.queue.head =
      word w (a.held + a.stored.length + extra.length) := h.sub_head extra.length
  rw [St.booked, hheld, hpos, h.mask, slotIdx_word hk, toNat_word (h.held_lt hk),
    Nat.mod_eq_of_lt hlt]
  simp only [decide_eq_false_iff_not]
  omega

lemma write (h : MemRel k s a extra) (hk : k < w)
    (hlt : a.held + a.stored.length + extra.length < 2 ^ k) (x : T) :
    MemRel k (s.writeAt (word w ((gauge s a).tail + extra.length)) x) a (extra ++ [x]) := by
  obtain ⟨hb1, hb2, hb3⟩ := h.bounds
  have hpos : (gauge s a).tail + extra.length = s.stolen + a.stored.length + extra.length := rfl
  have hfree := h.ring.free (by omega)
  have hput := h.ring.put (by omega) x
  rw [hb3] at hfree hput
  rw [hpos]
  have hslot : (s.slot (word w (s.stolen + a.stored.length + extra.length))).item? = none := by
    rw [slot_word hk h.mask]
    rw [itemAt] at hfree
    cases hq : s.queue.buffer[(s.stolen + a.stored.length + extra.length) % 2 ^ k]? with
    | none => rfl
    | some sl => simpa [hq] using hfree
  have hidx : slotIdx (word w (s.stolen + a.stored.length + extra.length)) s.queue.mask =
      (s.stolen + a.stored.length + extra.length) % 2 ^ k := by
    rw [h.mask, slotIdx_word hk]
  have hbooked := h.not_booked hk hlt
  refine { h with
    fault := by simp [St.writeAt, h.fault, hslot, hbooked]
    cap := by simp only [List.length_append, List.length_singleton]; omega
    ring := ?_
    moved := ?_ }
  · simp only [St.writeAt, hidx]
    simpa using hput
  · intro n hn hn'
    simp only [St.writeAt] at hn hn'
    simp only [St.writeAt, hidx]
    rw [getElem?_set_of_window (s.stolen - a.held) _ (by omega) (by omega) (by omega)]
    exact h.moved n hn hn'

lemma publish (h : MemRel k s a extra) :
    MemRel k { s with queue.pushCount := word w ((gauge s a).pushes + extra.length) }
      (a.append extra) [] := by
  have hcap := h.cap
  refine { h with
    pushCount := ?_
    cap := ?_
    ring := ?_ }
  · refine congrArg (word w) ?_
    simp only [gauge, Gauge.pushes, Gauge.tail, St.append, List.length_append]
    omega
  · rw [List.length_nil]
    simp only [St.append, List.length_append]
    omega
  · simpa [St.append] using h.ring

/-- Claiming the newest item, which is read later. -/
lemma claim (h : MemRel k s a []) (hs : a.stored = rest ++ [x]) (o : OwnerSt T A) :
    MemRel k
      { s with
        queue.popCountAndHead := pack (word w (s.pops + 1)) (word w s.stolen)
        pops := s.pops + 1 }
      { a with stored := rest, given := a.given ++ [x], owner := o } [x] := by
  have hcap := h.cap
  have hlen : a.stored.length = rest.length + 1 := by rw [hs]; simp
  refine { h with
    pushCount := ?_
    packed := rfl
    cap := by simp only [List.length_singleton]; simp only [List.length_nil] at hcap; omega
    ring := ?_ }
  · refine h.pushCount.trans ?_
    congr 1
    simp only [gauge, Gauge.pushes, Gauge.tail]
    omega
  · simpa [hs] using h.ring

lemma readClaimed (h : MemRel k s a [x]) (hk : k < w) :
    ∃ buf, s.readAt (word w (gauge s a).tail) = (some x, { s with queue.buffer := buf }) ∧
      MemRel k { s with queue.buffer := buf } a [] := by
  obtain ⟨hb1, hb2, hb3⟩ := h.bounds
  simp only [List.length_singleton] at hb2 hb3
  have hring : Holds s.queue.buffer (2 ^ k) (s.stolen - a.held) (s.stolen - a.lent.length)
      ((a.lent ++ a.stored).map some ++ some x :: []) := by simpa using h.ring
  have hpos : s.stolen - a.lent.length + ((a.lent ++ a.stored).map some).length =
      (gauge s a).tail := by
    simp only [List.length_map, List.length_append] at hb3 ⊢
    simp only [gauge, Gauge.tail]
    simp only [List.length_singleton] at hb3
    omega
  have hget := hring.get
  have htake := hring.take.of_snoc_none
  rw [hpos] at hget htake
  refine ⟨_, readAt_word hk h.mask hget, ?_⟩
  refine { h with
    cap := by
      have hcap := h.cap
      simp only [List.length_singleton] at hcap
      simp only [List.length_nil]
      omega
    ring := by simpa using htake
    moved := ?_ }
  intro n hn hn'
  simp only at hn hn'
  have ht : (gauge s a).tail = s.stolen + a.stored.length := rfl
  simp only
  rw [getElem?_set_of_window (s.stolen - a.held) _ (by omega) (by omega) (by omega)]
  exact h.moved n hn hn'

lemma book (h : MemRel k s a extra) (hh : a.held = 0) (y : A) {n : ℕ} (h0 : 0 < n)
    (hn : n ≤ a.stored.length) :
    MemRel k
      { s with
        queue.popCountAndHead := pack (word w s.pops) (word w (s.stolen + n))
        stolen := s.stolen + n }
      (a.book y n) extra := by
  have hl : a.lent = [] := List.length_eq_zero_iff.mp (by have := h.lent; omega)
  have hcap := h.cap
  have hfree := h.free.mpr hh
  refine {
    fault := h.fault
    mask := h.mask
    pushCount := ?_
    packed := rfl
    head := ?_
    lent := ?_
    held := ?_
    cap := ?_
    ring := ?_
    free := ?_
    moved := ?_
    lost := by simp [St.book]
    abandoned := ?_ }
  · refine h.pushCount.trans ?_
    congr 1
    simp only [gauge, Gauge.pushes, Gauge.tail, St.book, List.length_drop]
    omega
  · refine h.head.trans ?_
    simp only [St.book, hh]
    congr 1
    omega
  · simp only [St.book, List.length_take]; omega
  · simp only [St.book]; omega
  · simp only [St.book, List.length_drop]; omega
  · have hr := h.ring
    simp only [hh, hl, List.length_nil, Nat.sub_zero, List.nil_append] at hr
    have e1 : (List.take n a.stored).length = n := by simp [hn]
    simp only [St.book, e1, Nat.add_sub_cancel]
    simpa [← List.append_assoc] using hr
  · simp only [St.book, reduceCtorEq, false_iff]
    omega
  · intro m hm hm'
    simp only [St.book, List.length_take] at hm hm'
    omega
  · intro e he hne
    have := (h.abandoned e he hne).1
    rw [hfree] at this
    cases this

/-- Reading the first booked item. -/
lemma readLent (h : MemRel k s a extra) (hk : k < w) {y : A} (hy : a.holder = .agent y)
    (hl : a.lent = x :: rest) :
    ∃ buf, s.readAt (word w (s.stolen - a.lent.length)) =
        (some x, { s with queue.buffer := buf }) ∧
      MemRel k { s with queue.buffer := buf } (a.give x rest) extra := by
  obtain ⟨hb1, hb2, hb3⟩ := h.bounds
  have hlen : a.lent.length = rest.length + 1 := by rw [hl]; rfl
  have hle := h.lent
  have hhe := h.held
  have hring : Holds s.queue.buffer (2 ^ k) (s.stolen - a.held) (s.stolen - a.lent.length)
      ([] ++ some x :: (rest ++ a.stored ++ extra).map some) := by simpa [hl] using h.ring
  have hget := hring.get
  have htake := hring.take.of_cons_none
  simp only [List.length_nil, Nat.add_zero] at hget htake
  have hbase : s.stolen - a.lent.length + 1 = s.stolen - rest.length := by omega
  rw [hbase] at htake
  refine ⟨_, readAt_word hk h.mask hget, ?_⟩
  refine { h with
    lent := ?_
    ring := htake
    moved := ?_
    lost := by simp [St.give, hy]
    abandoned := ?_ }
  · simp only [St.give]; omega
  · intro n hn hn'
    simp only [St.give] at hn hn'
    by_cases he : s.stolen - a.lent.length = n
    · subst he
      have hlt : (s.stolen - a.lent.length) % 2 ^ k < s.queue.buffer.length := by
        rw [h.ring.len]; exact Nat.mod_lt _ (Nat.two_pow_pos k)
      exact ⟨x, by simp [hlt]⟩
    · have hcap := h.cap
      simp only
      rw [getElem?_set_of_window (s.stolen - a.held) _ (by omega) (by omega) he]
      exact h.moved n hn (by omega)
  · intro e he hne
    have := (h.abandoned e he hne).1
    rw [hy] at this
    cases this

lemma release (h : MemRel k s a extra) {y : A} (hy : a.holder = .agent y) (hl : a.lent = []) :
    MemRel k { s with queue.head := word w s.stolen } a.release extra := by
  have hcap := h.cap
  refine { h with
    head := by simp [St.release]
    lent := by simp [St.release, hl]
    held := by simp [St.release]
    cap := by simp only [St.release]; omega
    ring := ?_
    free := by simp [St.release]
    moved := ?_
    lost := by simp [St.release]
    abandoned := ?_ }
  · have hr := h.ring
    simp only [hl, List.length_nil, Nat.sub_zero] at hr
    simpa [St.release, hl] using hr.advance (by omega) le_rfl
  · intro n hn hn'
    simp only [St.release, Nat.sub_zero] at hn hn'
    omega
  · intro e he hne
    have := (h.abandoned e he hne).1
    rw [hy] at this
    cases this

/-- A `Drain` with items left is leaked. -/
lemma leak (h : MemRel k s a extra) {y : A} (hy : a.holder = .agent y) (hl : a.lent ≠ []) :
    MemRel k
      { s with abandoned := s.abandoned ++ [(a.held - a.lent.length, a.lent.length)] }
      { a with holder := .lost } extra := by
  have hne : a.held ≠ 0 := by simp [← h.free, hy]
  refine { h with
    free := by simpa using hne
    lost := fun _ => ⟨hl, by simp⟩
    abandoned := ?_ }
  intro e he h0
  simp only [List.mem_append, List.mem_singleton] at he
  rcases he with he | he
  · have := (h.abandoned e he h0).1
    rw [hy] at this
    cases this
  · exact ⟨rfl, he⟩

/-- A `Drain` with no item left is leaked. -/
lemma forget (h : MemRel k s a extra) (n : ℕ) :
    MemRel k { s with abandoned := s.abandoned ++ [(n, 0)] } a extra := by
  refine { h with
    lost := fun hl => ⟨(h.lost hl).1, List.mem_append_left _ (h.lost hl).2⟩
    abandoned := ?_ }
  intro e he h0
  simp only [List.mem_append, List.mem_singleton] at he
  rcases he with he | rfl
  · exact h.abandoned e he h0
  · exact absurd rfl h0

/-- Only the contents of the abstract state matter. -/
lemma congr {a' : Deque.St T A} {s' : St w T A} (h : MemRel k s a extra)
    (hq : s'.queue = s.queue) (hf : s'.fault = s.fault) (hp : s'.pops = s.pops)
    (hs : s'.stolen = s.stolen) (hab : s'.abandoned = s.abandoned)
    (h1 : a'.stored = a.stored) (h2 : a'.lent = a.lent) (h3 : a'.held = a.held)
    (h4 : a'.holder = a.holder) : MemRel k s' a' extra := by
  obtain ⟨q, p, ag, f, n, m, ab⟩ := s
  obtain ⟨q', p', ag', f', n', m', ab'⟩ := s'
  obtain ⟨st, l, he, ho, ow, agt, en, gi⟩ := a
  obtain ⟨st', l', he', ho', ow', agt', en', gi'⟩ := a'
  simp only at hq hf hp hs hab h1 h2 h3 h4
  subst hq hf hp hs hab h1 h2 h3 h4
  exact ⟨h.1, h.2, h.3, h.4, h.5, h.6, h.7, h.8, h.9, h.10, h.11, h.12, h.13⟩

end MemRel

end St3.Lifo
