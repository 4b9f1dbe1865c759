import St3.FifoMem

/-!
The FIFO queue is linearizable: every run of it shows a trace of the abstract queue.

A push takes effect when `tail` is stored, or fails at its load of the heads; a pop takes
effect at its compare-exchange, or at the load that shows an empty queue; a booking takes
effect at its compare-exchange, and its slots are given back when the stealer head catches
up with the worker head.
-/

namespace St3.Fifo

open Words Slots Deque

variable {w k : ℕ} {T A : Type*} {s s' : St w T A} {a : Deque.St T A} {fin : ℕ} {extra : List T}
  {pend : Option (ℕ × T)}

def Agents (s : St w T A) (a : Deque.St T A) (fin : ℕ) : Prop :=
  ∀ x, AgentRel (gauge s a fin) (a.holder = .agent x) a.lent (s.agent x) (a.agent x)

/-- The state `s` of a queue of `2 ^ k` slots stands for the state `a` of the deque. -/
def Rel (k : ℕ) (s : St w T A) (a : Deque.St T A) : Prop :=
  ∃ fin extra pend, MemRel k s a fin extra pend ∧
    OwnerRel (2 ^ k) (gauge s a fin) s.owner a.owner extra pend ∧ Agents s a fin

/-! ### Booking -/

lemma checkHeads_ok {g : Gauge} {sn : Snap w} (ok : sn.Ok g) :
    (∃ b, checkHeads sn = .go b ∧ b.Ok g) ∨ ∃ e, checkHeads sn = .err e := by
  by_cases h : sn.stealerHead = sn.workerHead
  · exact .inl ⟨.loadTail sn, by simp [checkHeads, h], ok, ok.heads_eq.mp h⟩
  · exact .inr ⟨.busy, by simp [checkHeads, h]⟩

/-- What an access of `book_items` does: it goes on, gives up, or books a prefix. -/
lemma MemRel.bookStep (hk : k < w) (h : MemRel k s a fin extra pend) {b : BookPc w}
    (c : Choice T A) (maxCount : BitVec w) (hb : b.Ok (gauge s a fin))
    (ht : ∀ sn, b.casSnap = some sn → s.wh < sn.wh + 2 ^ w ∧ s.sh < sn.sh + 2 ^ w) :
    (∃ b', bookStep c maxCount s b = (.go b', s) ∧ b'.Ok (gauge s a fin)) ∨
    (∃ e, bookStep c maxCount s b = (.err e, s)) ∨
    ∃ count : BitVec w, 0 < count.toNat ∧ count.toNat ≤ a.stored.length ∧ a.held = 0 ∧
      bookStep c maxCount s b =
        (.ok (word w s.sh) (word w (s.wh + count.toNat)) count,
          { s with
            queue.heads := pack (word w (s.wh + count.toNat)) (word w s.sh)
            wh := s.wh + count.toNat }) := by
  have hcap := h.cap
  have hheld := h.held
  have hlt := two_pow_lt hk
  cases b with
  | loadHeads =>
    rcases checkHeads_ok (h.snap_ok hk) with ⟨b', he, hb'⟩ | ⟨e, he⟩
    · exact .inl ⟨b', by simp [Fifo.bookStep, he], hb'⟩
    · exact .inr (.inl ⟨e, by simp [Fifo.bookStep, he]⟩)
  | loadTail sn =>
    obtain ⟨ok, hq⟩ := hb
    by_cases h0 : s.queue.tail - sn.workerHead = 0
    · exact .inr (.inl ⟨.empty, by simp [Fifo.bookStep, h0]⟩)
    set count := bookCount c.want maxCount (s.queue.tail - sn.workerHead) with hc
    by_cases hcount : count = 0
    · exact .inr (.inl ⟨.empty, by simp only [Fifo.bookStep, if_neg h0, ← hc, if_pos hcount]⟩)
    refine .inl ⟨.cas sn count, ?_, ok, hq, ?_, ?_⟩
    · simp only [Fifo.bookStep, if_neg h0, ← hc, if_neg hcount]
    · have hne : count.toNat ≠ 0 := fun e => hcount (BitVec.eq_of_toNat_eq (by simpa using e))
      omega
    · intro hw
      have hw' : sn.wh = s.wh := hw
      have hle := toNat_bookCount_le c.want maxCount (s.queue.tail - sn.workerHead)
      rw [← hc, h.tail, ok.workerHead, hw', word_sub (by omega), Nat.add_sub_cancel_left,
        toNat_word (by omega)] at hle
      exact hle
  | cas sn count =>
    obtain ⟨ok, hq, h0, hf⟩ := hb
    obtain ⟨htw, hts⟩ := ht sn rfl
    by_cases hcas : c.spurious = false ∧ s.queue.heads = sn.packed
    · obtain ⟨hw, hs⟩ := ok.current htw hts (h.heads ▸ hcas.2)
      have hw' : s.wh = sn.wh := hw
      have hs' : s.sh = sn.sh := hs
      refine .inr (.inr ⟨count, h0, hf hw.symm, by omega, ?_⟩)
      have hadd : word w s.wh + count = word w (s.wh + count.toNat) := by
        rw [← word_add]
        simp [word]
      simp only [Fifo.bookStep, if_pos hcas, ok.workerHead, ok.stealerHead, ← hw', ← hs', hadd]
    · rcases checkHeads_ok (h.snap_ok hk) with ⟨b', he, hb'⟩ | ⟨e, he⟩
      · exact .inl ⟨b', by simp [Fifo.bookStep, hcas, he], hb'⟩
      · exact .inr (.inl ⟨e, by simp [Fifo.bookStep, hcas, he]⟩)

/-! ### Matched steps -/

variable [DecidableEq A] {l : Option (Event T A)}

/-- A step of the queue that shows `l` and leads to `s'` is matched from `a`. -/
def Sim (k : ℕ) (s' : St w T A) (a : Deque.St T A) (l : Option (Event T A)) : Prop :=
  ∃ a', (Deque.lts .fifo (2 ^ k)).Steps a l.toList a' ∧ Rel k s' a'

lemma Sim.stay (h : Rel k s' a) : Sim k s' a none := ⟨a, .refl a, h⟩

lemma Sim.go {a' : Deque.St T A} (hs : Deque.Step .fifo (2 ^ k) a l a') (h : Rel k s' a') :
    Sim k s' a l :=
  ⟨a', .one hs, h⟩

section
variable {p : OwnerPc w T A} {o : OwnerSt T A}

omit [DecidableEq A] in
/-- The owner moves on without touching the memory. -/
lemma MemRel.owner (hm : MemRel k s a fin extra pend) (ha : Agents s a fin)
    (ho : OwnerRel (2 ^ k) (gauge s a fin) p o extra pend) :
    Rel k { s with owner := p } { a with owner := o } :=
  ⟨fin, extra, pend, hm.congr rfl rfl rfl rfl rfl rfl rfl rfl, ho, ha⟩

lemma MemRel.ownerStay (hm : MemRel k s a fin extra pend) (ha : Agents s a fin)
    (hq : a.owner = o) (ho : OwnerRel (2 ^ k) (gauge s a fin) p o extra pend) :
    Sim k { s with owner := p } a none := by
  subst hq
  exact .stay (hm.owner ha ho)

lemma MemRel.ownerGo (hm : MemRel k s a fin extra pend) (ha : Agents s a fin)
    (ho : OwnerRel (2 ^ k) (gauge s a fin) p o extra pend)
    (hs : Deque.Step .fifo (2 ^ k) a l { a with owner := o }) :
    Sim k { s with owner := p } a l :=
  .go hs (hm.owner ha ho)

end

omit [DecidableEq A] in
/-- The agents do not notice a step of the owner that leaves the bookings alone. -/
lemma Agents.evolve {a' : Deque.St T A} {fin' : ℕ} (ha : Agents s a fin)
    (h1 : s'.agent = s.agent) (h2 : a'.agent = a.agent)
    (e : Gauge.Evolve (gauge s a fin) (gauge s' a' fin')) (h3 : a'.holder = a.holder)
    (h4 : a'.lent = a.lent) (h5 : a.holder ≠ .free → fin' = fin ∧ s'.sh = s.sh) :
    Agents s' a' fin' := by
  intro x
  rw [h1, h2]
  exact (ha x).evolve e (by rw [h3]) fun hx => ⟨h4, h5 (by simp [hx])⟩

/-! ### One agent moves -/

section
variable {y : A} {p : AgentPc w T} {q : AgentSt T}

/-- The others do not notice that an agent moves on. -/
lemma Agents.set (ha : Agents s a fin)
    (hy : AgentRel (gauge s a fin) (a.holder = .agent y) a.lent p q) :
    Agents (s.setAgent y p) (a.setAgent y q) fin := by
  intro x
  by_cases hx : x = y
  · subst hx
    simpa [St.setAgent, Deque.St.setAgent, gauge] using hy
  · simpa [St.setAgent, Deque.St.setAgent, gauge, hx] using ha x

/-- The others do not notice what an agent does with a booking of its own. -/
lemma Agents.act {a' : Deque.St T A} {fin' : ℕ} (ha : Agents s a fin) (h1 : s'.agent = s.agent)
    (h2 : a'.agent = a.agent) (e : Gauge.Evolve (gauge s a fin) (gauge s' a' fin'))
    (hf : ∀ x, a.holder = .agent x → x = y) (hf' : ∀ x, a'.holder = .agent x → x = y)
    (hy : AgentRel (gauge s' a' fin') (a'.holder = .agent y) a'.lent p q) :
    Agents (s'.setAgent y p) (a'.setAgent y q) fin' := by
  intro x
  by_cases hx : x = y
  · subst hx
    simpa [St.setAgent, Deque.St.setAgent, gauge] using hy
  · have hn : ¬ a.holder = .agent x := fun h => hx (hf x h)
    have hn' : ¬ a'.holder = .agent x := fun h => hx (hf' x h)
    have hx' : AgentRel (gauge s' a' fin') (a'.holder = .agent x) a'.lent (s.agent x)
        (a.agent x) :=
      (ha x).evolve e (iff_of_false hn' hn) fun h => absurd h hn
    simpa [St.setAgent, Deque.St.setAgent, gauge, hx, h1, h2] using hx'

lemma MemRel.agentGo (hm : MemRel k s a fin extra pend)
    (ho : OwnerRel (2 ^ k) (gauge s a fin) s.owner a.owner extra pend) (ha : Agents s a fin)
    (hy : AgentRel (gauge s a fin) (a.holder = .agent y) a.lent p q)
    (hs : Deque.Step .fifo (2 ^ k) a l (a.setAgent y q)) : Sim k (s.setAgent y p) a l :=
  .go hs ⟨fin, extra, pend, hm.congr rfl rfl rfl rfl rfl rfl rfl rfl, ho, ha.set hy⟩

lemma MemRel.agentStay (hm : MemRel k s a fin extra pend)
    (ho : OwnerRel (2 ^ k) (gauge s a fin) s.owner a.owner extra pend) (ha : Agents s a fin)
    (hq : a.agent y = q) (hy : AgentRel (gauge s a fin) (a.holder = .agent y) a.lent p q) :
    Sim k (s.setAgent y p) a none := by
  have e : a.setAgent y q = a := by subst hq; simp [Deque.St.setAgent]
  refine .stay ⟨fin, extra, pend, hm.congr rfl rfl rfl rfl rfl rfl rfl rfl, ho, ?_⟩
  have := ha.set hy
  rwa [e] at this

end

/-! ### The owner -/

section
variable {p : OwnerPc w T A} {o : OwnerSt T A}

omit [DecidableEq A] in
/-- The owner writes the next slot. -/
lemma MemRel.ownerWrite (hk : k < w) (hm : MemRel k s a fin extra none) (ha : Agents s a fin)
    (hlt : a.held + a.stored.length + extra.length < 2 ^ k) (x : T)
    (ho : OwnerRel (2 ^ k) (gauge s a fin) p o (extra ++ [x]) none) :
    Rel k { s.writeAt (word w ((gauge s a fin).tail + extra.length)) x with owner := p }
      { a with owner := o } :=
  ⟨fin, extra ++ [x], none, (hm.write hk hlt x).congr rfl rfl rfl rfl rfl rfl rfl rfl, ho,
    ha.evolve rfl rfl .same rfl rfl fun _ => ⟨rfl, rfl⟩⟩

omit [DecidableEq A] in
/-- The owner publishes what it has written. -/
lemma MemRel.ownerPublish (hm : MemRel k s a fin extra none) (ha : Agents s a fin) (r : Res T A) :
    Rel k
      { s with
        queue.tail := word w ((gauge s a fin).tail + extra.length)
        owner := .ret r }
      { a.append extra with owner := .done r } := by
  refine ⟨fin, [], none, hm.publish.congr rfl rfl rfl rfl rfl rfl rfl rfl, .ret r,
    ha.evolve rfl rfl ?_ rfl rfl fun _ => ⟨rfl, rfl⟩⟩
  have e : gauge s (a.append extra) fin =
      { gauge s a fin with len := (gauge s a fin).len + extra.length } := by
    simp [gauge, Deque.St.append]
  exact e ▸ .push extra.length

/-- A load of the heads in `pop`: the tail is the owner's own, so the load decides. -/
lemma MemRel.popLoad (hk : k < w) (hm : MemRel k s a fin [] none) (ha : Agents s a fin)
    (hq : a.owner = .called .pop) : Sim k { s with owner := .popLoadTail s.snap } a none := by
  have hcap := hm.cap
  have ht : (gauge s a fin).tail = s.wh + a.stored.length := rfl
  have hw : s.snap.wh = s.wh := rfl
  by_cases he : a.stored = []
  · refine hm.ownerGo ha (.popLoadTailNone s.snap (hm.snap_ok hk) ?_) (.popNone hq he)
    rw [ht, hw, he, List.length_nil, Nat.add_zero]
  · have hpos := List.length_pos_iff.mpr he
    exact hm.ownerStay ha hq (.popLoadTail s.snap (hm.snap_ok hk) (by omega) (by omega))

/-- The compare-exchange of `pop`. -/
lemma MemRel.popClaim (hm : MemRel k s a fin [] none) (ha : Agents s a fin)
    (hq : a.owner = .called .pop) (hne : a.stored ≠ []) :
    Sim k
      { s with
        queue.heads := pack (word w (s.wh + 1)) (word w (s.sh + (s.sh == s.wh).toNat))
        wh := s.wh + 1
        sh := s.sh + (s.sh == s.wh).toNat
        owner := .popRead (word w s.wh) } a none := by
  obtain ⟨x, rest, hx⟩ := List.exists_cons_of_ne_nil hne
  have hlen : a.stored.length = rest.length + 1 := by rw [hx]; rfl
  have hheld := hm.held
  refine .go (.pop hq (show Flavour.fifo.Takes a.stored x rest from hx)) ?_
  refine ⟨_, [], _, (hm.claim hx _).congr rfl rfl rfl rfl rfl rfl rfl rfl, .popRead x s.wh,
    ha.evolve rfl rfl ?_ rfl rfl ?_⟩
  · by_cases hsh : s.sh = s.wh
    · have e : (s.sh == s.wh).toNat = 1 := by simp [hsh]
      simp only [gauge, e, if_pos hsh]
      exact .popBoth rest.length hlen hsh
    · have e : (s.sh == s.wh).toNat = 0 := by simp [hsh]
      simp only [gauge, e, if_neg hsh]
      exact .popPast rest.length hlen hsh
  · intro hbusy
    have hsh : s.sh ≠ s.wh := fun e => hbusy (hm.free.mpr (by omega))
    simp [hsh]

end

omit [DecidableEq A] in
lemma MemRel.full_iff (hk : k < w) (hm : MemRel k s a fin extra pend) {sh : ℕ}
    (hle : sh ≤ (gauge s a fin).tail) (hcap : (gauge s a fin).tail ≤ sh + 2 ^ k) :
    s.queue.mask < s.queue.tail - word w sh ↔ (gauge s a fin).tail = sh + 2 ^ k := by
  have hlt := two_pow_lt hk
  have hpos := Nat.two_pow_pos k
  have ht : s.queue.tail = word w (gauge s a fin).tail := hm.tail
  rw [ht, word_sub hle, hm.mask, BitVec.lt_def, toNat_maskOf hk, toNat_word (by omega)]
  omega

omit [DecidableEq A] in
/-- The room that a difference of the tail and a stealer head shows. -/
lemma MemRel.room_eq (hm : MemRel k s a fin extra pend) {sh tail room : ℕ} (hle : sh ≤ tail)
    (h : tail + room = sh + 2 ^ k) :
    s.queue.capacity - (word w tail - word w sh) = word w room := by
  rw [Queue.capacity, hm.mask]
  show maskOf w k + 1#w - _ = _
  rw [maskOf_add_one, word_sub hle, word_sub (by omega)]
  congr 1
  omega

/-- What a booking makes of the agents. -/
lemma Agents.book (ha : Agents s a fin) (hm : MemRel k s a fin extra pend) (hh : a.held = 0)
    {n : ℕ} (h0 : 0 < n) (hn : n ≤ a.stored.length) {y : A} {p : AgentPc w T} {q : AgentSt T}
    (hy : AgentRel ⟨s.wh + n, s.sh, s.wh + n, a.stored.length - n⟩ True (a.stored.take n) p q) :
    Agents
      ({ s with
        queue.heads := pack (word w (s.wh + n)) (word w s.sh)
        wh := s.wh + n }.setAgent y p)
      ((a.book y n).setAgent y q) (s.wh + n) := by
  have hfree := hm.free.mpr hh
  have hlen : (a.book y n).stored.length = a.stored.length - n := by simp [Deque.St.book]
  refine ha.act rfl rfl ?_ (by simp [hfree]) (by simp [Deque.St.book, eq_comm]) ?_
  · simp only [gauge, hlen]
    exact .book n h0 hn (hm.of_held hh).1
  · simp only [gauge, hlen]
    simpa [Deque.St.book] using hy

lemma owner_sim (hk : k < w) {c : Choice T A} (h : Rel k s a) (ht : Timely (.owner c) s)
    (hs : ownerStep c s = some (s', l)) : Sim k s' a l := by
  obtain ⟨fin, extra, pend, hm, ho, ha⟩ := h
  generalize hp : s.owner = p at ho
  generalize hq : a.owner = o at ho
  have hcap := hm.cap
  have hheld := hm.held
  have hlt := two_pow_lt hk
  have hsh : s.snap.stealerHead = word w s.sh := (hm.snap_ok hk).stealerHead
  have hwh : s.snap.workerHead = word w s.wh := (hm.snap_ok hk).workerHead
  have htl : (gauge s a fin).tail = s.wh + a.stored.length := rfl
  have hgs : (gauge s a fin).sh = s.sh := rfl
  have htail : s.queue.tail = word w (gauge s a fin).tail := hm.tail
  cases ho with
  | idle => simp [ownerStep, hp] at hs
  | ret r =>
    simp only [ownerStep, hp, Option.some.injEq, Prod.mk.injEq] at hs
    obtain ⟨rfl, rfl⟩ := hs
    exact hm.ownerGo ha .idle (.ret hq)
  | pushLoadHeads x =>
    simp only [ownerStep, hp, hsh, Option.some.injEq, Prod.mk.injEq] at hs
    obtain ⟨rfl, rfl⟩ := hs
    simp only [List.length_nil] at hcap
    by_cases hfull : a.held + a.stored.length = 2 ^ k
    · exact hm.ownerGo ha (.pushLoadTailFull x s.sh (by omega)) (.pushFull hq hfull)
    · exact hm.ownerStay ha hq (.pushLoadTail x s.sh le_rfl (by omega))
  | pushLoadTail x sh hle hroom =>
    have hnot := (hm.full_iff hk (show sh ≤ _ by omega) hroom.le).not.mpr hroom.ne
    simp only [ownerStep, hp, if_neg hnot, Option.some.injEq, Prod.mk.injEq] at hs
    obtain ⟨rfl, rfl⟩ := hs
    rw [htail]
    exact hm.ownerStay ha hq (.pushWrite x (by omega))
  | pushLoadTailFull x sh hfull =>
    have hyes := (hm.full_iff hk (show sh ≤ _ by omega) hfull.le).mpr hfull
    simp only [ownerStep, hp, if_pos hyes, Option.some.injEq, Prod.mk.injEq] at hs
    obtain ⟨rfl, rfl⟩ := hs
    exact hm.ownerStay ha hq (.ret _)
  | pushWrite x hroom =>
    simp only [ownerStep, hp, Option.some.injEq, Prod.mk.injEq] at hs
    obtain ⟨rfl, rfl⟩ := hs
    have hr := hm.ownerWrite hk ha (by simp only [List.length_nil]; omega) x (.pushStore x hroom)
    rw [← hq] at hr
    exact .stay hr
  | pushStore x hroom =>
    simp only [ownerStep, hp, Option.some.injEq, Prod.mk.injEq] at hs
    obtain ⟨rfl, rfl⟩ := hs
    have hr := hm.ownerPublish ha .pushOk
    exact .go (.pushOk hq (by omega)) (by simpa [word_add_one] using hr)
  | extendLoadHeads =>
    simp only [ownerStep, hp, hsh, Option.some.injEq, Prod.mk.injEq] at hs
    obtain ⟨rfl, rfl⟩ := hs
    simp only [List.length_nil] at hcap
    exact hm.ownerGo ha (.extendLoadTail s.sh (a.room (2 ^ k)) le_rfl
      (by rw [Deque.St.room]; omega)) (.lookExtend hq)
  | extendLoadTail sh room hle hroom =>
    simp only [ownerStep, hp, Option.some.injEq, Prod.mk.injEq] at hs
    obtain ⟨rfl, rfl⟩ := hs
    have hmax : word w sh + s.queue.capacity = word w ((gauge s a fin).tail + room) := by
      rw [Queue.capacity, hm.mask]
      show _ + (maskOf w k + 1#w) = _
      rw [maskOf_add_one, word_add, hroom]
    rw [htail, hmax]
    exact hm.ownerStay ha hq (.extendNext room [] (Nat.zero_le _) (by omega))
  | extendNext room _ hg hroom =>
    simp only [ownerStep, hp, Option.some.injEq, Prod.mk.injEq] at hs
    obtain ⟨rfl, rfl⟩ := hs
    have hstore : OwnerRel (A := A) (2 ^ k) (gauge s a fin)
        (.extendStore (word w ((gauge s a fin).tail + extra.length))) (.storing extra .extended)
        extra none := .extendStore extra (by omega)
    have hmax : word w ((gauge s a fin).tail + extra.length) =
        word w ((gauge s a fin).tail + room) ↔ extra.length = room := by
      rw [eq_comm, word_inj (by omega) (by omega)]
      omega
    cases hc : c.item with
    | none => exact hm.ownerGo ha hstore (.pullEnd hq)
    | some x =>
      by_cases hfull : extra.length = room
      · simp only [if_pos (hmax.mpr hfull)]
        exact hm.ownerGo ha hstore (.pullFull hq hfull)
      · simp only [if_neg (hmax.not.mpr hfull)]
        have hlt' : extra.length < room := by omega
        exact hm.ownerGo ha (.extendWrite x room extra hlt' hroom) (.pull hq hlt')
  | extendWrite x room _ hg hroom =>
    simp only [ownerStep, hp, Option.some.injEq, Prod.mk.injEq] at hs
    obtain ⟨rfl, rfl⟩ := hs
    have hr := hm.ownerWrite hk ha (by omega) x
      (.extendNext room (extra ++ [x]) (by simp; omega) hroom)
    rw [← hq] at hr
    refine .stay ?_
    simpa [word_add_one, Nat.add_assoc] using hr
  | extendStore _ hroom =>
    simp only [ownerStep, hp, Option.some.injEq, Prod.mk.injEq] at hs
    obtain ⟨rfl, rfl⟩ := hs
    exact .go (.store hq) (hm.ownerPublish ha .extended)
  | popLoadHeads =>
    simp only [ownerStep, hp, Option.some.injEq, Prod.mk.injEq] at hs
    obtain ⟨rfl, rfl⟩ := hs
    exact hm.popLoad hk ha hq
  | popLoadTail sn ok hlt' hcap' =>
    have hne : ¬ s.queue.tail = sn.workerHead := by
      rw [htail, ok.workerHead, word_inj hlt'.le (by omega)]
      omega
    simp only [ownerStep, hp, if_neg hne, Option.some.injEq, Prod.mk.injEq] at hs
    obtain ⟨rfl, rfl⟩ := hs
    exact hm.ownerStay ha hq (.popCas sn ok hlt')
  | popLoadTailNone sn ok he =>
    have heq : s.queue.tail = sn.workerHead := by rw [htail, ok.workerHead, he]
    simp only [ownerStep, hp, if_pos heq, Option.some.injEq, Prod.mk.injEq] at hs
    obtain ⟨rfl, rfl⟩ := hs
    exact hm.ownerStay ha hq (.ret _)
  | popCas sn ok hlt' =>
    obtain ⟨htw, hts⟩ := ht sn (by simp [casSnap, hp])
    simp only [ownerStep, hp] at hs
    by_cases hcas : c.spurious = false ∧ s.queue.heads = sn.packed
    · simp only [if_pos hcas, Option.some.injEq, Prod.mk.injEq] at hs
      obtain ⟨rfl, rfl⟩ := hs
      obtain ⟨hw, hst⟩ := ok.current htw hts (hm.heads ▸ hcas.2)
      have hw' : s.wh = sn.wh := hw
      have hst' : s.sh = sn.sh := hst
      have hne' : a.stored ≠ [] := by
        rintro he
        rw [he, List.length_nil] at htl
        omega
      have hboth : (sn.stealerHead == sn.workerHead) = (s.sh == s.wh) := by
        rw [Bool.eq_iff_iff, beq_iff_eq, ok.heads_eq, beq_iff_eq, hw', hst']
      have e1 : sn.workerHead + 1 = word w (s.wh + 1) := by
        rw [ok.workerHead, hw']
        exact word_add_one _
      have e2 : sn.stealerHead + BitVec.ofNat w (sn.stealerHead == sn.workerHead).toNat =
          word w (s.sh + (s.sh == s.wh).toNat) := by
        rw [hboth, ok.stealerHead, hst']
        exact word_add _ _
      have e3 : sn.workerHead = word w s.wh := by rw [ok.workerHead, hw']
      rw [e1, e2, hboth, e3]
      exact hm.popClaim ha hq hne'
    · simp only [if_neg hcas, Option.some.injEq, Prod.mk.injEq] at hs
      obtain ⟨rfl, rfl⟩ := hs
      exact hm.popLoad hk ha hq
  | popRead x n =>
    obtain ⟨buf, hread, hm'⟩ := hm.readClaimed hk
    simp only [ownerStep, hp, hread, Option.some.injEq, Prod.mk.injEq] at hs
    obtain ⟨rfl, rfl⟩ := hs
    exact hm'.ownerStay (ha.evolve rfl rfl .same rfl rfl fun _ => ⟨rfl, rfl⟩) hq (.ret _)
  | spareLoadHeads =>
    simp only [ownerStep, hp, hsh, Option.some.injEq, Prod.mk.injEq] at hs
    obtain ⟨rfl, rfl⟩ := hs
    simp only [List.length_nil] at hcap
    exact hm.ownerGo ha (.spareLoadTail s.sh (a.room (2 ^ k)) (by rw [Deque.St.room]; omega)
      (by omega)) (.spare hq)
  | spareLoadTail sh room hroom hle =>
    simp only [ownerStep, hp, htail, hm.room_eq hle hroom,
      toNat_word (show room < 2 ^ w by omega), Option.some.injEq, Prod.mk.injEq] at hs
    obtain ⟨rfl, rfl⟩ := hs
    exact hm.ownerStay ha hq (.ret _)
  | emptyLoadHeads =>
    simp only [ownerStep, hp, hwh, Option.some.injEq, Prod.mk.injEq] at hs
    obtain ⟨rfl, rfl⟩ := hs
    refine hm.ownerGo ha (.emptyLoadTail s.wh a.stored.isEmpty (by omega) (by omega) ?_)
      (.isEmpty hq)
    rw [List.isEmpty_iff, ← List.length_eq_zero_iff]
    omega
  | emptyLoadTail wh b hle hcap' hb =>
    have e : (s.queue.tail == word w wh) = b := by
      rw [htail, Bool.eq_iff_iff, beq_iff_eq, word_inj hle (by omega), hb]
    simp only [ownerStep, hp, e, Option.some.injEq, Prod.mk.injEq] at hs
    obtain ⟨rfl, rfl⟩ := hs
    exact hm.ownerStay ha hq (.ret _)
  | recvLoadTail m =>
    simp only [ownerStep, hp, Option.some.injEq, Prod.mk.injEq] at hs
    obtain ⟨rfl, rfl⟩ := hs
    rw [htail]
    exact hm.ownerStay ha hq (.recvLoadHeads m)
  | recvLoadHeads m =>
    simp only [List.length_nil] at hcap
    have hroom : (gauge s a fin).tail + a.room (2 ^ k) = s.sh + 2 ^ k := by
      rw [Deque.St.room]; omega
    have hle : s.sh ≤ (gauge s a fin).tail := by omega
    simp only [ownerStep, hp, hsh, hm.room_eq hle hroom, Option.some.injEq, Prod.mk.injEq] at hs
    obtain ⟨rfl, rfl⟩ := hs
    exact hm.ownerGo ha (.recvBook m (a.room (2 ^ k)) (by omega) (Nat.sub_le _ _))
      (.lookReceive hq)
  | recvBook m room hroom hr =>
    simp only [ownerStep, hp] at hs
    cases hb : c.booked with
    | error e =>
      simp only [hb, Option.some.injEq, Prod.mk.injEq] at hs
      obtain ⟨rfl, rfl⟩ := hs
      exact hm.ownerGo ha (.ret _) (.receiveErr e hq)
    | ok n =>
      simp only [hb, toNat_word (show room < 2 ^ w by omega), Option.ite_none_right_eq_some,
        Option.some.injEq, Prod.mk.injEq] at hs
      obtain ⟨⟨hn0, hn⟩, rfl, rfl⟩ := hs
      refine hm.ownerGo ha (.recvWrite (n - m.toNat) [] (Nat.zero_le _) (by omega))
        (.receive (n - m.toNat) hq (by omega) ?_)
      rintro rfl
      simpa using hn0
  | recvWrite n _ hg hroom =>
    simp only [ownerStep, hp] at hs
    by_cases hlt' : extra.length < n
    · simp only [if_pos hlt', Option.bind_eq_some_iff, Option.some.injEq, Prod.mk.injEq] at hs
      obtain ⟨x, -, rfl, rfl⟩ := hs
      have hr := hm.ownerWrite hk ha (by omega) x
        (.recvWrite n (extra ++ [x]) (by simp; omega) hroom)
      refine .go (.arrive hq hlt') ?_
      simpa using hr
    · simp only [if_neg hlt', Option.some.injEq, Prod.mk.injEq] at hs
      obtain ⟨rfl, rfl⟩ := hs
      obtain rfl : extra.length = n := by omega
      exact hm.ownerGo ha (.recvStore extra hroom) (.arrived hq rfl)
  | recvStore _ hroom =>
    simp only [ownerStep, hp, Option.some.injEq, Prod.mk.injEq] at hs
    obtain ⟨rfl, rfl⟩ := hs
    have hr := hm.ownerPublish ha (.received extra.length)
    exact .go (.store hq) (by simpa using hr)
  | drainBook b hb =>
    have ht' : ∀ sn, b.casSnap = some sn → s.wh < sn.wh + 2 ^ w ∧ s.sh < sn.sh + 2 ^ w :=
      fun sn hsn => ht sn (by simpa [casSnap, hp] using hsn)
    simp only [ownerStep, hp] at hs
    rcases hm.bookStep hk c (-1) hb ht' with ⟨b', he, hb'⟩ | ⟨e, he⟩ | ⟨n, h0, hn, hh, he⟩
    · simp only [he, Option.some.injEq, Prod.mk.injEq] at hs
      obtain ⟨rfl, rfl⟩ := hs
      exact hm.ownerStay ha hq (.drainBook b' hb')
    · simp only [he, Option.some.injEq, Prod.mk.injEq] at hs
      obtain ⟨rfl, rfl⟩ := hs
      exact hm.ownerGo ha (.ret _) (.drainErr e hq)
    · simp only [he] at hs
      cases hy : s.agent c.drain with
      | idle =>
        simp only [hy, Option.some.injEq, Prod.mk.injEq] at hs
        obtain ⟨rfl, rfl⟩ := hs
        have hq' : a.agent c.drain = .idle := by
          have := ha c.drain
          rw [hy] at this
          generalize a.agent c.drain = q at this
          cases this
          rfl
        have hlen : (a.stored.take n.toNat).length = n.toNat := by simp [hn]
        have hd : DrainRel ⟨s.wh + n.toNat, s.sh, s.wh + n.toNat, a.stored.length - n.toNat⟩ True
            (a.stored.take n.toNat) (word w s.sh) (word w s.sh) (word w (s.wh + n.toNat)) := by
          refine .inr ⟨trivial, ?_, ?_, rfl, rfl⟩
          · rw [ne_eq, ← List.length_eq_zero_iff, hlen]
            omega
          · rw [hlen, Nat.add_sub_cancel, (hm.of_held hh).1]
        have ha' := ha.book (y := c.drain) hm hh h0 hn (.drain _ _ _ hd)
        exact .go (.drain hq hq' (hm.free.mpr hh) h0 hn)
          ⟨_, [], none, (hm.book hh c.drain h0 hn).congr rfl rfl rfl rfl rfl rfl rfl rfl, .ret _,
            ha'⟩
      | _ => simp [hy] at hs

/-! ### Stealers and `Drain`s -/

/-- Booking by a stealer. -/
lemma MemRel.agentBook (hm : MemRel k s a fin extra pend)
    (ho : OwnerRel (2 ^ k) (gauge s a fin) s.owner a.owner extra pend) (ha : Agents s a fin)
    (hh : a.held = 0) {n : ℕ} (h0 : 0 < n) (hn : n ≤ a.stored.length) {y : A} {p : AgentPc w T}
    {q : AgentSt T}
    (hy : AgentRel ⟨s.wh + n, s.sh, s.wh + n, a.stored.length - n⟩ True (a.stored.take n) p q) :
    Rel k
      ({ s with
        queue.heads := pack (word w (s.wh + n)) (word w s.sh)
        wh := s.wh + n }.setAgent y p)
      ((a.book y n).setAgent y q) := by
  refine ⟨s.wh + n, extra, pend, (hm.book hh y h0 hn).congr rfl rfl rfl rfl rfl rfl rfl rfl, ?_,
    ha.book hm hh h0 hn hy⟩
  refine ho.keeps ?_
  have hlen : (a.book y n).stored.length = a.stored.length - n := by simp [Deque.St.book]
  simp only [gauge, St.setAgent, Deque.St.setAgent, hlen]
  exact .book h0 hn (hm.of_held hh).1

/-- Giving the booked slots back. -/
lemma MemRel.agentRelease (hm : MemRel k s a fin extra pend)
    (ho : OwnerRel (2 ^ k) (gauge s a fin) s.owner a.owner extra pend) (ha : Agents s a fin)
    {y : A} (hy : a.holder = .agent y) (hl : a.lent = []) {p : AgentPc w T} {q : AgentSt T}
    (hp : AgentRel ⟨s.wh, s.wh, s.wh, a.stored.length⟩ False [] p q) :
    Rel k
      ({ s with
        queue.heads := pack (word w s.wh) (word w s.wh)
        sh := s.wh }.setAgent y p)
      (a.release.setAgent y q) := by
  have hle : s.sh ≤ s.wh := by have := hm.held; omega
  refine ⟨s.wh, extra, pend, (hm.release hl).congr rfl rfl rfl rfl rfl rfl rfl rfl,
    ho.keeps (.release hle), ?_⟩
  refine ha.act rfl rfl (.release hle) (by simp [hy, eq_comm]) (by simp [Deque.St.release]) ?_
  simpa [Deque.St.release, gauge, hl] using hp

/-- Reading the next booked item. -/
lemma MemRel.agentRead (hk : k < w) (hm : MemRel k s a fin extra pend)
    (ho : OwnerRel (2 ^ k) (gauge s a fin) s.owner a.owner extra pend) (ha : Agents s a fin)
    {y : A} (hy : a.holder = .agent y) {x : T} {rest : List T} (hl : a.lent = x :: rest) :
    ∃ s', s.readAt (word w (fin - a.lent.length)) = (some x, s') ∧
      ∀ {p : AgentPc w T} {q : AgentSt T}, AgentRel (gauge s a fin) True rest p q →
        Rel k (s'.setAgent y p) ((a.give x rest).setAgent y q) := by
  obtain ⟨buf, he, hm'⟩ := hm.readLent hk hl
  refine ⟨_, he, fun hp =>
    ⟨fin, extra, pend, hm'.congr rfl rfl rfl rfl rfl rfl rfl rfl, ho, ?_⟩⟩
  refine ha.act rfl rfl .same (by simp [hy, eq_comm]) (by simp [Deque.St.give, hy, eq_comm]) ?_
  simpa [Deque.St.give, gauge, hy] using hp

omit [DecidableEq A] in
/-- The assertion about the stealer head holds as long as the booking is under way. -/
lemma MemRel.assertHead (hk : k < w) (hm : MemRel k s a fin extra pend) :
    s.assertHead (word w s.sh) = s := by
  have hsh : s.snap.stealerHead = word w s.sh := (hm.snap_ok hk).stealerHead
  simp [St.assertHead, hsh]

omit [DecidableEq A] in
/-- The compare-exchange that ends a booking: it succeeds with the current heads, or fails. -/
lemma MemRel.endStep (hm : MemRel k s a fin extra pend) (sn : Snap w) (c : Choice T A) :
    endStep c sn s = none ∨ endStep c sn s = some { s with
      queue.heads := pack (word w s.wh) (word w s.wh)
      sh := s.wh } := by
  by_cases hcas : c.spurious = false ∧ s.queue.heads = sn.packed
  · have hwh : sn.workerHead = word w s.wh := by
      rw [Snap.workerHead, ← hcas.2, hm.heads, unpack_pack]
    exact .inr (by simp only [Fifo.endStep, if_pos hcas, hwh])
  · exact .inl (by simp only [Fifo.endStep, if_neg hcas])

/-- What is left of a `Drain` after a read. -/
lemma DrainRel.read {g : Gauge} {lent rest : List T} {x : T} (hl : lent = x :: rest)
    (hr : rest ≠ []) (hle : lent.length ≤ g.fin) :
    DrainRel g True rest (word w (g.fin - lent.length) + 1#w) (word w g.sh) (word w g.fin) := by
  have hlen : lent.length = rest.length + 1 := by rw [hl]; rfl
  refine .inr ⟨trivial, hr, ?_, rfl, rfl⟩
  rw [word_add_one]
  congr 1
  omega

lemma agent_sim (hk : k < w) {c : Choice T A} {y : A} (h : Rel k s a)
    (ht : Timely (.agent y c) s) (hs : agentStep c y s = some (s', l)) : Sim k s' a l := by
  obtain ⟨fin, extra, pend, hm, ho, ha⟩ := h
  have hy := ha y
  generalize hp : s.agent y = p at hy
  generalize hq : a.agent y = q at hy
  have hcap := hm.cap
  have hlent := hm.lent
  have hfin := hm.fin_le
  have hheld := hm.held
  have hlt := two_pow_lt hk
  have hgf : (gauge s a fin).fin = fin := rfl
  have hgs : (gauge s a fin).sh = s.sh := rfl
  cases hy with
  | idle => simp [agentStep, hp] at hs
  | drain => simp [agentStep, hp] at hs
  | done r hn =>
    simp only [agentStep, hp, Option.some.injEq, Prod.mk.injEq] at hs
    obtain ⟨rfl, rfl⟩ := hs
    exact hm.agentGo ho ha (.idle hn) (.finish hq)
  | book m maxCount b hb hn =>
    have ht' : ∀ sn, b.casSnap = some sn → s.wh < sn.wh + 2 ^ w ∧ s.sh < sn.sh + 2 ^ w :=
      fun sn hsn => ht sn (by simpa [casSnap, hp] using hsn)
    simp only [agentStep, hp] at hs
    rcases hm.bookStep hk c maxCount hb ht' with ⟨b', he, hb'⟩ | ⟨e, he⟩ | ⟨n, h0, hn', hh, he⟩
    · simp only [he, Option.some.injEq, Prod.mk.injEq] at hs
      obtain ⟨rfl, rfl⟩ := hs
      exact hm.agentStay ho ha hq (.book m maxCount b' hb' hn)
    · simp only [he, Option.some.injEq, Prod.mk.injEq] at hs
      obtain ⟨rfl, rfl⟩ := hs
      exact hm.agentGo ho ha (.done _ hn) (.stealErr e hq)
    · simp only [he, Option.some.injEq, Prod.mk.injEq] at hs
      obtain ⟨rfl, rfl⟩ := hs
      have hlen : (a.stored.take n.toNat).length = n.toNat := by simp [hn']
      have hmove : AgentRel ⟨s.wh + n.toNat, s.sh, s.wh + n.toNat, a.stored.length - n.toNat⟩ True
          (a.stored.take n.toNat) (.move m (word w s.sh) 0
            (0 + (a.stored.take n.toNat).length)) (.moving m 0) := by
        refine .move m 0 trivial ?_ fun _ => ?_
        · rw [hlen]
          simp only [(hm.of_held hh).1, Nat.add_zero]
        · rw [ne_eq, ← List.length_eq_zero_iff, hlen]
          omega
      rw [hlen, Nat.zero_add] at hmove
      exact .go (.book hq (hm.free.mpr hh) h0 hn') (hm.agentBook ho ha hh h0 hn' hmove)
  | move m n hmine hold hlast =>
    simp only [agentStep, hp] at hs
    cases hl : a.lent with
    | nil =>
      obtain rfl : m = false := by
        cases m with
        | false => rfl
        | true => exact absurd hl (hlast rfl)
      simp only [hl, List.length_nil, Bool.toNat_false, Nat.add_zero, lt_irrefl, if_false,
        Bool.false_eq_true, Option.some.injEq, Prod.mk.injEq] at hs
      obtain ⟨rfl, rfl⟩ := hs
      exact hm.agentGo ho ha (.endLoad _ hmine hl) (.moved hq hmine hl)
    | cons x rest =>
      obtain ⟨s₁, hread, hnext⟩ := hm.agentRead hk ho ha hmine hl
      have hlen : a.lent.length = rest.length + 1 := by rw [hl]; rfl
      have hpos : word w (gauge s a fin).sh + BitVec.ofNat w n =
          word w (fin - a.lent.length) := by
        rw [word_add]
        congr 1
        omega
      rw [hpos, hread, hlen] at hs
      by_cases hmore : n + m.toNat < n + (rest.length + 1)
      · simp only [if_pos hmore, Option.some.injEq, Prod.mk.injEq] at hs
        obtain ⟨rfl, rfl⟩ := hs
        have hr : m = true → rest ≠ [] := by
          rintro rfl rfl
          simp at hmore
        refine .go (.deliver hq hmine hl hr) ?_
        have hgo : AgentRel (gauge s a fin) True rest
            (.move m (word w s.sh) (n + 1) (n + 1 + rest.length)) (.moving m (n + 1)) :=
          .move m (n + 1) trivial (by omega) hr
        rw [Nat.add_assoc n 1, Nat.add_comm 1] at hgo
        exact hnext hgo
      · have hm1 : m = true ∧ rest = [] := by
          cases m with
          | false => simp at hmore
          | true => simpa using hmore
        obtain ⟨rfl, rfl⟩ := hm1
        simp only [if_neg hmore, if_true, Option.some.injEq, Prod.mk.injEq] at hs
        obtain ⟨rfl, rfl⟩ := hs
        exact .go (.last hq hmine hl) (hnext (.endLoad _ trivial rfl))
  | endLoad r hmine hl =>
    rw [hgs] at hp
    simp only [agentStep, hp, hm.assertHead hk, Option.some.injEq, Prod.mk.injEq] at hs
    obtain ⟨rfl, rfl⟩ := hs
    exact hm.agentStay ho ha hq (.endCas r s.snap hmine hl (hm.snap_ok hk))
  | endCas r sn hmine hl ok =>
    rw [hgs] at hp
    rcases hm.endStep sn c with he | he
    · simp only [agentStep, hp, he, hm.assertHead hk, Option.some.injEq, Prod.mk.injEq] at hs
      obtain ⟨rfl, rfl⟩ := hs
      exact hm.agentStay ho ha hq (.endCas r s.snap hmine hl (hm.snap_ok hk))
    · simp only [agentStep, hp, he, Option.some.injEq, Prod.mk.injEq] at hs
      obtain ⟨rfl, rfl⟩ := hs
      exact .go (.release hq hmine hl) (hm.agentRelease ho ha hmine hl (.done r not_false))
  | next d head fromHead toHead hd =>
    simp only [agentStep, hp] at hs
    rcases hd with ⟨hn, rfl⟩ | ⟨hmine, hne, rfl, rfl, rfl⟩
    · simp only [if_true, Option.some.injEq, Prod.mk.injEq] at hs
      obtain ⟨rfl, rfl⟩ := hs
      exact hm.agentGo ho ha (.nextDone d none _ _ _ (.inl ⟨hn, rfl⟩) fun _ => hn)
        (.nextNone hq hn)
    · obtain ⟨x, rest, hl⟩ := List.exists_cons_of_ne_nil hne
      have hlen : a.lent.length = rest.length + 1 := by rw [hl]; rfl
      have hcur : word w ((gauge s a fin).fin - a.lent.length) ≠ word w (gauge s a fin).fin := by
        rw [ne_eq, eq_comm, word_inj (by omega) (by omega)]
        omega
      obtain ⟨s₁, hread, hnext⟩ := hm.agentRead hk ho ha hmine hl
      have hto : word w ((gauge s a fin).fin - a.lent.length) + 1 = word w (gauge s a fin).fin ↔
          rest = [] := by
        show _ + 1#w = _ ↔ _
        rw [word_add_one, eq_comm, word_inj (by omega) (by omega), ← List.length_eq_zero_iff]
        omega
      rw [← hgf] at hread
      simp only [if_neg hcur, hread, hto] at hs
      by_cases hr : rest = []
      · subst hr
        simp only [if_true, Option.some.injEq, Prod.mk.injEq] at hs
        obtain ⟨rfl, rfl⟩ := hs
        exact .go (.nextLast hq hmine hl) (hnext (.nextLoad d x _ trivial rfl))
      · simp only [if_neg hr, Option.some.injEq, Prod.mk.injEq] at hs
        obtain ⟨rfl, rfl⟩ := hs
        exact .go (.nextSome hq hmine hl hr) (hnext (.nextDone d (some x) _ _ _
          (.read hl hr (by omega)) (by simp)))
  | nextLoad d x toHead hmine hl =>
    rw [hgs] at hp
    simp only [agentStep, hp, hm.assertHead hk, Option.some.injEq, Prod.mk.injEq] at hs
    obtain ⟨rfl, rfl⟩ := hs
    exact hm.agentStay ho ha hq (.nextCas d x _ s.snap hmine hl (hm.snap_ok hk))
  | nextCas d x toHead sn hmine hl ok =>
    rw [hgs] at hp
    rcases hm.endStep sn c with he | he
    · simp only [agentStep, hp, he, hm.assertHead hk, Option.some.injEq, Prod.mk.injEq] at hs
      obtain ⟨rfl, rfl⟩ := hs
      exact hm.agentStay ho ha hq (.nextCas d x _ s.snap hmine hl (hm.snap_ok hk))
    · simp only [agentStep, hp, he, Option.some.injEq, Prod.mk.injEq] at hs
      obtain ⟨rfl, rfl⟩ := hs
      exact .go (.releaseLast hq hmine hl) (hm.agentRelease ho ha hmine hl
        (.nextDone d (some x) _ _ _ (.inl ⟨not_false, rfl⟩) fun _ => not_false))
  | nextDone d o head fromHead toHead hd hn =>
    cases d with
    | false =>
      simp only [agentStep, hp, Option.some.injEq, Prod.mk.injEq] at hs
      obtain ⟨rfl, rfl⟩ := hs
      exact hm.agentGo ho ha (.drain _ _ _ hd) (.yielded hq)
    | true =>
      cases o with
      | none =>
        simp only [agentStep, hp, Option.some.injEq, Prod.mk.injEq] at hs
        obtain ⟨rfl, rfl⟩ := hs
        exact hm.agentGo ho ha (.idle (hn rfl)) (.dropped hq)
      | some x =>
        simp only [agentStep, hp, Option.some.injEq, Prod.mk.injEq] at hs
        obtain ⟨rfl, rfl⟩ := hs
        exact hm.agentGo ho ha (.next true _ _ _ hd) (.dropItem hq)

lemma start_sim {y : A} {task : Task} {free : BitVec w} (h : Rel k s a)
    (hs : agentStart y task free s = some (s', l)) : Sim k s' a l := by
  obtain ⟨fin, extra, pend, hm, ho, ha⟩ := h
  have hy := ha y
  generalize hp : s.agent y = p at hy
  generalize hq : a.agent y = q at hy
  cases hy with
  | idle hn =>
    cases task with
    | steal m =>
      simp only [agentStart, hp, Option.some.injEq, Prod.mk.injEq] at hs
      obtain ⟨rfl, rfl⟩ := hs
      exact hm.agentGo ho ha (.book m _ _ trivial hn) (.steal m hq)
    | _ => simp [agentStart, hp] at hs
  | drain head fromHead toHead hd =>
    cases task with
    | steal m => simp [agentStart, hp] at hs
    | next =>
      simp only [agentStart, hp, Option.some.injEq, Prod.mk.injEq] at hs
      obtain ⟨rfl, rfl⟩ := hs
      exact hm.agentGo ho ha (.next false _ _ _ hd) (.next hq)
    | drop =>
      simp only [agentStart, hp, Option.some.injEq, Prod.mk.injEq] at hs
      obtain ⟨rfl, rfl⟩ := hs
      exact hm.agentGo ho ha (.next true _ _ _ hd) (.drop hq)
  | _ => cases task <;> simp [agentStart, hp] at hs

/-- A `Drain` is leaked. -/
lemma MemRel.agentForget (hm : MemRel k s a fin extra pend)
    (ho : OwnerRel (2 ^ k) (gauge s a fin) s.owner a.owner extra pend) (ha : Agents s a fin)
    {y : A} (hq : a.agent y = .draining ∨ a.agent y = .pulling true)
    {head fromHead toHead : BitVec w}
    (hd : DrainRel (gauge s a fin) (a.holder = .agent y) a.lent head fromHead toHead) :
    Sim k (s.setAgent y .idle) a (some (.forget y)) := by
  rcases hd with ⟨hn, rfl⟩ | ⟨hmine, -⟩
  · exact hm.agentGo ho ha (.idle hn) (.forget hq hn)
  · refine .go (.leak hq hmine)
      ⟨fin, extra, pend, (hm.leak hmine).congr rfl rfl rfl rfl rfl rfl rfl rfl, ho, ?_⟩
    exact ha.act rfl rfl .same (by simp [hmine, eq_comm]) (by simp) (.idle (by simp))

lemma forget_sim {y : A} (h : Rel k s a) (hs : agentForget y s = some (s', l)) :
    Sim k s' a l := by
  obtain ⟨fin, extra, pend, hm, ho, ha⟩ := h
  have hy := ha y
  generalize hp : s.agent y = p at hy
  generalize hq : a.agent y = q at hy
  cases hy with
  | drain head fromHead toHead hd =>
    simp only [agentForget, hp, Option.some.injEq, Prod.mk.injEq] at hs
    obtain ⟨rfl, rfl⟩ := hs
    exact hm.agentForget ho ha (.inl hq) hd
  | next d head fromHead toHead hd =>
    cases d with
    | false => simp [agentForget, hp] at hs
    | true =>
      simp only [agentForget, hp, Option.some.injEq, Prod.mk.injEq] at hs
      obtain ⟨rfl, rfl⟩ := hs
      exact hm.agentForget ho ha (.inr hq) hd
  | _ => simp [agentForget, hp] at hs

lemma call_sim {op : Op T} (h : Rel k s a) (hs : step (.call op) s = some (s', l)) :
    Sim k s' a l := by
  obtain ⟨fin, extra, pend, hm, ho, ha⟩ := h
  generalize hp : s.owner = p at ho
  generalize hq : a.owner = o at ho
  cases ho with
  | idle =>
    simp only [step, hp, Option.some.injEq, Prod.mk.injEq] at hs
    obtain ⟨rfl, rfl⟩ := hs
    refine hm.ownerGo ha ?_ (.call op hq)
    cases op with
    | push x => exact .pushLoadHeads x
    | extend => exact .extendLoadHeads
    | pop => exact .popLoadHeads
    | spareCapacity => exact .spareLoadHeads
    | isEmpty => exact .emptyLoadHeads
    | receive m => exact .recvLoadTail m
    | drain => exact .drainBook _ trivial
  | _ => simp [step, hp] at hs

lemma step_sim (hk : k < w) (h : Rel k s a) (hs : (lts w T A).step s l s') : Sim k s' a l := by
  obtain ⟨cmd, ht, hs⟩ := hs
  cases cmd with
  | call op => exact call_sim h hs
  | owner c => exact owner_sim hk h ht hs
  | start y t free => exact start_sim h hs
  | agent y c => exact agent_sim hk h ht hs
  | forget y => exact forget_sim h hs

/-! ### Whole runs -/

omit [DecidableEq A] in
/-- A new queue stands for an empty deque. -/
lemma init_rel (hw : 0 < w) (h : Init s) : ∃ k < w, Rel k s (Deque.init : Deque.St T A) := by
  obtain ⟨⟨c, hc⟩, hown, hag, hf, hwh, hsh⟩ := h
  simp only [Queue.new, Option.ite_none_right_eq_some, Option.some.injEq] at hc
  obtain ⟨hle, hq⟩ := hc
  have hk : Nat.clog 2 c ≤ w - 1 := Nat.clog_le_of_le_pow hle
  refine ⟨Nat.clog 2 c, by omega, 0, [], none, ?_, ?_, ?_⟩
  · refine {
      fault := hf
      mask := by rw [← hq]; exact maskOf_eq
      heads := by rw [← hq, hwh, hsh]; simp [pack]
      tail := by rw [← hq]; simp [Deque.init, hwh]
      held := by simp [Deque.init, hwh, hsh]
      lent := by simp [Deque.init, hsh]
      fin_le := Nat.zero_le _
      cap := by simp [Deque.init]
      ring := ?_
      pending := by simp
      free := by simp [Deque.init] }
    rw [← hq, hsh, hwh]
    exact holds_uninit _ _
  · rw [hown]
    exact .idle
  · intro x
    rw [hag x]
    exact .idle (by simp [Deque.init])

/-- **A simulation** of the queue by the abstract deque, for every capacity. -/
theorem reaches_sim (hw : 0 < w) {tr : List (Event T A)} (h : (lts w T A).Reaches tr s) :
    ∃ k < w, ∃ a, (Deque.lts .fifo (2 ^ k)).Reaches tr a ∧ Rel k s a := by
  induction h with
  | init h =>
    obtain ⟨k, hk, hr⟩ := init_rel hw h
    exact ⟨k, hk, _, .init rfl, hr⟩
  | step _ hs ih =>
    obtain ⟨k, hk, a, ha, hr⟩ := ih
    obtain ⟨a', hsteps, hr'⟩ := step_sim hk hr hs
    exact ⟨k, hk, a', ha.trans hsteps, hr'⟩

/-- **Linearizability**: whatever a FIFO queue shows, the queue of its capacity can show. No
slot is read that holds no item, none is overwritten that holds one or is booked, the memory
holds what the queue holds, and every item that entered is stored, booked or was handed out
once. -/
theorem fifo_linearizable (hw : 0 < w) {tr : List (Event T A)} (h : (lts w T A).Reaches tr s) :
    s.fault = false ∧ ∃ k < w, ∃ a, (Deque.lts .fifo (2 ^ k)).Reaches tr a ∧ Rel k s a ∧
      Balanced a := by
  obtain ⟨k, hk, a, ha, hr⟩ := reaches_sim hw h
  have hf : s.fault = false := by
    obtain ⟨fin, extra, pend, hm, -⟩ := hr
    exact hm.fault
  exact ⟨hf, k, hk, a, ha, hr, balanced_of_reaches ha⟩

/-- A new queue of capacity 2. -/
def twoSlots : St 4 ℕ Unit where
  queue := ⟨0, 0, [.uninit, .uninit], 1⟩
  owner := .idle
  agent := fun _ => .idle
  fault := false
  wh := 0
  sh := 0

lemma twoSlots_init : Init twoSlots := ⟨⟨2, by decide⟩, rfl, fun _ => rfl, rfl, rfl, rfl⟩

/-- Surroundings that ask for one item. -/
def modest : Choice ℕ Unit := ⟨false, 1, none, .error .empty, ()⟩

def pushCmds (x : ℕ) : List (Cmd 4 ℕ Unit) := .call (.push x) :: List.replicate 5 (.owner modest)

/-- Two items are pushed; while the first is being stolen, the second is popped. -/
theorem fifo_linearizable_pop_past_steal : ∃ s, (lts 4 ℕ Unit).Reaches
    [.call (.push 7), .ret .pushOk, .call (.push 8), .ret .pushOk, .start () (.steal false),
      .call .pop, .ret (.popped (some 8)), .deliver () 7, .finish () (.stole 1)] s ∧
    (s.fault = false ∧ ∃ k < 4, ∃ a, (Deque.lts .fifo (2 ^ k)).Reaches
      [.call (.push 7), .ret .pushOk, .call (.push 8), .ret .pushOk, .start () (.steal false),
        .call .pop, .ret (.popped (some 8)), .deliver () 7, .finish () (.stole 1)] a ∧
      Rel k s a ∧ Balanced a) := by
  have hr : (Lts.runs step Timely (pushCmds 7 ++ pushCmds 8 ++
      Cmd.start () (.steal false) 2 :: List.replicate 3 (Cmd.agent () modest) ++
      Cmd.call .pop :: List.replicate 5 (Cmd.owner modest) ++
      List.replicate 5 (Cmd.agent () modest)) twoSlots).map Prod.fst = some
      [.call (.push 7), .ret .pushOk, .call (.push 8), .ret .pushOk, .start () (.steal false),
        .call .pop, .ret (.popped (some 8)), .deliver () 7, .finish () (.stole 1)] := by decide
  obtain ⟨_, s, h, rfl⟩ := Lts.exists_reaches_of_runs Prod.fst twoSlots_init hr
  exact ⟨s, h, fifo_linearizable (by decide) h⟩

end St3.Fifo
