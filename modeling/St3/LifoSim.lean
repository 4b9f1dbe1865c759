import St3.LifoMem

/-!
The LIFO queue is linearizable: every run of it shows a trace of the abstract deque.

A push takes effect when `push_count` is stored, or fails at its load of `head`; a pop takes
effect at its compare-exchange, or at the load that shows an empty queue; a booking takes
effect at its compare-exchange, and its slots are given back when `head` is stored.
-/

namespace St3.Lifo

open Words Slots Deque

variable {w k : ℕ} {T A : Type*} {s s' : St w T A} {a : Deque.St T A} {extra : List T}

def Agents (s : St w T A) (a : Deque.St T A) : Prop :=
  ∀ x, AgentRel (gauge s a) (a.holder = .agent x) a.lent (s.agent x) (a.agent x)

/-- The state `s` of a queue of `2 ^ k` slots stands for the state `a` of the deque. -/
def Rel (k : ℕ) (s : St w T A) (a : Deque.St T A) : Prop :=
  ∃ extra, MemRel k s a extra ∧ OwnerRel (2 ^ k) (gauge s a) s.owner a.owner extra ∧ Agents s a

/-! ### Booking -/

lemma checkHeads_ok {g : Gauge} {sn : Snap w} {oldHead : BitVec w} (ok : sn.Ok g)
    (hq : oldHead = sn.head → Quiet g sn) :
    (∃ b, checkHeads sn oldHead = .go b ∧ b.Ok g) ∨ ∃ e, checkHeads sn oldHead = .err e := by
  by_cases h : oldHead = sn.head
  · exact .inl ⟨.loadCount sn oldHead, by simp [checkHeads, h], ok, h, hq h⟩
  · exact .inr ⟨.busy, by simp [checkHeads, h]⟩

/-- The number of items that a booking finds. -/
lemma MemRel.itemCount (h : MemRel k s a extra) {sn : Snap w} (ok : sn.Ok (gauge s a)) :
    s.queue.pushCount - sn.popCount - sn.head =
      word w (a.stored.length + (s.pops - sn.pops) + (s.stolen - sn.stolen)) := by
  have hp : sn.pops ≤ s.pops := ok.pops
  have hs : sn.stolen ≤ s.stolen := ok.stolen
  have e : (gauge s a).pushes = s.stolen + a.stored.length + s.pops := rfl
  rw [h.pushCount, ok.popCount, ok.head, e, word_sub (by omega), word_sub (by omega)]
  congr 1
  omega

/-- What an access of `book_items` does: it goes on, gives up, or books a prefix. -/
lemma MemRel.bookStep (hk : k < w) (h : MemRel k s a extra) {b : BookPc w} (c : Choice T A)
    (maxCount : BitVec w) (hb : b.Ok (gauge s a))
    (ht : ∀ sn, b.casSnap = some sn → s.pops < sn.pops + 2 ^ w ∧ s.stolen < sn.stolen + 2 ^ w) :
    (∃ b', bookStep c maxCount s b = (.go b', s) ∧ b'.Ok (gauge s a)) ∨
    (∃ e, bookStep c maxCount s b = (.err e, s)) ∨
    ∃ count : BitVec w, 0 < count.toNat ∧ count.toNat ≤ a.stored.length ∧ a.held = 0 ∧
      bookStep c maxCount s b =
        (.ok (word w s.stolen) (word w (s.stolen + count.toNat)) count,
          { s with
            queue.popCountAndHead := pack (word w s.pops) (word w (s.stolen + count.toNat))
            stolen := s.stolen + count.toNat }) := by
  cases b with
  | loadWord => exact .inl ⟨_, rfl, h.snap_ok⟩
  | loadHead sn =>
    have hq : s.queue.head = sn.head → Quiet (gauge s a) sn := by
      intro he hs
      have hheld := h.held
      have hlt := h.held_lt hk
      have hs' : sn.stolen = s.stolen := hs
      rw [Snap.Ok.head hb, h.head, hs', eq_comm, word_inj (by omega) (by omega)] at he
      show a.held = 0
      omega
    rcases checkHeads_ok hb hq with ⟨b', he, hb'⟩ | ⟨e, he⟩
    · exact .inl ⟨b', by simp [Lifo.bookStep, he], hb'⟩
    · exact .inr (.inl ⟨e, by simp [Lifo.bookStep, he]⟩)
  | loadCount sn oldHead =>
    obtain ⟨ok, hold, hq⟩ := hb
    by_cases h0 : s.queue.pushCount - sn.popCount - sn.head = 0
    · exact .inr (.inl ⟨.empty, by simp [Lifo.bookStep, h0]⟩)
    set count := bookCount c.want maxCount (s.queue.pushCount - sn.popCount - sn.head) with hc
    by_cases hcount : count = 0
    · exact .inr (.inl ⟨.empty, by simp only [Lifo.bookStep, if_neg h0, ← hc, if_pos hcount]⟩)
    refine .inl ⟨.cas sn oldHead count, ?_, ok, hold, hq, ?_, ?_⟩
    · simp only [Lifo.bookStep, if_neg h0, ← hc, if_neg hcount]
    · have hne : count.toNat ≠ 0 := fun e => hcount (BitVec.eq_of_toNat_eq (by simpa using e))
      omega
    · intro hp hs
      have hp' : sn.pops = s.pops := hp
      have hs' : sn.stolen = s.stolen := hs
      have hcap := h.cap
      have hlt := two_pow_lt hk
      have hle := toNat_bookCount_le c.want maxCount (s.queue.pushCount - sn.popCount - sn.head)
      rw [← hc, h.itemCount ok, hp', hs', Nat.sub_self, Nat.sub_self, Nat.add_zero,
        toNat_word (by omega)] at hle
      exact hle
  | cas sn oldHead count =>
    obtain ⟨ok, hold, hq, h0, hf⟩ := hb
    obtain ⟨htp, hts⟩ := ht sn rfl
    by_cases hcas : c.spurious = false ∧ s.queue.popCountAndHead = sn.packed
    · obtain ⟨hp, hs⟩ := ok.current htp hts (h.packed ▸ hcas.2)
      have hp' : s.pops = sn.pops := hp
      have hs' : s.stolen = sn.stolen := hs
      refine .inr (.inr ⟨count, h0, hf hp.symm hs.symm, hq hs.symm, ?_⟩)
      have hadd : word w s.stolen + count = word w (s.stolen + count.toNat) := by
        rw [← word_add]
        simp [word]
      simp only [Lifo.bookStep, if_pos hcas, ok.popCount, ok.head, ← hp', ← hs', hadd]
    · have hq' : oldHead = s.snap.head → Quiet (gauge s a) s.snap := by
        intro he _
        have hs' : s.snap.head = word w s.stolen := h.snap_ok.head
        have hle : sn.stolen ≤ s.stolen := ok.stolen
        rw [hold, ok.head, hs', eq_comm, word_inj hle hts] at he
        exact hq he.symm
      rcases checkHeads_ok h.snap_ok hq' with ⟨b', he, hb'⟩ | ⟨e, he⟩
      · exact .inl ⟨b', by simp [Lifo.bookStep, hcas, he], hb'⟩
      · exact .inr (.inl ⟨e, by simp [Lifo.bookStep, hcas, he]⟩)

/-! ### The words the owner computes -/

lemma MemRel.tail_eq (hm : MemRel k s a extra) :
    word w (gauge s a).pushes - s.snap.popCount = word w (gauge s a).tail := by
  have hp : s.snap.popCount = word w s.pops := hm.snap_ok.popCount
  have e : (gauge s a).pushes = (gauge s a).tail + s.pops := rfl
  rw [hp, e, word_sub (by omega), Nat.add_sub_cancel]

lemma MemRel.used (hm : MemRel k s a extra) :
    word w (gauge s a).tail - s.queue.head = word w (a.held + a.stored.length) :=
  hm.sub_head 0

lemma MemRel.full_iff (hk : k < w) (hm : MemRel k s a extra) :
    s.queue.mask < word w (gauge s a).tail - s.queue.head ↔ a.held + a.stored.length = 2 ^ k := by
  have hcap := hm.cap
  have hlt := two_pow_lt hk
  have hpos := Nat.two_pow_pos k
  rw [hm.used, hm.mask, BitVec.lt_def, toNat_maskOf hk, toNat_word (by omega)]
  omega

lemma MemRel.room_eq (hm : MemRel k s a extra) :
    s.queue.capacity - (word w (gauge s a).tail - s.queue.head) = word w (a.room (2 ^ k)) := by
  have hcap := hm.cap
  rw [hm.used, Queue.capacity, hm.mask]
  show maskOf w k + 1#w - _ = _
  rw [maskOf_add_one, word_sub (by omega), St.room]

lemma MemRel.maxTail_eq (hm : MemRel k s a extra) :
    s.queue.head + s.queue.capacity = word w ((gauge s a).tail + a.room (2 ^ k)) := by
  have hcap := hm.cap
  have hheld := hm.held
  rw [hm.head, Queue.capacity, hm.mask]
  show _ + (maskOf w k + 1#w) = _
  rw [maskOf_add_one, word_add]
  have e : (gauge s a).tail = s.stolen + a.stored.length := rfl
  rw [e, St.room]
  congr 1
  omega

/-! ### Matched steps -/

variable [DecidableEq A] {l : Option (Event T A)}

/-- A step of the queue that shows `l` and leads to `s'` is matched from `a`. -/
def Sim (k : ℕ) (s' : St w T A) (a : Deque.St T A) (l : Option (Event T A)) : Prop :=
  ∃ a', (Deque.lts .lifo (2 ^ k)).Steps a l.toList a' ∧ Rel k s' a'

lemma Sim.stay (h : Rel k s' a) : Sim k s' a none := ⟨a, .refl a, h⟩

lemma Sim.go {a' : Deque.St T A} (hs : Deque.Step .lifo (2 ^ k) a l a') (h : Rel k s' a') :
    Sim k s' a l :=
  ⟨a', .one hs, h⟩

section
variable {p : OwnerPc w T A} {o : OwnerSt T A}

omit [DecidableEq A] in
/-- The owner moves on without touching the memory. -/
lemma MemRel.owner (hm : MemRel k s a extra) (ha : Agents s a)
    (ho : OwnerRel (2 ^ k) (gauge s a) p o extra) :
    Rel k { s with owner := p } { a with owner := o } :=
  ⟨extra, hm.congr rfl rfl rfl rfl rfl rfl rfl rfl rfl, ho, ha⟩

lemma MemRel.ownerStay (hm : MemRel k s a extra) (ha : Agents s a) (hq : a.owner = o)
    (ho : OwnerRel (2 ^ k) (gauge s a) p o extra) : Sim k { s with owner := p } a none := by
  subst hq
  exact .stay (hm.owner ha ho)

lemma MemRel.ownerGo (hm : MemRel k s a extra) (ha : Agents s a)
    (ho : OwnerRel (2 ^ k) (gauge s a) p o extra)
    (hs : Deque.Step .lifo (2 ^ k) a l { a with owner := o }) :
    Sim k { s with owner := p } a l :=
  .go hs (hm.owner ha ho)

end

omit [DecidableEq A] in
/-- The agents do not notice a step of the owner that leaves the bookings alone. -/
lemma Agents.evolve {a' : Deque.St T A} (ha : Agents s a) (h1 : s'.agent = s.agent)
    (h2 : a'.agent = a.agent) (e : Gauge.Evolve (gauge s a) (gauge s' a'))
    (h3 : a'.holder = a.holder) (h4 : a'.lent = a.lent) (h5 : s'.stolen = s.stolen)
    (h6 : a'.held = a.held) : Agents s' a' := by
  intro x
  rw [h1, h2]
  exact (ha x).evolve e (by rw [h3]) fun _ => ⟨h4, h5, h6⟩

/-! ### One agent moves -/

section
variable {y : A} {p : AgentPc w T} {q : AgentSt T}

/-- The others do not notice that an agent moves on. -/
lemma Agents.set (ha : Agents s a) (hy : AgentRel (gauge s a) (a.holder = .agent y) a.lent p q) :
    Agents (s.setAgent y p) (a.setAgent y q) := by
  intro x
  by_cases hx : x = y
  · subst hx
    simpa [St.setAgent, Deque.St.setAgent, gauge] using hy
  · simpa [St.setAgent, Deque.St.setAgent, gauge, hx] using ha x

/-- The others do not notice what an agent does with a booking of its own. -/
lemma Agents.act {a' : Deque.St T A} (ha : Agents s a) (h1 : s'.agent = s.agent)
    (h2 : a'.agent = a.agent) (e : Gauge.Evolve (gauge s a) (gauge s' a'))
    (hf : ∀ x, a.holder = .agent x → x = y) (hf' : ∀ x, a'.holder = .agent x → x = y)
    (hy : AgentRel (gauge s' a') (a'.holder = .agent y) a'.lent p q) :
    Agents (s'.setAgent y p) (a'.setAgent y q) := by
  intro x
  by_cases hx : x = y
  · subst hx
    simpa [St.setAgent, Deque.St.setAgent, gauge] using hy
  · have hn : ¬ a.holder = .agent x := fun h => hx (hf x h)
    have hn' : ¬ a'.holder = .agent x := fun h => hx (hf' x h)
    have hx' : AgentRel (gauge s' a') (a'.holder = .agent x) a'.lent (s.agent x) (a.agent x) :=
      (ha x).evolve e (iff_of_false hn' hn) fun h => absurd h hn
    simpa [St.setAgent, Deque.St.setAgent, gauge, hx, h1, h2] using hx'

lemma MemRel.agentGo (hm : MemRel k s a extra)
    (ho : OwnerRel (2 ^ k) (gauge s a) s.owner a.owner extra) (ha : Agents s a)
    (hy : AgentRel (gauge s a) (a.holder = .agent y) a.lent p q)
    (hs : Deque.Step .lifo (2 ^ k) a l (a.setAgent y q)) : Sim k (s.setAgent y p) a l :=
  .go hs ⟨extra, hm.congr rfl rfl rfl rfl rfl rfl rfl rfl rfl, ho, ha.set hy⟩

lemma MemRel.agentStay (hm : MemRel k s a extra)
    (ho : OwnerRel (2 ^ k) (gauge s a) s.owner a.owner extra) (ha : Agents s a)
    (hq : a.agent y = q) (hy : AgentRel (gauge s a) (a.holder = .agent y) a.lent p q) :
    Sim k (s.setAgent y p) a none := by
  have e : a.setAgent y q = a := by subst hq; simp [Deque.St.setAgent]
  refine .stay ⟨extra, hm.congr rfl rfl rfl rfl rfl rfl rfl rfl rfl, ho, ?_⟩
  have := ha.set hy
  rwa [e] at this

end

/-! ### The owner -/

section
variable {p : OwnerPc w T A} {o : OwnerSt T A}

omit [DecidableEq A] in
/-- The owner writes the next slot. -/
lemma MemRel.ownerWrite (hk : k < w) (hm : MemRel k s a extra) (ha : Agents s a)
    (hlt : a.held + a.stored.length + extra.length < 2 ^ k) (x : T)
    (ho : OwnerRel (2 ^ k) (gauge s a) p o (extra ++ [x])) :
    Rel k { s.writeAt (word w ((gauge s a).tail + extra.length)) x with owner := p }
      { a with owner := o } :=
  ⟨extra ++ [x], (hm.write hk hlt x).congr rfl rfl rfl rfl rfl rfl rfl rfl rfl, ho,
    ha.evolve rfl rfl .same rfl rfl rfl rfl⟩

omit [DecidableEq A] in
/-- The owner publishes what it has written. -/
lemma MemRel.ownerPublish (hm : MemRel k s a extra) (ha : Agents s a) (r : Res T A) :
    Rel k
      { s with
        queue.pushCount := word w ((gauge s a).pushes + extra.length)
        owner := .ret r }
      { a.append extra with owner := .done r } := by
  refine ⟨[], hm.publish.congr rfl rfl rfl rfl rfl rfl rfl rfl rfl, .ret r,
    ha.evolve rfl rfl ?_ rfl rfl rfl rfl⟩
  have e : gauge s (a.append extra) =
      { gauge s a with len := (gauge s a).len + extra.length } := by
    simp [gauge, St.append]
  exact e ▸ .push extra.length

/-- The test of `pop` on a load that is good for the current `pop_count`. -/
lemma MemRel.popCheck (hk : k < w) (hm : MemRel k s a []) (ha : Agents s a)
    (hq : a.owner = .called .pop) {sn : Snap w} (ok : sn.Ok (gauge s a)) (hp : sn.pops = s.pops)
    (ht : (gauge s a).tail ≤ sn.stolen + 2 ^ k) :
    Sim k { s with
      owner := popCheck sn (word w (gauge s a).tail) (word w (s.pops + 1)) } a none := by
  have hs : sn.stolen ≤ s.stolen := ok.stolen
  have hlt := two_pow_lt hk
  have htail : (gauge s a).tail = s.stolen + a.stored.length := rfl
  have hiff : word w (gauge s a).tail = sn.head ↔ (gauge s a).tail = sn.stolen := by
    rw [ok.head, word_inj (by omega) (by omega)]
  by_cases he : (gauge s a).tail = sn.stolen
  · have hnil : a.stored = [] := List.length_eq_zero_iff.mp (by omega)
    rw [Lifo.popCheck, if_pos (hiff.mpr he)]
    exact hm.ownerGo ha (.ret _) (.popNone hq hnil)
  · rw [Lifo.popCheck, if_neg (hiff.not.mpr he)]
    exact hm.ownerStay ha hq (.popCas sn ok hp (Ne.symm he))

/-- The compare-exchange of `pop`. -/
lemma MemRel.popClaim (hm : MemRel k s a []) (ha : Agents s a) (hq : a.owner = .called .pop)
    (hne : a.stored ≠ []) :
    Sim k
      { s with
        queue.popCountAndHead := pack (word w (s.pops + 1)) (word w s.stolen)
        pops := s.pops + 1
        owner := .popRead (word w (gauge s a).tail) } a none := by
  obtain ⟨rest, x, hx⟩ :=
    (List.eq_nil_or_concat' a.stored).resolve_left hne
  have hlen : a.stored.length = rest.length + 1 := by rw [hx]; simp
  refine .go (.pop hq (show Flavour.lifo.Takes a.stored x rest from hx)) ?_
  refine ⟨[x], (hm.claim hx _).congr rfl rfl rfl rfl rfl rfl rfl rfl rfl, ?_,
    ha.evolve rfl rfl (.pop rest.length hlen) rfl rfl rfl rfl⟩
  have e : (gauge s a).tail = s.stolen + rest.length + 1 := by
    simp only [gauge, Gauge.tail]; omega
  rw [e]
  exact .popRead x

end

/-- What a booking makes of the agents. -/
lemma Agents.book (ha : Agents s a) (hm : MemRel k s a extra) (hh : a.held = 0) {n : ℕ}
    (h0 : 0 < n) (hn : n ≤ a.stored.length) {y : A} {p : AgentPc w T} {q : AgentSt T}
    (hy : AgentRel ⟨s.pops, s.stolen + n, a.stored.length - n, n⟩ True (a.stored.take n) p q) :
    Agents
      ({ s with
        queue.popCountAndHead := pack (word w s.pops) (word w (s.stolen + n))
        stolen := s.stolen + n }.setAgent y p)
      ((a.book y n).setAgent y q) := by
  have hfree := hm.free.mpr hh
  have hlen : (a.book y n).stored.length = a.stored.length - n := by simp [Deque.St.book]
  refine ha.act rfl rfl ?_ (by simp [hfree]) (by simp [Deque.St.book, eq_comm]) ?_
  · simp only [gauge, hlen]
    exact .book n h0 hn hh
  · simp only [gauge, hlen]
    simpa [Deque.St.book] using hy

lemma owner_sim (hk : k < w) {c : Choice T A} (h : Rel k s a) (ht : Timely (.owner c) s)
    (hs : ownerStep c s = some (s', l)) : Sim k s' a l := by
  obtain ⟨extra, hm, ho, ha⟩ := h
  generalize hp : s.owner = p at ho
  generalize hq : a.owner = o at ho
  have hcap := hm.cap
  have hlt := two_pow_lt hk
  have hpc : s.snap.popCount = word w (gauge s a).pops := hm.snap_ok.popCount
  cases ho with
  | idle => simp [ownerStep, hp] at hs
  | ret r =>
    simp only [ownerStep, hp, Option.some.injEq, Prod.mk.injEq] at hs
    obtain ⟨rfl, rfl⟩ := hs
    exact hm.ownerGo ha .idle (.ret hq)
  | pushLoadCount x =>
    simp only [ownerStep, hp, Option.some.injEq, Prod.mk.injEq] at hs
    obtain ⟨rfl, rfl⟩ := hs
    rw [hm.pushCount]
    exact hm.ownerStay ha hq (.pushLoadPops x)
  | pushLoadPops x =>
    simp only [ownerStep, hp, Option.some.injEq, Prod.mk.injEq] at hs
    obtain ⟨rfl, rfl⟩ := hs
    rw [hm.tail_eq]
    exact hm.ownerStay ha hq (.pushLoadHead x)
  | pushLoadHead x =>
    simp only [ownerStep, hp, hm.full_iff hk] at hs
    by_cases hfull : a.held + a.stored.length = 2 ^ k
    · simp only [if_pos hfull, Option.some.injEq, Prod.mk.injEq] at hs
      obtain ⟨rfl, rfl⟩ := hs
      exact hm.ownerGo ha (.ret _) (.pushFull hq hfull)
    · simp only [if_neg hfull, Option.some.injEq, Prod.mk.injEq] at hs
      obtain ⟨rfl, rfl⟩ := hs
      refine hm.ownerStay ha hq (.pushWrite x ?_)
      simp only [gauge, List.length_nil] at hcap ⊢
      omega
  | pushWrite x hroom =>
    simp only [ownerStep, hp, Option.some.injEq, Prod.mk.injEq] at hs
    obtain ⟨rfl, rfl⟩ := hs
    have hr := hm.ownerWrite hk ha hroom x (.pushStore x hroom)
    rw [← hq] at hr
    exact .stay hr
  | pushStore x hroom =>
    simp only [ownerStep, hp, Option.some.injEq, Prod.mk.injEq] at hs
    obtain ⟨rfl, rfl⟩ := hs
    have hr := hm.ownerPublish ha .pushOk
    exact .go (.pushOk hq hroom) (by simpa [word_add_one] using hr)
  | extendLoadCount =>
    simp only [ownerStep, hp, Option.some.injEq, Prod.mk.injEq] at hs
    obtain ⟨rfl, rfl⟩ := hs
    rw [hm.pushCount]
    exact hm.ownerStay ha hq .extendLoadPops
  | extendLoadPops =>
    simp only [ownerStep, hp, Option.some.injEq, Prod.mk.injEq] at hs
    obtain ⟨rfl, rfl⟩ := hs
    rw [hm.tail_eq, hpc]
    exact hm.ownerStay ha hq .extendLoadHead
  | extendLoadHead =>
    simp only [ownerStep, hp, Option.some.injEq, Prod.mk.injEq] at hs
    obtain ⟨rfl, rfl⟩ := hs
    rw [hm.maxTail_eq]
    refine hm.ownerGo ha (.extendNext (a.room (2 ^ k)) [] (Nat.zero_le _) ?_) (.lookExtend hq)
    simp only [gauge, St.room, List.length_nil] at hcap ⊢
    omega
  | extendNext room _ hg hroom =>
    simp only [ownerStep, hp, Option.some.injEq, Prod.mk.injEq] at hs
    obtain ⟨rfl, rfl⟩ := hs
    have hroom' : a.held + a.stored.length + room ≤ 2 ^ k := hroom
    have hstore : OwnerRel (A := A) (2 ^ k) (gauge s a) (.extendStore (word w (gauge s a).pops)
        (word w ((gauge s a).tail + extra.length))) (.storing extra .extended) extra :=
      .extendStore extra (by show a.held + a.stored.length + _ ≤ _; omega)
    have hmax : word w ((gauge s a).tail + extra.length) = word w ((gauge s a).tail + room) ↔
        extra.length = room := by
      rw [eq_comm, word_inj (by omega) (by omega)]
      omega
    cases hc : c.item with
    | none => exact hm.ownerGo ha hstore (.pullEnd hq)
    | some x =>
      by_cases hfull : extra.length = room
      · simp only [if_pos (hmax.mpr hfull)]
        exact hm.ownerGo ha hstore (.pullFull hq hfull)
      · simp only [if_neg (hmax.not.mpr hfull)]
        have hlt' : extra.length < room := by omega
        exact hm.ownerGo ha (.extendWrite x room extra hlt' hroom) (.pull hq hlt')
  | extendWrite x room _ hg hroom =>
    simp only [ownerStep, hp, Option.some.injEq, Prod.mk.injEq] at hs
    obtain ⟨rfl, rfl⟩ := hs
    have hroom' : a.held + a.stored.length + room ≤ 2 ^ k := hroom
    have hr := hm.ownerWrite hk ha (by omega) x
      (.extendNext room (extra ++ [x]) (by simp; omega) hroom)
    rw [← hq] at hr
    refine .stay ?_
    simpa [word_add_one, Nat.add_assoc] using hr
  | extendStore _ hroom =>
    simp only [ownerStep, hp, Option.some.injEq, Prod.mk.injEq] at hs
    obtain ⟨rfl, rfl⟩ := hs
    have hr := hm.ownerPublish ha .extended
    have e : (gauge s a).tail + extra.length + (gauge s a).pops =
        (gauge s a).pushes + extra.length := by rw [Gauge.pushes]; omega
    exact .go (.store hq) (by simpa [e] using hr)
  | popLoadWord =>
    simp only [ownerStep, hp, Option.some.injEq, Prod.mk.injEq] at hs
    obtain ⟨rfl, rfl⟩ := hs
    refine hm.ownerStay ha hq (.popLoadCount s.snap hm.snap_ok rfl ?_)
    show s.stolen + a.stored.length ≤ s.stolen + 2 ^ k
    omega
  | popLoadCount sn ok hps htl =>
    simp only [ownerStep, hp, Option.some.injEq, Prod.mk.injEq] at hs
    obtain ⟨rfl, rfl⟩ := hs
    have hps' : sn.pops = s.pops := hps
    have e : (gauge s a).pushes = (gauge s a).tail + s.pops := rfl
    have ht' : s.queue.pushCount - sn.popCount = word w (gauge s a).tail := by
      rw [hm.pushCount, ok.popCount, hps', e, word_sub (by omega), Nat.add_sub_cancel]
    have hc' : sn.popCount + 1#w = word w (s.pops + 1) := by
      rw [ok.popCount, hps', word_add_one]
    have hr := hm.popCheck hk ha hq ok hps htl
    rw [← ht', ← hc'] at hr
    exact hr
  | popCas sn ok hps hne =>
    obtain ⟨htp, hts⟩ := ht sn (by simp [casSnap, hp])
    simp only [ownerStep, hp] at hs
    by_cases hcas : c.spurious = false ∧ s.queue.popCountAndHead = sn.packed
    · simp only [if_pos hcas, Option.some.injEq, Prod.mk.injEq] at hs
      obtain ⟨rfl, rfl⟩ := hs
      obtain ⟨-, hst⟩ := ok.current htp hts (hm.packed ▸ hcas.2)
      have hst' : s.stolen = sn.stolen := hst
      have hne' : a.stored ≠ [] := by
        rintro he
        have : (gauge s a).tail = s.stolen := by simp [gauge, Gauge.tail, he]
        omega
      have hr := hm.popClaim ha hq hne'
      rw [hst', ← ok.head] at hr
      exact hst' ▸ hr
    · simp only [if_neg hcas, Option.some.injEq, Prod.mk.injEq] at hs
      obtain ⟨rfl, rfl⟩ := hs
      refine hm.popCheck hk ha hq hm.snap_ok rfl ?_
      show s.stolen + a.stored.length ≤ s.stolen + 2 ^ k
      omega
  | popRead x =>
    obtain ⟨buf, hread, hm'⟩ := hm.readClaimed hk
    have e : word w ((gauge s a).tail + 1) - 1#w = word w (gauge s a).tail := by
      rw [show 1#w = word w 1 from rfl, word_sub (by omega), Nat.add_sub_cancel]
    have e' : word w ((gauge s a).tail + 1) - 1 = word w (gauge s a).tail := e
    simp only [ownerStep, hp, e', hread, Option.some.injEq, Prod.mk.injEq] at hs
    obtain ⟨rfl, rfl⟩ := hs
    exact hm'.ownerStay (ha.evolve rfl rfl .same rfl rfl rfl rfl) hq (.ret _)
  | spareLoadCount =>
    simp only [ownerStep, hp, Option.some.injEq, Prod.mk.injEq] at hs
    obtain ⟨rfl, rfl⟩ := hs
    rw [hm.pushCount]
    exact hm.ownerStay ha hq .spareLoadPops
  | spareLoadPops =>
    simp only [ownerStep, hp, Option.some.injEq, Prod.mk.injEq] at hs
    obtain ⟨rfl, rfl⟩ := hs
    rw [hm.tail_eq]
    exact hm.ownerStay ha hq .spareLoadHead
  | spareLoadHead =>
    simp only [ownerStep, hp, hm.room_eq, Option.some.injEq, Prod.mk.injEq] at hs
    obtain ⟨rfl, rfl⟩ := hs
    have hroom : a.room (2 ^ k) < 2 ^ w := by rw [St.room]; omega
    rw [toNat_word hroom]
    exact hm.ownerGo ha (.ret _) (.spare hq)
  | emptyLoadCount =>
    simp only [ownerStep, hp, Option.some.injEq, Prod.mk.injEq] at hs
    obtain ⟨rfl, rfl⟩ := hs
    rw [hm.pushCount]
    exact hm.ownerStay ha hq .emptyLoadWord
  | emptyLoadWord =>
    simp only [ownerStep, hp, Option.some.injEq, Prod.mk.injEq] at hs
    obtain ⟨rfl, rfl⟩ := hs
    have hh : s.snap.head = word w s.stolen := hm.snap_ok.head
    have htl : (gauge s a).tail = s.stolen + a.stored.length := rfl
    have e : (word w (gauge s a).pushes - s.snap.popCount == s.snap.head) =
        a.stored.isEmpty := by
      rw [hm.tail_eq, hh, Bool.eq_iff_iff, beq_iff_eq, word_inj (by omega) (by omega),
        List.isEmpty_iff, ← List.length_eq_zero_iff]
      omega
    rw [e]
    exact hm.ownerGo ha (.ret _) (.isEmpty hq)
  | recvLoadCount m =>
    simp only [ownerStep, hp, Option.some.injEq, Prod.mk.injEq] at hs
    obtain ⟨rfl, rfl⟩ := hs
    rw [hm.pushCount]
    exact hm.ownerStay ha hq (.recvLoadPops m)
  | recvLoadPops m =>
    simp only [ownerStep, hp, Option.some.injEq, Prod.mk.injEq] at hs
    obtain ⟨rfl, rfl⟩ := hs
    rw [hm.tail_eq]
    exact hm.ownerStay ha hq (.recvLoadHead m)
  | recvLoadHead m =>
    simp only [ownerStep, hp, hm.room_eq, Option.some.injEq, Prod.mk.injEq] at hs
    obtain ⟨rfl, rfl⟩ := hs
    refine hm.ownerGo ha (.recvBook m (a.room (2 ^ k)) ?_) (.lookReceive hq)
    simp only [gauge, St.room, List.length_nil] at hcap ⊢
    omega
  | recvBook m room hroom =>
    have hroom' : a.held + a.stored.length + room ≤ 2 ^ k := hroom
    simp only [ownerStep, hp] at hs
    cases hb : c.booked with
    | error e =>
      simp only [hb, Option.some.injEq, Prod.mk.injEq] at hs
      obtain ⟨rfl, rfl⟩ := hs
      exact hm.ownerGo ha (.ret _) (.receiveErr e hq)
    | ok n =>
      simp only [hb, toNat_word (show room < 2 ^ w by omega), Option.ite_none_right_eq_some,
        Option.some.injEq, Prod.mk.injEq] at hs
      obtain ⟨⟨hn0, hn⟩, rfl, rfl⟩ := hs
      refine hm.ownerGo ha (.recvWrite (n - m.toNat) [] (Nat.zero_le _) ?_)
        (.receive (n - m.toNat) hq (by omega) ?_)
      · show a.held + a.stored.length + _ ≤ _
        omega
      · rintro rfl
        simpa using hn0
  | recvWrite n _ hg hroom =>
    have hroom' : a.held + a.stored.length + n ≤ 2 ^ k := hroom
    simp only [ownerStep, hp] at hs
    by_cases hlt' : extra.length < n
    · simp only [if_pos hlt', Option.bind_eq_some_iff, Option.some.injEq, Prod.mk.injEq] at hs
      obtain ⟨x, -, rfl, rfl⟩ := hs
      have hr := hm.ownerWrite hk ha (by omega) x
        (.recvWrite n (extra ++ [x]) (by simp; omega) hroom)
      refine .go (.arrive hq hlt') ?_
      simpa using hr
    · simp only [if_neg hlt', Option.some.injEq, Prod.mk.injEq] at hs
      obtain ⟨rfl, rfl⟩ := hs
      obtain rfl : extra.length = n := by omega
      exact hm.ownerGo ha (.recvStore extra hroom) (.arrived hq rfl)
  | recvStore _ hroom =>
    simp only [ownerStep, hp, Option.some.injEq, Prod.mk.injEq] at hs
    obtain ⟨rfl, rfl⟩ := hs
    have hr := hm.ownerPublish ha (.received extra.length)
    exact .go (.store hq) (by simpa using hr)
  | drainBook b hb =>
    have ht' : ∀ sn, b.casSnap = some sn →
        s.pops < sn.pops + 2 ^ w ∧ s.stolen < sn.stolen + 2 ^ w :=
      fun sn hsn => ht sn (by simpa [casSnap, hp] using hsn)
    simp only [ownerStep, hp] at hs
    rcases hm.bookStep hk c (-1) hb ht' with ⟨b', he, hb'⟩ | ⟨e, he⟩ | ⟨n, h0, hn, hh, he⟩
    · simp only [he, Option.some.injEq, Prod.mk.injEq] at hs
      obtain ⟨rfl, rfl⟩ := hs
      exact hm.ownerStay ha hq (.drainBook b' hb')
    · simp only [he, Option.some.injEq, Prod.mk.injEq] at hs
      obtain ⟨rfl, rfl⟩ := hs
      exact hm.ownerGo ha (.ret _) (.drainErr e hq)
    · simp only [he] at hs
      cases hy : s.agent c.drain with
      | idle =>
        simp only [hy, Option.some.injEq, Prod.mk.injEq] at hs
        obtain ⟨rfl, rfl⟩ := hs
        have hq' : a.agent c.drain = .idle := by
          have := ha c.drain
          rw [hy] at this
          generalize a.agent c.drain = q at this
          cases this
          rfl
        have hlen : (a.stored.take n.toNat).length = n.toNat := by simp [hn]
        have hd : DrainRel ⟨s.pops, s.stolen + n.toNat, a.stored.length - n.toNat, n.toNat⟩ True
            (a.stored.take n.toNat) (word w s.stolen) (word w (s.stolen + n.toNat)) n.toNat := by
          refine .inr ⟨trivial, ?_, ?_, rfl, rfl⟩
          · rw [ne_eq, ← List.length_eq_zero_iff, hlen]
            omega
          · rw [hlen, Nat.add_sub_cancel]
        have ha' := ha.book (y := c.drain) hm hh h0 hn (.drain _ _ _ hd)
        exact .go (.drain hq hq' (hm.free.mpr hh) h0 hn)
          ⟨[], (hm.book hh c.drain h0 hn).congr rfl rfl rfl rfl rfl rfl rfl rfl rfl, .ret _, ha'⟩
      | _ => simp [hy] at hs

/-! ### Stealers and `Drain`s -/

/-- Booking by a stealer. -/
lemma MemRel.agentBook (hm : MemRel k s a extra)
    (ho : OwnerRel (2 ^ k) (gauge s a) s.owner a.owner extra) (ha : Agents s a)
    (hh : a.held = 0) {n : ℕ} (h0 : 0 < n) (hn : n ≤ a.stored.length) {y : A} {p : AgentPc w T}
    {q : AgentSt T}
    (hy : AgentRel ⟨s.pops, s.stolen + n, a.stored.length - n, n⟩ True (a.stored.take n) p q) :
    Rel k
      ({ s with
        queue.popCountAndHead := pack (word w s.pops) (word w (s.stolen + n))
        stolen := s.stolen + n }.setAgent y p)
      ((a.book y n).setAgent y q) := by
  refine ⟨extra, (hm.book hh y h0 hn).congr rfl rfl rfl rfl rfl rfl rfl rfl rfl, ?_,
    ha.book hm hh h0 hn hy⟩
  refine ho.keeps ?_
  have hlen : (a.book y n).stored.length = a.stored.length - n := by simp [Deque.St.book]
  simp only [gauge, St.setAgent, Deque.St.setAgent, hlen]
  exact .book h0 hn hh

/-- Giving the booked slots back. -/
lemma MemRel.agentRelease (hm : MemRel k s a extra)
    (ho : OwnerRel (2 ^ k) (gauge s a) s.owner a.owner extra) (ha : Agents s a) {y : A}
    (hy : a.holder = .agent y) (hl : a.lent = []) {p : AgentPc w T} {q : AgentSt T}
    (hp : AgentRel (gauge s a.release) False [] p q) :
    Rel k ({ s with queue.head := word w s.stolen }.setAgent y p) (a.release.setAgent y q) := by
  refine ⟨extra, (hm.release hy hl).congr rfl rfl rfl rfl rfl rfl rfl rfl rfl,
    ho.keeps (.release _), ?_⟩
  refine ha.act rfl rfl .release (by simp [hy, eq_comm]) (by simp [Deque.St.release]) ?_
  simpa [Deque.St.release, gauge, hl] using hp

/-- Reading the next booked item. -/
lemma MemRel.agentRead (hk : k < w) (hm : MemRel k s a extra)
    (ho : OwnerRel (2 ^ k) (gauge s a) s.owner a.owner extra) (ha : Agents s a) {y : A}
    (hy : a.holder = .agent y) {x : T} {rest : List T} (hl : a.lent = x :: rest) :
    ∃ s', s.readAt (word w (s.stolen - a.lent.length)) = (some x, s') ∧
      ∀ {p : AgentPc w T} {q : AgentSt T}, AgentRel (gauge s a) True rest p q →
        Rel k (s'.setAgent y p) ((a.give x rest).setAgent y q) := by
  obtain ⟨buf, he, hm'⟩ := hm.readLent hk hy hl
  refine ⟨_, he, fun hp => ⟨extra, hm'.congr rfl rfl rfl rfl rfl rfl rfl rfl rfl, ho, ?_⟩⟩
  refine ha.act rfl rfl .same (by simp [hy, eq_comm]) (by simp [Deque.St.give, hy, eq_comm]) ?_
  simpa [Deque.St.give, gauge, hy] using hp

/-- What is left of a `Drain` after a read. -/
lemma DrainRel.read {g : Gauge} {lent rest : List T} {x : T} (hl : lent = x :: rest)
    (hr : rest ≠ []) (hle : lent.length ≤ g.stolen) {booked : ℕ} (hb : booked = g.held) :
    DrainRel g True rest (word w (g.stolen - lent.length) + 1#w) (word w g.stolen) booked := by
  have hlen : lent.length = rest.length + 1 := by rw [hl]; rfl
  refine .inr ⟨trivial, hr, ?_, rfl, hb⟩
  rw [word_add_one]
  congr 1
  omega

lemma agent_sim (hk : k < w) {c : Choice T A} {y : A} (h : Rel k s a)
    (ht : Timely (.agent y c) s) (hs : agentStep c y s = some (s', l)) : Sim k s' a l := by
  obtain ⟨extra, hm, ho, ha⟩ := h
  have hy := ha y
  generalize hp : s.agent y = p at hy
  generalize hq : a.agent y = q at hy
  have hcap := hm.cap
  have hle := hm.lent
  have hheld := hm.held
  have hlt := two_pow_lt hk
  cases hy with
  | idle => simp [agentStep, hp] at hs
  | drain => simp [agentStep, hp] at hs
  | done r hn =>
    simp only [agentStep, hp, Option.some.injEq, Prod.mk.injEq] at hs
    obtain ⟨rfl, rfl⟩ := hs
    exact hm.agentGo ho ha (.idle hn) (.finish hq)
  | book m maxCount b hb hn =>
    have ht' : ∀ sn, b.casSnap = some sn →
        s.pops < sn.pops + 2 ^ w ∧ s.stolen < sn.stolen + 2 ^ w :=
      fun sn hsn => ht sn (by simpa [casSnap, hp] using hsn)
    simp only [agentStep, hp] at hs
    rcases hm.bookStep hk c maxCount hb ht' with ⟨b', he, hb'⟩ | ⟨e, he⟩ | ⟨n, h0, hn', hh, he⟩
    · simp only [he, Option.some.injEq, Prod.mk.injEq] at hs
      obtain ⟨rfl, rfl⟩ := hs
      exact hm.agentStay ho ha hq (.book m maxCount b' hb' hn)
    · simp only [he, Option.some.injEq, Prod.mk.injEq] at hs
      obtain ⟨rfl, rfl⟩ := hs
      exact hm.agentGo ho ha (.done _ hn) (.stealErr e hq)
    · simp only [he, Option.some.injEq, Prod.mk.injEq] at hs
      obtain ⟨rfl, rfl⟩ := hs
      have hlen : (a.stored.take n.toNat).length = n.toNat := by simp [hn']
      have hmove : AgentRel ⟨s.pops, s.stolen + n.toNat, a.stored.length - n.toNat, n.toNat⟩ True
          (a.stored.take n.toNat) (.move m (word w s.stolen) (word w (s.stolen + n.toNat)) 0
            (0 + (a.stored.take n.toNat).length)) (.moving m 0) := by
        refine .move m _ 0 trivial ?_ fun _ => ?_
        · rw [hlen, Nat.add_sub_cancel, word_add, Nat.add_zero]
        · rw [ne_eq, ← List.length_eq_zero_iff, hlen]
          omega
      rw [hlen, Nat.zero_add] at hmove
      exact .go (.book hq (hm.free.mpr hh) h0 hn') (hm.agentBook ho ha hh h0 hn' hmove)
  | move m oldHead n hmine hold hlast =>
    simp only [agentStep, hp] at hs
    cases hl : a.lent with
    | nil =>
      obtain rfl : m = false := by
        cases m with
        | false => rfl
        | true => exact absurd hl (hlast rfl)
      simp only [hl, List.length_nil, Bool.toNat_false, Nat.add_zero, lt_irrefl, if_false,
        Bool.false_eq_true, Option.some.injEq, Prod.mk.injEq] at hs
      obtain ⟨rfl, rfl⟩ := hs
      exact hm.agentGo ho ha (.storeHead _ hmine hl) (.moved hq hmine hl)
    | cons x rest =>
      obtain ⟨s₁, hread, hnext⟩ := hm.agentRead hk ho ha hmine hl
      have hpos : oldHead + BitVec.ofNat w n = word w (s.stolen - a.lent.length) := hold
      have hlen : a.lent.length = rest.length + 1 := by rw [hl]; rfl
      rw [hpos, hread, hlen] at hs
      by_cases hmore : n + m.toNat < n + (rest.length + 1)
      · simp only [if_pos hmore, Option.some.injEq, Prod.mk.injEq] at hs
        obtain ⟨rfl, rfl⟩ := hs
        have hr : m = true → rest ≠ [] := by
          rintro rfl rfl
          simp at hmore
        refine .go (.deliver hq hmine hl hr) ?_
        have hgo : AgentRel (gauge s a) True rest
            (.move m oldHead (word w s.stolen) (n + 1) (n + 1 + rest.length)) (.moving m (n + 1)) :=
          by
          refine .move m oldHead (n + 1) trivial ?_ hr
          rw [← word_add n 1, ← BitVec.add_assoc, hold, word_add]
          congr 1
          show s.stolen - a.lent.length + 1 = s.stolen - rest.length
          omega
        rw [Nat.add_assoc n 1, Nat.add_comm 1] at hgo
        exact hnext hgo
      · have hm1 : m = true ∧ rest = [] := by
          cases m with
          | false => simp at hmore
          | true => simpa using hmore
        obtain ⟨rfl, rfl⟩ := hm1
        simp only [if_neg hmore, if_true, Option.some.injEq, Prod.mk.injEq] at hs
        obtain ⟨rfl, rfl⟩ := hs
        exact .go (.last hq hmine hl) (hnext (.storeHead _ trivial rfl))
  | storeHead r hmine hl =>
    simp only [agentStep, hp, Option.some.injEq, Prod.mk.injEq] at hs
    obtain ⟨rfl, rfl⟩ := hs
    exact .go (.release hq hmine hl) (hm.agentRelease ho ha hmine hl (.done r not_false))
  | next d current fin booked hd =>
    simp only [agentStep, hp] at hs
    rcases hd with ⟨hn, rfl⟩ | ⟨hmine, hne, rfl, rfl, hbook⟩
    · simp only [if_true, Option.some.injEq, Prod.mk.injEq] at hs
      obtain ⟨rfl, rfl⟩ := hs
      exact hm.agentGo ho ha (.nextDone d none _ _ _ (.inl ⟨hn, rfl⟩) fun _ => hn)
        (.nextNone hq hn)
    · obtain ⟨x, rest, hl⟩ := List.exists_cons_of_ne_nil hne
      have hlen : a.lent.length = rest.length + 1 := by rw [hl]; rfl
      have hst : (gauge s a).stolen = s.stolen := rfl
      have hcur : word w ((gauge s a).stolen - a.lent.length) ≠ word w (gauge s a).stolen := by
        rw [ne_eq, eq_comm, word_inj (by omega) (by omega)]
        omega
      obtain ⟨s₁, hread, hnext⟩ := hm.agentRead hk ho ha hmine hl
      have hfin : word w ((gauge s a).stolen - a.lent.length) + 1 = word w (gauge s a).stolen ↔
          rest = [] := by
        show _ + 1#w = _ ↔ _
        rw [word_add_one, eq_comm, word_inj (by omega) (by omega), ← List.length_eq_zero_iff]
        omega
      have hread' : s.readAt (word w ((gauge s a).stolen - a.lent.length)) = (some x, s₁) := hread
      simp only [if_neg hcur, hread', hfin] at hs
      by_cases hr : rest = []
      · subst hr
        simp only [if_true, Option.some.injEq, Prod.mk.injEq] at hs
        obtain ⟨rfl, rfl⟩ := hs
        exact .go (.nextLast hq hmine hl) (hnext (.nextStore d x booked trivial rfl))
      · simp only [if_neg hr, Option.some.injEq, Prod.mk.injEq] at hs
        obtain ⟨rfl, rfl⟩ := hs
        exact .go (.nextSome hq hmine hl hr) (hnext (.nextDone d (some x) _ _ _
          (.read hl hr (hle.trans hheld) hbook) (by simp)))
  | nextStore d x booked hmine hl =>
    simp only [agentStep, hp, Option.some.injEq, Prod.mk.injEq] at hs
    obtain ⟨rfl, rfl⟩ := hs
    exact .go (.releaseLast hq hmine hl) (hm.agentRelease ho ha hmine hl
      (.nextDone d (some x) _ _ _ (.inl ⟨not_false, rfl⟩) fun _ => not_false))
  | nextDone d o current fin booked hd hn =>
    cases d with
    | false =>
      simp only [agentStep, hp, Option.some.injEq, Prod.mk.injEq] at hs
      obtain ⟨rfl, rfl⟩ := hs
      exact hm.agentGo ho ha (.drain _ _ _ hd) (.yielded hq)
    | true =>
      cases o with
      | none =>
        simp only [agentStep, hp, Option.some.injEq, Prod.mk.injEq] at hs
        obtain ⟨rfl, rfl⟩ := hs
        exact hm.agentGo ho ha (.idle (hn rfl)) (.dropped hq)
      | some x =>
        simp only [agentStep, hp, Option.some.injEq, Prod.mk.injEq] at hs
        obtain ⟨rfl, rfl⟩ := hs
        exact hm.agentGo ho ha (.next true _ _ _ hd) (.dropItem hq)

lemma start_sim {y : A} {task : Task} {free : BitVec w} (h : Rel k s a)
    (hs : agentStart y task free s = some (s', l)) : Sim k s' a l := by
  obtain ⟨extra, hm, ho, ha⟩ := h
  have hy := ha y
  generalize hp : s.agent y = p at hy
  generalize hq : a.agent y = q at hy
  cases hy with
  | idle hn =>
    cases task with
    | steal m =>
      simp only [agentStart, hp, Option.some.injEq, Prod.mk.injEq] at hs
      obtain ⟨rfl, rfl⟩ := hs
      exact hm.agentGo ho ha (.book m _ _ trivial hn) (.steal m hq)
    | _ => simp [agentStart, hp] at hs
  | drain current fin booked hd =>
    cases task with
    | steal m => simp [agentStart, hp] at hs
    | next =>
      simp only [agentStart, hp, Option.some.injEq, Prod.mk.injEq] at hs
      obtain ⟨rfl, rfl⟩ := hs
      exact hm.agentGo ho ha (.next false _ _ _ hd) (.next hq)
    | drop =>
      simp only [agentStart, hp, Option.some.injEq, Prod.mk.injEq] at hs
      obtain ⟨rfl, rfl⟩ := hs
      exact hm.agentGo ho ha (.next true _ _ _ hd) (.drop hq)
  | _ => cases task <;> simp [agentStart, hp] at hs

/-- A `Drain` is leaked. -/
lemma MemRel.agentForget (hk : k < w) (hm : MemRel k s a extra)
    (ho : OwnerRel (2 ^ k) (gauge s a) s.owner a.owner extra) (ha : Agents s a) {y : A}
    (hq : a.agent y = .draining ∨ a.agent y = .pulling true) {current fin : BitVec w}
    {booked : ℕ}
    (hd : DrainRel (gauge s a) (a.holder = .agent y) a.lent current fin booked) :
    Sim k
      ({ s with abandoned := s.abandoned ++
          [(booked - (fin - current).toNat, (fin - current).toNat)] }.setAgent y .idle) a
      (some (.forget y)) := by
  have hcap := hm.cap
  have hle := hm.lent
  have hheld := hm.held
  have hlt := two_pow_lt hk
  rcases hd with ⟨hn, rfl⟩ | ⟨hmine, hne, rfl, rfl, rfl⟩
  · rw [BitVec.sub_self, BitVec.toNat_zero]
    exact .go (.forget hq hn)
      ⟨extra, (hm.forget _).congr rfl rfl rfl rfl rfl rfl rfl rfl rfl, ho, ha.set (.idle hn)⟩
  · have hst : (gauge s a).stolen = s.stolen := rfl
    have hleft : (word w (gauge s a).stolen - word w ((gauge s a).stolen - a.lent.length)).toNat =
        a.lent.length := by
      rw [toNat_word_sub (by omega) (by omega)]
      omega
    rw [hleft]
    refine .go (.leak hq hmine)
      ⟨extra, (hm.leak hmine hne).congr rfl rfl rfl rfl rfl rfl rfl rfl rfl, ho, ?_⟩
    exact ha.act rfl rfl .same (by simp [hmine, eq_comm]) (by simp) (.idle (by simp))

lemma forget_sim (hk : k < w) {y : A} (h : Rel k s a)
    (hs : agentForget y s = some (s', l)) : Sim k s' a l := by
  obtain ⟨extra, hm, ho, ha⟩ := h
  have hy := ha y
  generalize hp : s.agent y = p at hy
  generalize hq : a.agent y = q at hy
  cases hy with
  | drain current fin booked hd =>
    simp only [agentForget, hp, Option.some.injEq, Prod.mk.injEq] at hs
    obtain ⟨rfl, rfl⟩ := hs
    exact hm.agentForget hk ho ha (.inl hq) hd
  | next d current fin booked hd =>
    cases d with
    | false => simp [agentForget, hp] at hs
    | true =>
      simp only [agentForget, hp, Option.some.injEq, Prod.mk.injEq] at hs
      obtain ⟨rfl, rfl⟩ := hs
      exact hm.agentForget hk ho ha (.inr hq) hd
  | _ => simp [agentForget, hp] at hs

lemma call_sim {op : Op T} (h : Rel k s a) (hs : step (.call op) s = some (s', l)) :
    Sim k s' a l := by
  obtain ⟨extra, hm, ho, ha⟩ := h
  generalize hp : s.owner = p at ho
  generalize hq : a.owner = o at ho
  cases ho with
  | idle =>
    simp only [step, hp, Option.some.injEq, Prod.mk.injEq] at hs
    obtain ⟨rfl, rfl⟩ := hs
    refine hm.ownerGo ha ?_ (.call op hq)
    cases op with
    | push x => exact .pushLoadCount x
    | extend => exact .extendLoadCount
    | pop => exact .popLoadWord
    | spareCapacity => exact .spareLoadCount
    | isEmpty => exact .emptyLoadCount
    | receive m => exact .recvLoadCount m
    | drain => exact .drainBook _ trivial
  | _ => simp [step, hp] at hs

lemma step_sim (hk : k < w) (h : Rel k s a) (hs : (lts w T A).step s l s') : Sim k s' a l := by
  obtain ⟨cmd, ht, hs⟩ := hs
  cases cmd with
  | call op => exact call_sim h hs
  | owner c => exact owner_sim hk h ht hs
  | start y t free => exact start_sim h hs
  | agent y c => exact agent_sim hk h ht hs
  | forget y => exact forget_sim hk h hs

/-! ### Whole runs -/

omit [DecidableEq A] in
/-- A new queue stands for an empty deque. -/
lemma init_rel (hw : 0 < w) (h : Init s) : ∃ k < w, Rel k s (Deque.init : Deque.St T A) := by
  obtain ⟨⟨c, hc⟩, hown, hag, hf, hp, hst, hab⟩ := h
  simp only [Queue.new, Option.ite_none_right_eq_some, Option.some.injEq] at hc
  obtain ⟨hle, hq⟩ := hc
  have hk : Nat.clog 2 c ≤ w - 1 := Nat.clog_le_of_le_pow hle
  refine ⟨Nat.clog 2 c, by omega, [], ?_, ?_, ?_⟩
  · refine {
      fault := hf
      mask := by rw [← hq]; exact maskOf_eq
      pushCount := by rw [← hq]; simp [gauge, Gauge.pushes, Gauge.tail, Deque.init, hp, hst]
      packed := by rw [← hq, hp, hst]; simp [pack]
      head := by rw [← hq]; simp [hst]
      lent := by simp [Deque.init]
      held := by simp [Deque.init]
      cap := by simp [Deque.init]
      ring := ?_
      free := by simp [Deque.init]
      moved := ?_
      lost := by simp [Deque.init]
      abandoned := by simp [hab] }
    · rw [← hq]
      exact holds_uninit _ _
    · intro n hn hn'
      simp only [Deque.init, List.length_nil] at hn hn'
      omega
  · rw [hown]
    exact .idle
  · intro x
    rw [hag x]
    exact .idle (by simp [Deque.init])

/-- **A simulation** of the queue by the abstract deque, for every capacity. -/
theorem reaches_sim (hw : 0 < w) {tr : List (Event T A)} (h : (lts w T A).Reaches tr s) :
    ∃ k < w, ∃ a, (Deque.lts .lifo (2 ^ k)).Reaches tr a ∧ Rel k s a := by
  induction h with
  | init h =>
    obtain ⟨k, hk, hr⟩ := init_rel hw h
    exact ⟨k, hk, _, .init rfl, hr⟩
  | step _ hs ih =>
    obtain ⟨k, hk, a, ha, hr⟩ := ih
    obtain ⟨a', hsteps, hr'⟩ := step_sim hk hr hs
    exact ⟨k, hk, a', ha.trans hsteps, hr'⟩

/-- **Linearizability**: whatever a LIFO queue shows, the deque of its capacity can show. No
slot is read that holds no item, none is overwritten that holds one or is booked, the memory
holds what the deque holds, and every item that entered is stored, booked or was handed out
once. -/
theorem lifo_linearizable (hw : 0 < w) {tr : List (Event T A)} (h : (lts w T A).Reaches tr s) :
    s.fault = false ∧ ∃ k < w, ∃ a, (Deque.lts .lifo (2 ^ k)).Reaches tr a ∧ Rel k s a ∧
      Balanced a := by
  obtain ⟨k, hk, a, ha, hr⟩ := reaches_sim hw h
  have hf : s.fault = false := by
    obtain ⟨extra, hm, -⟩ := hr
    exact hm.fault
  exact ⟨hf, k, hk, a, ha, hr, balanced_of_reaches ha⟩

/-- A new queue of capacity 2. -/
def twoSlots : St 4 ℕ Unit where
  queue := ⟨0, 0, 0, [.uninit, .uninit], 1⟩
  owner := .idle
  agent := fun _ => .idle
  fault := false
  pops := 0
  stolen := 0
  abandoned := []

lemma twoSlots_init : Init twoSlots := ⟨⟨2, by decide⟩, rfl, fun _ => rfl, rfl, rfl, rfl, rfl⟩

/-- Surroundings that ask for everything. -/
def greedy : Choice ℕ Unit := ⟨false, 9, none, .error .empty, ()⟩

def pushCmds (x : ℕ) : List (Cmd 4 ℕ Unit) := .call (.push x) :: List.replicate 6 (.owner greedy)

/-- Two items are pushed and stolen. -/
theorem lifo_linearizable_steal : ∃ s, (lts 4 ℕ Unit).Reaches
    [.call (.push 7), .ret .pushOk, .call (.push 8), .ret .pushOk, .start () (.steal false),
      .deliver () 7, .deliver () 8, .finish () (.stole 2)] s ∧
    (s.fault = false ∧ ∃ k < 4, ∃ a, (Deque.lts .lifo (2 ^ k)).Reaches
      [.call (.push 7), .ret .pushOk, .call (.push 8), .ret .pushOk, .start () (.steal false),
        .deliver () 7, .deliver () 8, .finish () (.stole 2)] a ∧ Rel k s a ∧ Balanced a) := by
  have hr : (Lts.runs step Timely (pushCmds 7 ++ pushCmds 8 ++
      Cmd.start () (.steal false) 2 :: List.replicate 9 (Cmd.agent () greedy)) twoSlots).map
      Prod.fst = some
      [.call (.push 7), .ret .pushOk, .call (.push 8), .ret .pushOk, .start () (.steal false),
        .deliver () 7, .deliver () 8, .finish () (.stole 2)] := by decide
  obtain ⟨_, s, h, rfl⟩ := Lts.exists_reaches_of_runs Prod.fst twoSlots_init hr
  exact ⟨s, h, lifo_linearizable (by decide) h⟩

end St3.Lifo
