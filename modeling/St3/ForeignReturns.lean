import St3.ForeignCalls

/-!
What a calm call leaves when it returns, and so what any foreign code leaves.
-/

namespace St3.Foreign

open Words Slots Deque Transfer Alone Flavour

universe u

variable {w : ℕ} {T : Type u} {F : Owner w T} {ι : Type*} [DecidableEq ι]

lemma word_toNat (n : BitVec w) : word w n.toNat = n := by simp

/-! ### The queue that is filled, and the queue that is stolen from -/

section
variable {q q' : F.Queue} {r : Ring} {ds : List (Drain w)} {n : ℕ}

/-- The slots behind the tail become available. -/
lemma QueueOk.publish (h : QueueOk q r ds) (hn : r.tail + n ≤ r.stealer + 2 ^ r.k)
    (hs : F.Shows q' { r with pushes := r.pushes + n })
    (hlen : (F.buffer q').length = (F.buffer q).length)
    (hb : ∀ m, r.stealer ≤ m → m < r.tail →
      (F.buffer q')[m % 2 ^ r.k]? = (F.buffer q)[m % 2 ^ r.k]?) :
    QueueOk q' { r with pushes := r.pushes + n } ds ∧
      held q' ds = held q ds + (cells (F.buffer q') (2 ^ r.k) r.tail n : List (Option T)) := by
  have h1 := h.ok.stealer
  have h2 := h.ok.tail
  have h3 := h.ok.cap
  obtain ⟨c, f, hl⟩ := h.lent
  have hr : Ring.Ok w { r with pushes := r.pushes + n } :=
    ⟨h.ok.lt, h1, by simp only; omega, by simp only [Ring.tail] at hn ⊢; omega⟩
  have hl' : Lent F { r with pushes := r.pushes + n } ds c f :=
    ⟨hl.lo, hl.le, hl.hi, hl.fin, hl.eq⟩
  have h5 := hl.lo
  have h6 := hl.le
  have h7 := hl.hi
  refine ⟨⟨hs, hr, by rw [hlen, h.len], c, f, hl'⟩, ?_⟩
  have e1 : Ring.tail { r with pushes := r.pushes + n } - r.front = r.tail - r.front + n := by
    simp only [Ring.tail]
    omega
  have e2 : r.front + (r.tail - r.front) = r.tail := by
    rw [Ring.tail]
    omega
  have e3 : cells (F.buffer q') (2 ^ r.k) c (f - c) = cells (F.buffer q) (2 ^ r.k) c (f - c) :=
    cells_congr fun m h8 h9 => hb m (by omega) (by rw [Ring.tail]; omega)
  have e4 : cells (F.buffer q') (2 ^ r.k) r.front (r.tail - r.front) =
      cells (F.buffer q) (2 ^ r.k) r.front (r.tail - r.front) :=
    cells_congr fun m h8 h9 => hb m (by omega) (by rw [Ring.tail] at h9 ⊢; omega)
  rw [hl'.held hs hr, hl.held h.shows' h.ok, e1, cells_add, e2, e3, e4]
  simp only [← Multiset.coe_add, add_assoc]

/-- A queue that is not booked has no `Drain` with items left. -/
lemma QueueOk.quiet (h : QueueOk q r ds) (hq : r.stealer = r.front) : ds = [] := by
  obtain ⟨c, f, hl⟩ := h.lent
  have h1 := hl.lo
  have h2 := hl.le
  have h3 := hl.hi
  rw [hl.eq, if_pos (by omega)]

/-- Items are taken from the head. -/
lemma QueueOk.take (h : QueueOk q r ds) (hq : r.stealer = r.front) (hn : n ≤ r.tail - r.front)
    (hs : F.Shows q' { r with front := r.front + n, stealer := r.front + n })
    (hlen : (F.buffer q').length = (F.buffer q).length)
    (hb : ∀ m, r.front + n ≤ m → m < r.tail →
      (F.buffer q')[m % 2 ^ r.k]? = (F.buffer q)[m % 2 ^ r.k]?) :
    QueueOk q' { r with front := r.front + n, stealer := r.front + n } ds ∧
      held q' ds + (cells (F.buffer q) (2 ^ r.k) r.front n : List (Option T)) = held q ds := by
  have h2 := h.ok.tail
  have h3 := h.ok.cap
  have hds := h.quiet hq
  rw [Ring.tail] at hn
  have hr : Ring.Ok w { r with front := r.front + n, stealer := r.front + n } :=
    ⟨h.ok.lt, le_rfl, by simp only; omega, by simp only; omega⟩
  have hl : Lent F r ds r.front r.front :=
    ⟨hq.le, le_rfl, le_rfl, fun h => absurd h (lt_irrefl _), by rw [hds, if_pos rfl]⟩
  have hl' : Lent F { r with front := r.front + n, stealer := r.front + n } ds (r.front + n)
      (r.front + n) :=
    ⟨le_rfl, le_rfl, le_rfl, fun h => absurd h (lt_irrefl _), by rw [hds, if_pos rfl]⟩
  refine ⟨⟨hs, hr, by rw [hlen, h.len], _, _, hl'⟩, ?_⟩
  have e1 : Ring.tail { r with front := r.front + n, stealer := r.front + n } = r.tail := rfl
  have e2 : r.tail - r.front = n + (r.tail - (r.front + n)) := by
    rw [Ring.tail]
    omega
  rw [hl'.held hs hr, hl.held h.shows' h.ok, e1, e2, cells_add, Nat.sub_self, Nat.sub_self]
  simp only [cells_zero, List.nil_append, ← Multiset.coe_add]
  rw [cells_congr fun m h4 h5 => hb m h4 (by omega), add_comm]

/-- A `Drain` books items at the head. -/
lemma QueueOk.lend (h : QueueOk q r ds) (hq : r.stealer = r.front) (hn : n ≤ r.tail - r.front)
    (h0 : n ≠ 0) (hs : F.Shows q' { r with front := r.front + n }) (hb : F.buffer q' = F.buffer q) :
    let ds' := ds ++ [⟨word w r.front, word w r.front, word w r.front + word w n⟩]
    QueueOk q' { r with front := r.front + n } ds' ∧ held q' ds' = held q ds := by
  intro ds'
  have h1 := h.ok.stealer
  have h2 := h.ok.tail
  have hds := h.quiet hq
  rw [Ring.tail] at hn
  have hr : Ring.Ok w { r with front := r.front + n } :=
    ⟨h.ok.lt, by simp only; omega, by simp only; omega, h.ok.cap⟩
  have hl : Lent F r ds r.front r.front :=
    ⟨hq.le, le_rfl, le_rfl, fun h => absurd h (lt_irrefl _), by rw [hds, if_pos rfl]⟩
  have hl' : Lent F { r with front := r.front + n } ds' r.front (r.front + n) := by
    refine ⟨hq.le, Nat.le_add_right _ _, le_rfl, fun _ _ => rfl, ?_⟩
    rw [if_neg (by omega), hq, ← word_add]
    show ds ++ _ = _
    rw [hds, List.nil_append]
  refine ⟨⟨hs, hr, by rw [hb, h.len], _, _, hl'⟩, ?_⟩
  have e1 : Ring.tail { r with front := r.front + n } = r.tail := rfl
  have e2 : r.tail - r.front = n + (r.tail - (r.front + n)) := by
    rw [Ring.tail]
    omega
  rw [hl'.held hs hr, hl.held h.shows' h.ok, hb, e1, e2, Nat.add_sub_cancel_left, Nat.sub_self]
  simp only [cells_zero, List.nil_append, cells_add]

end

variable [Fintype ι] {s₀ s s' : St F ι} {c : Frame F ι} {i : ι}

/-- A call returns that is not in the way of what it has stored. -/
lemma Inv.returns (h₀ : s₀.Ok) (h : Inv s₀ c s) (h' : Inv s .program s') (hc : c.Clean s)
    (ho : ∀ i, (s'.ring i).pushes = (s.ring i).pushes → c.own i = []) : Inv s₀ .program s' := by
  refine ⟨h'.ok, fun i => (h.le i).trans (h'.le i), fun i hp => ?_,
    fun hs _ => h'.sound (h.sound hs hc) trivial, trivial⟩
  have h1 := (h.le i).pushes
  have h2 := (h'.le i).pushes
  have hk := h.kept i (by omega)
  rw [ho i (by omega)] at hk
  have hcap := (h₀.queue i).ok.cap
  have h3 := Nat.two_pow_pos (s₀.ring i).k
  refine hk.trans (h'.kept i (by omega)) (h.le i) (h₀.queue i).ok ?_ (by omega)
  rw [Ring.tail, List.length_nil]
  omega

/-! ### `extend` -/

section
variable {kept : F.Kept} {start : Ring} {xs : List T} {full : Bool}

lemma Inv.excess (h : Inv s₀ (.extend i kept start xs false) s) :
    Inv s₀ (.extend i kept start xs true) s :=
  ⟨h.ok, h.le, h.kept, h.sound, h.known⟩

lemma Inv.extendEnd (h₀ : s₀.Ok) (h : Inv s₀ (.extend i kept start xs full) s)
    (hst : Still start (s.ring i) xs.length) : Inv s₀ .program (s.extendEnd i kept start xs) := by
  obtain ⟨rfl, rfl, hxs⟩ := h.known
  obtain ⟨hp, hpops⟩ := hst
  have hq := h.ok.queue i
  have hle := h.le i
  have h1 := hle.stealer
  have h2 := hq.ok.cap
  have h3 := Nat.two_pow_pos (s.ring i).k
  have hkept := h.kept i hp
  rw [Frame.own_extend, if_pos rfl] at hkept
  have htail : xs.length = 0 ∨ (s.ring i).tail = (s₀.ring i).tail := by
    rcases hpops with hpops | h0
    · right
      rw [Ring.tail, Ring.tail, hp, hpops]
    · exact .inl h0
  have hseg : Seg (F.buffer (s.queue i)) (2 ^ (s.ring i).k) (s.ring i).tail xs := by
    rcases htail with h0 | h0
    · rw [List.eq_nil_of_length_eq_zero h0]
      exact .nil
    · rw [hle.k, h0]
      exact hkept.own
  have hroom : (s.ring i).tail + xs.length ≤ (s.ring i).stealer + 2 ^ (s.ring i).k := by
    rcases htail with h0 | h0
    · rw [h0, Ring.tail]
      omega
    · rw [h0, hle.k]
      omega
  have hpub := F.shows_publish xs.length (h₀.queue i).shows' hq.shows'
  rw [← hp] at hpub
  have hb := F.buffer_publish (F.keep (s₀.queue i)) (word w xs.length) (s.queue i)
  obtain ⟨hq', hh⟩ := hq.publish hroom hpub (by rw [hb]) fun m _ _ => by rw [hb]
  rw [hb, cells_of_seg hseg] at hh
  have he : s.extendEnd i (F.keep (s₀.queue i)) (s₀.ring i) xs = { s with
      queue := Function.update s.queue i
        (F.publish (F.keep (s₀.queue i)) (word w xs.length) (s.queue i))
      ring := Function.update s.ring i { s.ring i with pushes := (s.ring i).pushes + xs.length }
      pushed := s.pushed ++ xs } := by
    rw [St.extendEnd, F.extendStore_eq, hp]
  have hstep : Inv s .program (s.extendEnd i (F.keep (s₀.queue i)) (s₀.ring i) xs) := by
    rw [he]
    refine .of_queue h.ok i xs [] rfl rfl (Function.update_eq_self i s.drains).symm hq'
      ⟨rfl, le_rfl, le_rfl, Nat.le_add_right _ _, le_rfl⟩ (fun hn => ?_) rfl
      (List.append_nil _).symm (by simpa using hh)
    rw [F.buffer_publish]
    have h0 : xs.length = 0 := by
      simp only at hn
      omega
    rw [h0]
    exact .refl _ _
  refine h.returns h₀ hstep hp fun j hj => ?_
  rw [Frame.own_extend]
  split_ifs with hji
  · subst hji
    rw [he] at hj
    simp only [Function.update_self] at hj
    exact List.eq_nil_of_length_eq_zero (by omega)
  · rfl

end

/-! ### Bookings -/

section
variable {src : ι} {t : Taker F ι} {start : Ring} {l : F.Look} {itemCount : BitVec w}

lemma Inv.retry (h : Inv s₀ (.count src t start l itemCount) s) {n : BitVec w}
    (ht : F.test (F.relook l (s.queue src)) (s.queue src) = .ok n) :
    Inv s₀ (.count src t start (F.relook l (s.queue src)) n) s := by
  obtain ⟨ho, rfl, r, -, -, -, hl, -, -⟩ := h.known
  have hq := h.ok.queue src
  have hl' := F.relooked hl hq.shows'
  obtain ⟨rfl, hh⟩ := F.test_ok hl' hq.shows' ht
  exact ⟨h.ok, h.le, h.kept, h.sound, ho, rfl, s.ring src, h.le src, .refl _, hq.ok, hl',
    word_count hq.ok, hh⟩

/-- What a compare-exchange finds that succeeds: the queue is not booked, and it has as many items
as are booked. -/
structure Booked (s : St F ι) (src : ι) (l : F.Look) (n : BitVec w) (q : F.Queue) : Prop where
  quiet : (s.ring src).stealer = (s.ring src).front
  le : n.toNat ≤ (s.ring src).tail - (s.ring src).front
  shows' : F.Shows q { s.ring src with front := (s.ring src).front + n.toNat }
  buffer : F.buffer q = F.buffer (s.queue src)
  first : F.first l = word w (s.ring src).front

lemma Inv.booked (h : Inv s₀ (.count src t start l itemCount) s) (htm : Timely w start (s.ring src))
    {want : ℕ} {n : BitVec w} {q : F.Queue} (hn : t.count want itemCount = n)
    (hc : F.cas l n (s.queue src) = some q) : Booked s src l n q := by
  obtain ⟨-, -, r, h1, h2, hr, hl, hcount, hh⟩ := h.known
  obtain ⟨ht1, ht2⟩ := htm
  have hq := h.ok.queue src
  have h3 := h1.pops
  have h4 := h1.stealer
  have h5 := h2.pops
  have h6 := h2.front
  have h7 := h2.stealer
  have h8 := h2.pushes
  have h9 := hr.stealer
  have h10 := hq.ok.stealer
  rw [← word_toNat n] at hc
  obtain ⟨e1, e2, hs, hb⟩ := F.cas_some _ hl hq.shows' hc
  have hp := (word_inj h5 (by omega)).mp e1
  have hf := (word_inj h6 (by omega)).mp e2
  have hrq : r.stealer = r.front := by
    rcases hh with hh | hh
    · have := (word_inj (by omega) (by omega)).mp hh.symm
      omega
    · exact ((word_inj h9 (by omega)).mp hh.symm).symm
  have hle : n.toNat ≤ r.tail - r.front := by
    have h11 := toNat_bookCount_le want t.maxCount itemCount
    have h12 := count_le hr
    have h13 := two_pow_lt hr.lt
    rw [show bookCount want t.maxCount itemCount = n from hn, hcount, toNat_word (by omega)] at h11
    exact h11
  refine ⟨by omega, ?_, hs, hb, ?_⟩
  · simp only [Ring.tail] at hle ⊢
    omega
  · rw [F.first_looked hl hrq, ← hf]

lemma Inv.drainEnd (h₀ : s₀.Ok) (h : Inv s₀ (.count src t start l itemCount) s) {n : BitVec w}
    {q : F.Queue} (hn : n ≠ 0#w) (hb : Booked s src l n q) :
    Inv s₀ .program ((s.book src n q).drainEnd src l n) := by
  have hq := h.ok.queue src
  have h0 : n.toNat ≠ 0 := fun e => hn (BitVec.eq_of_toNat_eq (by simpa using e))
  obtain ⟨hq', hh⟩ := hq.lend hb.quiet hb.le h0 hb.shows' hb.buffer
  rw [word_toNat, ← hb.first] at hq' hh
  refine h.returns h₀ (.of_queue h.ok src [] [] rfl rfl rfl hq' ⟨rfl, le_rfl,
    Nat.le_add_right _ _, le_rfl, le_rfl⟩ (fun _ => ?_) (List.append_nil _).symm
    (List.append_nil _).symm (by simpa [St.book] using hh)) trivial fun i _ => rfl
  rw [hb.buffer]
  refine ⟨.nil, fun _ _ _ => rfl, fun m h1 h2 => ?_⟩
  exact absurd h2 (not_lt.mpr h1)

end

/-! ### Steals -/

lemma cells_copy {buf buf' : List (Slot T)} {cap cap' lo lo' n : ℕ}
    (h : ∀ o < n, buf'[(lo' + o) % cap']? = buf[(lo + o) % cap]?) :
    cells buf' cap' lo' n = cells buf cap lo n := by
  refine List.ext_getElem (by simp) fun o h1 h2 => ?_
  simp only [length_cells] at h2
  simp only [cells, List.getElem_map, List.getElem_range', Nat.one_mul, itemAt]
  rw [h o h2]

/-- The queues when a steal has copied `t` items, and read the last one if it pops it: `n` items
have left the source, and `out` is what is popped. -/
structure Copied (s : St F ι) (src dst : ι) (n t D : ℕ) (out : List (Option T)) (q : F.Queue)
    (σ : ι → F.Queue) : Prop where
  source : F.Shows (σ src) { s.ring src with front := (s.ring src).front + n }
  dest : src ≠ dst → F.Shows (σ dst) (s.ring dst)
  other : ∀ j, j ≠ src → j ≠ dst → σ j = s.queue j
  len : ∀ j, (F.buffer (σ j)).length = (F.buffer (s.queue j)).length
  came : cells (F.buffer (σ dst)) (2 ^ (s.ring dst).k) D t ++ out =
    cells (F.buffer (s.queue src)) (2 ^ (s.ring src).k) (s.ring src).front n
  rest : ∀ i j, (i = src → ∀ o < n, ((s.ring src).front + o) % 2 ^ (s.ring src).k ≠ j) →
    (i = dst → ∀ o < t, (D + o) % 2 ^ (s.ring dst).k ≠ j) →
    (F.buffer (σ i))[j]? = (F.buffer (s.queue i))[j]?

omit [Fintype ι] in
lemma Copied.exists_dest {src dst : ι} {n t D : ℕ} {out : List (Option T)} {q : F.Queue}
    {σ : ι → F.Queue} (hc : Copied s src dst n t D out q σ) : ∃ rd, F.Shows (σ dst) rd ∧
      rd = if src = dst then { s.ring src with front := (s.ring src).front + n }
        else s.ring dst := by
  by_cases hx : src = dst
  · subst hx
    exact ⟨_, hc.source, (if_pos rfl).symm⟩
  · exact ⟨_, hc.dest hx, (if_neg hx).symm⟩

/-- The copy of a steal, from the booked positions to those from `D` on, which are free. -/
lemma St.Ok.copied (h : s.Ok) {andPop : Bool} {src dst : ι} {l : F.Look} {q : F.Queue}
    {n : BitVec w} {D t : ℕ} (kept : F.Kept) (hb : Booked s src l n q)
    (hn : t + andPop.toNat = n.toNat) (ht : F.tail kept = word w D)
    (h1 : (s.ring dst).tail ≤ D) (h2 : D + t ≤ (s.ring dst).stealer + 2 ^ (s.ring dst).k) :
    let p : F.Plan := ⟨kept, F.first l, n, word w t⟩
    ∃ σ, F.moveOut s.addr src dst p (Function.update s.queue src q) =
        (if s.Passes src dst kept l t then some σ else none) ∧
      let pos := p.first + p.transferCount
      let buf := (readAt (F.buffer (σ src)) (F.mask (σ src)) pos).2
      Copied s src dst n.toNat t D
        (if andPop then [item (F.buffer (σ src)) (F.mask (σ src)) pos] else []) q
        (if andPop then Function.update σ src (F.setBuffer buf (σ src)) else σ) := by
  intro p
  have hq := h.queue src
  have hq' := h.queue dst
  have h3 := hb.le
  have h4 := hb.quiet
  have h5 := count_le hq.ok
  have h6 := hq'.ok.stealer
  have h7 := hq'.ok.tail
  have hft : (s.ring src).front ≤ (s.ring src).tail := by
    have := hq.ok.tail
    rw [Ring.tail]
    omega
  have hst : (s.ring dst).stealer ≤ (s.ring dst).tail := by
    rw [Ring.tail]
    omega
  have hbuf : ∀ i, F.buffer (Function.update s.queue src q i) = F.buffer (s.queue i) := by
    intro i
    rw [Function.update_apply]
    split_ifs with hi
    · rw [hi, hb.buffer]
    · rfl
  have hs : F.Shows (Function.update s.queue src q src)
      { s.ring src with front := (s.ring src).front + n.toNat } := by
    rw [Function.update_self]
    exact hb.shows'
  obtain ⟨rd, hd, hrd⟩ : ∃ rd, F.Shows (Function.update s.queue src q dst) rd ∧
      rd.k = (s.ring dst).k := by
    by_cases hx : dst = src
    · subst hx
      exact ⟨_, hs, rfl⟩
    · exact ⟨s.ring dst, by rw [Function.update_of_ne hx]; exact hq'.shows', rfl⟩
  have hx : src = dst → (s.ring src).front + t ≤ D ∧
      D + t ≤ (s.ring src).front + 2 ^ (s.ring src).k := by
    rintro rfl
    omega
  obtain ⟨σ₁, e, hsh, ho, hlen, hcame, hrest⟩ := moveOut_slots s.addr (p := p)
    (S := (s.ring src).front) (D := D) (n := t) hs hd hq.ok.lt (by rw [hrd]; exact hq'.ok.lt)
    (by rw [hbuf]; exact hq.len) (by rw [hbuf, hrd]; exact hq'.len) hb.first ht rfl
    (by simp only; omega) (by rw [hrd]; omega) hx
  simp only [hbuf, hrd] at hlen hcame hrest
  have hpasses : Transfer.Passes s.addr src (F.mask (Function.update s.queue src q src)) p.first dst
      (F.mask (Function.update s.queue src q dst)) (F.tail p.kept) t ↔
        s.Passes src dst kept l t := by
    rw [St.Passes, F.mask_eq hs, F.mask_eq hd, hrd, F.mask_eq hq.shows', F.mask_eq hq'.shows']
  simp only [hpasses] at e
  have hs₁ := hsh src _ hs
  have hd₁ : src ≠ dst → F.Shows (σ₁ dst) (s.ring dst) := by
    intro hne
    refine hsh dst _ ?_
    rw [Function.update_of_ne (Ne.symm hne)]
    exact hq'.shows'
  have ho₁ : ∀ j, j ≠ src → j ≠ dst → σ₁ j = s.queue j := by
    intro j h8 h9
    rw [ho j h8 h9, Function.update_of_ne h8]
  refine ⟨σ₁, e, ?_⟩
  cases andPop with
  | false =>
    have htn : t = n.toNat := by simpa using hn
    refine ⟨hs₁, hd₁, ho₁, hlen, ?_, fun i j h8 h9 => ?_⟩
    · rw [← htn]
      simpa using cells_copy hcame
    · rw [← htn] at h8
      exact hrest i j h8 h9
  | true =>
    have htn : t + 1 = n.toNat := by simpa using hn
    have hlen₁ : (F.buffer (σ₁ src)).length = 2 ^ (s.ring src).k := by rw [hlen, hq.len]
    obtain ⟨sl, hset, -⟩ := readAt_word hq.ok.lt hlen₁ ((s.ring src).front + t)
    have hpos : p.first + p.transferCount = word w ((s.ring src).front + t) := by
      show F.first l + word w t = _
      rw [hb.first, word_add]
    have hlast : itemAt (F.buffer (σ₁ src)) (2 ^ (s.ring src).k) ((s.ring src).front + t) =
        itemAt (F.buffer (s.queue src)) (2 ^ (s.ring src).k) ((s.ring src).front + t) := by
      rw [itemAt, itemAt, hrest src _ (fun _ o ho e => ?_) fun hxe o ho e => ?_]
      · have := eq_of_mod_eq (s.ring src).front ⟨by omega, by omega⟩
          ⟨by omega, by omega⟩ e
        omega
      · subst hxe
        have := eq_of_mod_eq (s.ring src).front ⟨by omega, by omega⟩ ⟨by omega, by omega⟩ e
        omega
    simp only [hpos, F.mask_eq hs₁, hset, item_word hq.ok.lt, if_true]
    refine ⟨?_, fun hne => ?_, fun j h8 h9 => ?_, fun j => ?_, ?_, fun i j h8 h9 => ?_⟩
    · rw [Function.update_self]
      exact F.shows_setBuffer hs₁
    · rw [Function.update_of_ne (Ne.symm hne)]
      exact hd₁ hne
    · rw [Function.update_of_ne h8]
      exact ho₁ j h8 h9
    · rw [Function.update_apply]
      split_ifs with hj
      · rw [F.buffer_setBuffer, List.length_set, hlen, hj]
      · exact hlen j
    · rw [← htn, cells_add, cells_succ, cells_zero, ← hlast]
      refine congrArg (· ++ _) (cells_copy fun o ho => ?_)
      rw [← hcame o ho, Function.update_apply]
      split_ifs with hj
      · subst hj
        rw [F.buffer_setBuffer, getElem?_set_mod sl (s.ring dst).front ⟨by omega, by omega⟩
          ⟨by omega, by omega⟩ (by omega)]
      · rfl
    · rw [← hrest i j (fun hi o ho => h8 hi o (by omega)) h9, Function.update_apply]
      split_ifs with hi
      · subst hi
        rw [F.buffer_setBuffer, List.getElem?_set_ne (h8 rfl t (by omega))]
      · rfl

section
variable {src dst : ι} {l : F.Look} {q q' : F.Queue} {n : BitVec w} {m D t : ℕ}
  {out : List (Option T)} {σ σ' : ι → F.Queue} {kept : F.Kept} {dest : Ring}

omit [DecidableEq ι] [Fintype ι] in
/-- What a steal into another queue leaves of the slots of its source. -/
lemma Copied.source_slot (hc : Copied s src dst n.toNat t D out q σ) (hne : src ≠ dst)
    (h1 : (s.ring src).front + n.toNat ≤ m)
    (h2 : m < (s.ring src).front + 2 ^ (s.ring src).k) :
    (F.buffer (σ src))[m % 2 ^ (s.ring src).k]? =
      (F.buffer (s.queue src))[m % 2 ^ (s.ring src).k]? := by
  refine hc.rest src _ (fun _ o ho e => ?_) fun e => absurd e hne
  have := eq_of_mod_eq (s.ring src).front ⟨by omega, by omega⟩ ⟨by omega, by omega⟩ e
  omega

omit [DecidableEq ι] [Fintype ι] in
/-- What it leaves of the slots of its destination. -/
lemma Copied.dest_slot (hc : Copied s src dst n.toNat t D out q σ) (hne : src ≠ dst)
    (hD : D + t ≤ (s.ring dst).stealer + 2 ^ (s.ring dst).k) (h1 : (s.ring dst).stealer ≤ m)
    (h2 : m < (s.ring dst).stealer + 2 ^ (s.ring dst).k) (h3 : m < D ∨ t = 0) :
    (F.buffer (σ dst))[m % 2 ^ (s.ring dst).k]? =
      (F.buffer (s.queue dst))[m % 2 ^ (s.ring dst).k]? := by
  refine hc.rest dst _ (fun e => absurd e.symm hne) fun _ o ho e => ?_
  have := eq_of_mod_eq (s.ring dst).stealer ⟨by omega, by omega⟩ ⟨by omega, by omega⟩ e
  omega

omit [DecidableEq ι] [Fintype ι] in
/-- What a steal from a queue into itself leaves of its slots. -/
lemma Copied.self_slot (hc : Copied s src src n.toNat t D out q σ)
    (hD : D + t ≤ (s.ring src).front + 2 ^ (s.ring src).k)
    (h1 : (s.ring src).front + n.toNat ≤ m)
    (h2 : m < (s.ring src).front + 2 ^ (s.ring src).k) (h3 : m < D ∨ t = 0) :
    (F.buffer (σ src))[m % 2 ^ (s.ring src).k]? =
      (F.buffer (s.queue src))[m % 2 ^ (s.ring src).k]? := by
  refine hc.rest src _ (fun _ o ho e => ?_) fun _ o ho e => ?_
  · have := eq_of_mod_eq (s.ring src).front ⟨by omega, by omega⟩ ⟨by omega, by omega⟩ e
    omega
  · have := eq_of_mod_eq (s.ring src).front ⟨by omega, by omega⟩ ⟨by omega, by omega⟩ e
    omega

omit [DecidableEq ι] in
/-- The destination of a steal once it is published, wherever the items went. -/
lemma Copied.dest_ok (h : s.Ok) (hc : Copied s src dst n.toNat t D out q σ) (hne : src ≠ dst)
    (h1 : (s.ring dst).tail ≤ D) (h2 : D + t ≤ (s.ring dst).stealer + 2 ^ (s.ring dst).k)
    (hb : F.buffer q' = F.buffer (σ dst))
    (hs : F.Shows q' { s.ring dst with pushes := (s.ring dst).pushes + t }) :
    QueueOk q' { s.ring dst with pushes := (s.ring dst).pushes + t } (s.drains dst) ∧
      held q' (s.drains dst) = held (s.queue dst) (s.drains dst) +
        (cells (F.buffer (σ dst)) (2 ^ (s.ring dst).k) (s.ring dst).tail t : List (Option T)) := by
  have h3 := (h.queue dst).publish (n := t) (by omega) hs (by rw [hb, hc.len]) fun m h4 h5 => by
    rw [hb]
    exact hc.dest_slot hne h2 h4 (by omega) (.inl (by omega))
  rwa [hb] at h3

omit [DecidableEq ι] in
/-- A queue that has stolen from itself, wherever the items went. -/
lemma Copied.self_ok (h : s.Ok) (hb : Booked s src l n q)
    (hc : Copied s src src n.toNat t D out q σ) (h1 : (s.ring src).tail ≤ D)
    (h2 : D + t ≤ (s.ring src).stealer + 2 ^ (s.ring src).k)
    (hbuf : F.buffer q' = F.buffer (σ src))
    (hs : F.Shows q' { s.ring src with
      front := (s.ring src).front + n.toNat
      stealer := (s.ring src).front + n.toNat
      pushes := (s.ring src).pushes + t }) :
    QueueOk q' { s.ring src with
      front := (s.ring src).front + n.toNat
      stealer := (s.ring src).front + n.toNat
      pushes := (s.ring src).pushes + t } (s.drains src) ∧
      held q' (s.drains src) + (cells (F.buffer (s.queue src)) (2 ^ (s.ring src).k)
        (s.ring src).front n.toNat : List (Option T)) = held (s.queue src) (s.drains src) +
          (cells (F.buffer (σ src)) (2 ^ (s.ring src).k) (s.ring src).tail t :
            List (Option T)) := by
  have hq := h.queue src
  have hquiet := hb.quiet
  have hle := hb.le
  have h3 := hq.ok.tail
  have h4 := hq.ok.cap
  have hft : (s.ring src).front ≤ (s.ring src).tail := by
    rw [Ring.tail]
    omega
  have htc : (s.ring src).tail ≤ (s.ring src).front + 2 ^ (s.ring src).k := by
    rw [Ring.tail]
    omega
  -- the items leave the queue first, and then come to it
  obtain ⟨q₁, -, hs₁, hb₁⟩ := F.release_eq hc.source
  obtain ⟨hq₁, hh₁⟩ := hq.take hquiet hle hs₁ (by rw [hb₁, hc.len]) fun m h5 h6 => by
    rw [hb₁]
    exact hc.self_slot (by omega) h5 (by omega) (.inl (by omega))
  have htail : Ring.tail { s.ring src with
      front := (s.ring src).front + n.toNat
      stealer := (s.ring src).front + n.toNat } = (s.ring src).tail := rfl
  obtain ⟨hq', hh'⟩ := hq₁.publish (n := t) (by rw [htail]; simp only; omega) hs
    (by rw [hbuf, hb₁]) fun m _ _ => by rw [hbuf, hb₁]
  refine ⟨hq', ?_⟩
  rw [hh', ← hh₁, htail, hbuf]
  abel

/-- A steal into another queue. -/
lemma Inv.stolen (h : s.Ok) (hne : src ≠ dst) (hb : Booked s src l n q)
    (hc : Copied s src dst n.toNat t D out q σ) (hD : t = 0 ∨ (s.ring dst).tail = D)
    (h1 : (s.ring dst).tail ≤ D) (h2 : D + t ≤ (s.ring dst).stealer + 2 ^ (s.ring dst).k)
    (ho : ∀ i, i ≠ src → i ≠ dst → σ' i = σ i) (hbuf : ∀ i, F.buffer (σ' i) = F.buffer (σ i))
    (hs : F.Shows (σ' src) { s.ring src with
      front := (s.ring src).front + n.toNat
      stealer := (s.ring src).front + n.toNat })
    (hd : F.Shows (σ' dst) { s.ring dst with pushes := (s.ring dst).pushes + t })
    (eq : s'.queue = σ')
    (er : s'.ring = Function.update (Function.update s.ring dst
      { s.ring dst with pushes := (s.ring dst).pushes + t }) src { s.ring src with
        front := (s.ring src).front + n.toNat
        stealer := (s.ring src).front + n.toNat })
    (ed : s'.drains = s.drains) (ep : s'.pushed = s.pushed)
    (eo : s'.delivered = s.delivered ++ out) :
    Inv s .program s' := by
  have hqs := h.queue src
  have hqd := h.queue dst
  have hquiet := hb.quiet
  have hle := hb.le
  have h3 := hqs.ok.tail
  have h4 := hqs.ok.cap
  have h5 := hqd.ok.stealer
  have h6 := hqd.ok.tail
  have hft : (s.ring src).front ≤ (s.ring src).tail := by
    rw [Ring.tail]
    omega
  have htc : (s.ring src).tail ≤ (s.ring src).front + 2 ^ (s.ring src).k := by
    rw [Ring.tail]
    omega
  have hst : (s.ring dst).stealer ≤ (s.ring dst).tail := by
    rw [Ring.tail]
    omega
  obtain ⟨hqs', hhs⟩ := hqs.take hquiet hle hs (by rw [hbuf, hc.len]) fun m h7 h8 => by
    rw [hbuf]
    exact hc.source_slot hne h7 (by omega)
  obtain ⟨hqd', hhd⟩ := hc.dest_ok h hne h1 h2 (hbuf dst) hd
  -- what has come is what has left, but for the item that is popped
  have hcame : cells (F.buffer (σ dst)) (2 ^ (s.ring dst).k) (s.ring dst).tail t ++ out =
      cells (F.buffer (s.queue src)) (2 ^ (s.ring src).k) (s.ring src).front n.toNat := by
    rcases hD with rfl | hD
    · exact hc.came
    · rw [hD]
      exact hc.came
  have ers : s'.ring src = { s.ring src with
      front := (s.ring src).front + n.toNat
      stealer := (s.ring src).front + n.toNat } := by
    rw [er, Function.update_self]
  have erd : s'.ring dst = { s.ring dst with pushes := (s.ring dst).pushes + t } := by
    rw [er, Function.update_of_ne (Ne.symm hne), Function.update_self]
  have ero : ∀ i, i ≠ src → i ≠ dst → s'.ring i = s.ring i := by
    intro i h7 h8
    rw [er, Function.update_of_ne h7, Function.update_of_ne h8]
  have eqo : ∀ i, i ≠ src → i ≠ dst → s'.queue i = s.queue i := by
    intro i h7 h8
    rw [eq, ho i h7 h8, hc.other i h7 h8]
  refine .of_queues h [] out (fun i => ?_) (fun i => ?_) (fun i => ?_) (by simpa using ep) eo ?_
  · by_cases hi : i = src
    · subst hi
      rwa [eq, ers, ed]
    · by_cases hi' : i = dst
      · subst hi'
        rwa [eq, erd, ed]
      · rw [eqo i hi hi', ero i hi hi', ed]
        exact h.queue i
  · by_cases hi : i = src
    · subst hi
      rw [ers]
      exact ⟨rfl, by simp only; omega, Nat.le_add_right _ _, le_rfl, le_rfl⟩
    · by_cases hi' : i = dst
      · subst hi'
        rw [erd]
        exact ⟨rfl, le_rfl, le_rfl, Nat.le_add_right _ _, le_rfl⟩
      · rw [ero i hi hi']
        exact .refl _
  · by_cases hi : i = src
    · subst hi
      rw [eq, ers]
      refine fun _ => ⟨.nil, fun m h7 h8 => ?_, fun m h7 h8 => absurd h8 (not_lt.mpr h7)⟩
      rw [List.length_nil] at h7
      rw [hbuf]
      exact hc.source_slot hne (by omega) (by omega)
    · by_cases hi' : i = dst
      · subst hi'
        rw [eq, erd]
        intro hp
        have ht : t = 0 := by
          simp only at hp
          omega
        refine ⟨.nil, fun m h7 h8 => ?_, fun m h7 h8 => absurd h8 ?_⟩
        · rw [List.length_nil] at h7
          rw [hbuf]
          exact hc.dest_slot hne h2 (by omega) h8 (.inr ht)
        · simp only [Ring.tail] at h7 ⊢
          omega
      · rw [eqo i hi hi', ero i hi hi']
        exact fun _ => .refl _ _
  · -- first what left the source, then what came to the destination
    have hdst' : held (s'.queue dst) (s'.drains dst) = held (s.queue dst) (s.drains dst) +
        (cells (F.buffer (σ dst)) (2 ^ (s.ring dst).k) (s.ring dst).tail t : List (Option T)) := by
      rw [eq, ed]
      exact hhd
    have hsrc' : held (s'.queue src) (s'.drains src) +
        (cells (F.buffer (σ dst)) (2 ^ (s.ring dst).k) (s.ring dst).tail t ++ out :
          List (Option T)) = held (s.queue src) (s.drains src) := by
      rw [eq, ed, hcame]
      exact hhs
    have hother : ∀ i, i ≠ src → i ≠ dst →
        held (s'.queue i) (s'.drains i) = held (s.queue i) (s.drains i) := by
      intro i hi hi'
      rw [eqo i hi hi', ed]
    have hsum := Sums.sum_update₂ (f := fun i => held (s.queue i) (s.drains i))
      (g := fun i => held (s'.queue i) (s'.drains i)) (b := 0) (c := 0) hne hother
      (hsrc'.trans (add_zero _).symm) ((add_zero _).trans hdst')
    -- the copied items are in both
    rw [add_zero, zero_add, ← Multiset.coe_add, add_comm (_ : Multiset (Option T)) ↑out,
      ← add_assoc] at hsum
    exact (add_right_cancel hsum).trans (add_zero _).symm

/-- A steal from a queue into itself. -/
lemma Inv.selfStolen (h : s.Ok) (hb : Booked s src l n q)
    (hc : Copied s src src n.toNat t D out q σ) (hD : t = 0 ∨ (s.ring src).tail = D)
    (h1 : (s.ring src).tail ≤ D) (h2 : D + t ≤ (s.ring src).stealer + 2 ^ (s.ring src).k)
    (ho : ∀ i, i ≠ src → σ' i = σ i) (hbuf : F.buffer (σ' src) = F.buffer (σ src))
    (hs : F.Shows (σ' src) { s.ring src with
      front := (s.ring src).front + n.toNat
      stealer := (s.ring src).front + n.toNat
      pushes := (s.ring src).pushes + t })
    (eq : s'.queue = σ')
    (er : s'.ring = Function.update s.ring src { s.ring src with
      front := (s.ring src).front + n.toNat
      stealer := (s.ring src).front + n.toNat
      pushes := (s.ring src).pushes + t })
    (ed : s'.drains = s.drains) (ep : s'.pushed = s.pushed)
    (eo : s'.delivered = s.delivered ++ out) :
    Inv s .program s' := by
  have hq := h.queue src
  have hquiet := hb.quiet
  have hle := hb.le
  have h3 := hq.ok.tail
  have h4 := hq.ok.cap
  have hft : (s.ring src).front ≤ (s.ring src).tail := by
    rw [Ring.tail]
    omega
  obtain ⟨hq', hh'⟩ := hc.self_ok h hb h1 h2 hbuf hs
  have hcame : cells (F.buffer (σ src)) (2 ^ (s.ring src).k) (s.ring src).tail t ++ out =
      cells (F.buffer (s.queue src)) (2 ^ (s.ring src).k) (s.ring src).front n.toNat := by
    rcases hD with rfl | hD
    · exact hc.came
    · rw [hD]
      exact hc.came
  refine .of_queue h src [] out (q := σ' src) (funext fun i => ?_) er
    (ed.trans (Function.update_eq_self src s.drains).symm) hq'
    ⟨rfl, by simp only; omega, Nat.le_add_right _ _, Nat.le_add_right _ _, le_rfl⟩ (fun hp => ?_)
    (by simpa using ep) eo ?_
  · rw [eq, Function.update_apply]
    split_ifs with hi
    · rw [hi]
    · rw [ho i hi, hc.other i hi hi]
  · have ht : t = 0 := by
      simp only at hp
      omega
    refine ⟨.nil, fun m h5 h6 => ?_, fun m h5 h6 => absurd h6 (not_lt.mpr ?_)⟩
    · rw [List.length_nil] at h5
      rw [hbuf]
      exact hc.self_slot (by omega) (by omega) (by omega) (.inr ht)
    · simp only [Ring.tail] at h5 ⊢
      omega
  · rw [← hcame, ← Multiset.coe_add, add_left_comm, add_comm (held (s.queue src) _)] at hh'
    simpa using add_left_cancel hh'

omit [DecidableEq ι] in
/-- What a steal books fits where it goes. -/
lemma Taker.Opens.room (hw : 1 < w) (h₀ : s₀.Ok) {andPop : Bool} {free itemCount : BitVec w}
    {want : ℕ} (ho : (Taker.steal andPop dst kept dest free).Opens s₀)
    (hn : (Taker.steal andPop dst kept dest free : Taker F ι).count want itemCount = n)
    (h0 : n ≠ 0#w) : ∃ t, t + andPop.toNat = n.toNat ∧ n - BitVec.ofNat w andPop.toNat = word w t ∧
      (word w t).toNat = t ∧ dest.tail + t ≤ dest.stealer + 2 ^ dest.k ∧ word w t ≤ free := by
  obtain ⟨rfl, rfl, hf⟩ := ho
  have hq := h₀.queue dst
  have hm : andPop.toNat ≤ 1 := Bool.toNat_le andPop
  have hk := two_pow_succ_lt hw hq.ok.lt
  have h1 := hq.ok.stealer
  have h2 := hq.ok.tail
  have h3 := hq.ok.cap
  have hle : n.toNat ≤ 2 ^ (s₀.ring dst).k - ((s₀.ring dst).tail - (s₀.ring dst).stealer) +
      andPop.toNat := by
    have hmax : n.toNat ≤ (free + BitVec.ofNat w andPop.toNat).toNat := by
      rw [← hn, Taker.count, bookCount, BitVec.toNat_ofNat]
      exact (Nat.mod_le _ _).trans ((Nat.min_le_left _ _).trans (Nat.min_le_right _ _))
    rw [hf, word_free hq.shows' hq.ok, word_add, toNat_word (by omega)] at hmax
    exact hmax
  have hpos : n.toNat ≠ 0 := fun e => h0 (BitVec.eq_of_toNat_eq (by simpa using e))
  have ht : (word w (n.toNat - andPop.toNat)).toNat = n.toNat - andPop.toNat :=
    toNat_word (by omega)
  refine ⟨n.toNat - andPop.toNat, by omega, ?_, ht, ?_, ?_⟩
  · rw [← word_sub (by omega), word_toNat]
  · rw [Ring.tail] at hle ⊢
    omega
  · rw [hf, word_free hq.shows' hq.ok, BitVec.le_def, ht, toNat_word (by omega)]
    omega

lemma Inv.stealEnd (hw : 1 < w) (h₀ : s₀.Ok) {andPop : Bool} {free itemCount : BitVec w}
    {start : Ring} {want : ℕ}
    (h : Inv s₀ (.count src (.steal andPop dst kept dest free) start l itemCount) s)
    (hn : (Taker.steal andPop dst kept dest free : Taker F ι).count want itemCount = n)
    (h0 : n ≠ 0#w) (hb : Booked s src l n q)
    (hst : Still dest (s.ring dst) (n - BitVec.ofNat w andPop.toNat).toNat) :
    ∃ s', (s.book src n q).stealEnd andPop src dst kept dest free l n =
        (if s.Passes src dst kept l (n - BitVec.ofNat w andPop.toNat).toNat then some s'
          else none) ∧
      Inv s₀ .program s' := by
  have hopen := h.known.1
  obtain ⟨t, htn, htw, htt, hroom, hfree⟩ := hopen.room hw h₀ hn h0
  obtain ⟨rfl, rfl, -⟩ := hopen
  rw [htw, htt] at hst
  obtain ⟨hp, hpops⟩ := hst
  have hq₀ := h₀.queue dst
  have hle := h.le dst
  have h1 := hle.pops
  have h2 := hle.stealer
  have h3 := hle.k
  have hD : t = 0 ∨ (s.ring dst).tail = (s₀.ring dst).tail := by
    rcases hpops with hpops | ht
    · right
      rw [Ring.tail, Ring.tail, hp, hpops]
    · exact .inl ht
  have hD₁ : (s.ring dst).tail ≤ (s₀.ring dst).tail := by
    rw [Ring.tail, Ring.tail]
    omega
  have hD₂ : (s₀.ring dst).tail + t ≤ (s.ring dst).stealer + 2 ^ (s.ring dst).k := by
    rw [h3]
    omega
  have hquiet := hb.quiet
  obtain ⟨σ, e, hc⟩ := h.ok.copied (F.keep (s₀.queue dst)) hb htn
    (by rw [F.tail_eq hq₀.shows', word_tail hq₀.ok]) hD₁ hD₂
  have hfirst : F.first l = word w (s.ring src).stealer := by rw [hb.first, hquiet]
  have hfin : F.first l + n = word w ((s.ring src).front + n.toNat) := by
    rw [hb.first, ← word_add, word_toNat]
  obtain ⟨rd, hd, hrd⟩ := hc.exists_dest
  obtain ⟨σ', e', ho, hbuf, hne, heq⟩ := finish_spec (p := ⟨F.keep (s₀.queue dst), F.first l, n,
    word w t⟩) (n := t) hq₀.shows' hc.source hd rfl hfirst hfin rfl
  rw [← hp] at hne heq
  have hbook : (s.book src n q).queue = Function.update s.queue src q := rfl
  have haddr : (s.book src n q).addr = s.addr := rfl
  unfold St.stealEnd
  simp only [htw, htt]
  have hbind : ∀ {p : Prop} [Decidable p] (f : (ι → F.Queue) → Option (St F ι)),
      (if p then some σ else none).bind f = if p then f σ else none := by
    intro p _ f
    split_ifs <;> rfl
  rw [if_pos hfree, hbook, haddr, e, hbind, e']
  refine ⟨_, rfl, ?_⟩
  by_cases hx : src = dst
  · subst hx
    refine h.returns h₀ ?_ trivial fun i _ => rfl
    refine .selfStolen h.ok hb hc hD hD₁ hD₂ (fun i hi => ho i hi hi) (hbuf src) (heq rfl) rfl ?_
      rfl rfl rfl
    simp only [St.book, Function.update_self, Function.update_idem, hp]
  · refine h.returns h₀ ?_ trivial fun i _ => rfl
    rw [hrd, if_neg hx] at hne
    refine .stolen h.ok hx hb hc hD hD₁ hD₂ ho hbuf (hne hx).1 (hne hx).2 rfl ?_ rfl rfl rfl
    simp only [St.book, Function.update_of_ne (Ne.symm hx), Function.update_of_ne hx,
      Function.update_self, hp]
    rw [Function.update_comm hx, Function.update_idem]

end

/-! ### Whole runs -/

/-- What a calm call leaves. -/
lemma Completes.inv (hw : 1 < w) (h₀ : s₀.Ok) (h : Inv s₀ c s) {n : ℕ} (hx : Completes c s n s')
    (hc : Calm s n c) : Inv s₀ .program s' := by
  cases hx with
  | extend => exact h.extendEnd h₀ hc
  | drain want n hn h0 hcas => exact h.drainEnd h₀ h0 (h.booked hc hn hcas)
  | steal want n hn h0 hcas he =>
    obtain ⟨ht, hst⟩ := hc
    obtain ⟨s₁, e, h₁⟩ := h.stealEnd hw h₀ hn h0 (h.booked ht hn hcas) hst
    rw [he] at e
    split_ifs at e
    cases e
    exact h₁

/-- What the foreign code of a call has left so far. -/
theorem Run.inv (hw : 1 < w) {c₀ : Frame F ι} (r : Run c₀ s₀ c s) (ho : c₀.Opens s₀)
    (h₀ : s₀.Ok) : Inv s₀ c s := by
  induction r with
  | refl => exact ho.inv h₀
  | push _ i x ih => exact (ih ho h₀).trans h₀ (push_inv (ih ho h₀).ok i x)
  | pop _ i ih => exact (ih ho h₀).trans h₀ (pop_inv (ih ho h₀).ok i)
  | next _ i m h ih => exact (ih ho h₀).trans h₀ (next_inv (ih ho h₀).ok h)
  | item _ x h ih => exact (ih ho h₀).store h₀ x h
  | excess _ _ ih => exact (ih ho h₀).excess
  | retry _ _ _ h ih => exact (ih ho h₀).retry h
  | fail _ ho' _ hf ih ih' =>
    have h := ih ho h₀
    have h' := ih' ho' h.ok
    have hstep := h'.returns h.ok (.refl h'.ok)
    cases hf with
    | zero => exact h.trans h₀ (hstep trivial fun _ _ => rfl)
    | retry => exact h.trans h₀ (hstep trivial fun _ _ => rfl)
  | call _ ho' _ hx hc ih ih' =>
    have h := ih ho h₀
    exact h.trans h₀ (hx.inv hw h.ok (ih' ho' h.ok) hc)

end St3.Foreign
