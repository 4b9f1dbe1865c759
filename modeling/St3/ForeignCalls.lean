import St3.ForeignInv
import St3.Sums

/-!
What the calls that foreign code makes do to the queues.
-/

namespace St3.Foreign

open Words Slots Deque Transfer Alone Flavour

universe u

variable {w : ℕ} {T : Type u} {F : Owner w T} {ι : Type*} [DecidableEq ι]

variable [Fintype ι] {s₀ s s' : St F ι} {c : Frame F ι} {i : ι}

lemma Inv.of_queue (h : s.Ok) (i : ι) {q : F.Queue} {r : Ring} {ds : List (Drain w)} (xs : List T)
    (out : List (Option T)) (eq : s'.queue = Function.update s.queue i q)
    (er : s'.ring = Function.update s.ring i r) (ed : s'.drains = Function.update s.drains i ds)
    (hq : QueueOk q r ds) (hr : (s.ring i).Le r)
    (hk : r.pushes = (s.ring i).pushes →
      Undisturbed [] (s.ring i) r (F.buffer (s.queue i)) (F.buffer q))
    (hp : s'.pushed = s.pushed ++ xs) (hd : s'.delivered = s.delivered ++ out)
    (hh : held q ds + (out : Multiset (Option T)) =
      held (s.queue i) (s.drains i) + ((xs.map some : List (Option T)) : Multiset (Option T))) :
    Inv s .program s' := by
  refine .of_queues h xs out (fun j => ?_) (fun j => ?_) (fun j => ?_) hp hd
    (Sums.sum_update (i := i) (fun j hj => ?_) ?_)
  · by_cases hj : j = i
    · subst hj
      rwa [eq, er, ed, Function.update_self, Function.update_self, Function.update_self]
    · rw [eq, er, ed, Function.update_of_ne hj, Function.update_of_ne hj, Function.update_of_ne hj]
      exact h.queue j
  · by_cases hj : j = i
    · subst hj
      rwa [er, Function.update_self]
    · rw [er, Function.update_of_ne hj]
      exact .refl _
  · by_cases hj : j = i
    · subst hj
      rwa [eq, er, Function.update_self, Function.update_self]
    · rw [eq, er, Function.update_of_ne hj, Function.update_of_ne hj]
      exact fun _ => .refl _ _
  · rw [eq, ed, Function.update_of_ne hj, Function.update_of_ne hj]
  · rwa [eq, ed, Function.update_self, Function.update_self]

lemma Inv.refl (h : s.Ok) : Inv s .program s :=
  (show Frame.Opens s .program from trivial).inv h

/-! ### `push` and `pop` -/

lemma push_inv (h : s.Ok) (i : ι) (x : T) : Inv s .program (s.push i x) := by
  obtain ⟨hs, hr, hlen, c, f, hl⟩ := h.queue i
  have hk := two_pow_lt hr.lt
  have h1 := hr.stealer
  have h2 := hr.tail
  have h3 := hr.cap
  have h4 := Nat.two_pow_pos (s.ring i).k
  have hlc := hl.lo
  have hlf := hl.le
  have hlh := hl.hi
  have ht : F.tail (F.keep (s.queue i)) = word w (s.ring i).tail := by
    rw [F.tail_eq hs, word_tail hr]
  unfold St.push
  simp only
  split_ifs with hfull
  · exact .refl h
  · rw [ht, F.head_eq hs, word_sub (by rw [Ring.tail]; omega), F.mask_eq hs, BitVec.lt_def,
      toNat_maskOf hr.lt, toNat_word (by rw [Ring.tail]; omega)] at hfull
    have hroom : (s.ring i).tail < (s.ring i).stealer + 2 ^ (s.ring i).k := by
      rw [Ring.tail] at hfull ⊢
      omega
    rw [ht, F.mask_eq hs, writeAt_word hr.lt]
    have hs' := F.shows_publish 1 hs (F.shows_setBuffer
      (b := (F.buffer (s.queue i)).set ((s.ring i).tail % 2 ^ (s.ring i).k) (.live x)) hs)
    have hr' : Ring.Ok w { s.ring i with pushes := (s.ring i).pushes + 1 } :=
      ⟨hr.lt, hr.stealer, by simp only; omega, by simp only [Ring.tail] at hroom ⊢; omega⟩
    have hl' : Lent F { s.ring i with pushes := (s.ring i).pushes + 1 } (s.drains i) c f :=
      ⟨hl.lo, hl.le, hl.hi, hl.fin, hl.eq⟩
    refine .of_queue h i [x] [] rfl rfl (Function.update_eq_self i s.drains).symm
      ⟨hs', hr', ?_, c, f, hl'⟩ ⟨rfl, le_rfl, le_rfl, Nat.le_succ _, le_rfl⟩
      (fun hp => absurd hp (Nat.succ_ne_self _)) rfl (List.append_nil _).symm ?_
    · rw [F.buffer_publish, F.buffer_setBuffer, List.length_set, hlen]
    · have hn : (s.ring i).pushes + 1 - (s.ring i).pops - (s.ring i).front =
          (s.ring i).tail - (s.ring i).front + 1 := by
        rw [Ring.tail]
        omega
      have he : (s.ring i).front + ((s.ring i).tail - (s.ring i).front) = (s.ring i).tail := by
        rw [Ring.tail]
        omega
      rw [hl'.held hs' hr', hl.held hs hr, F.buffer_publish, F.buffer_setBuffer]
      simp only [Ring.tail] at hn he hroom ⊢
      rw [hn, cells_add, he, cells_set _ (by omega) (by omega), cells_set _ (by omega) (by omega),
        cells_succ, itemAt_set_self hlen h4]
      simp [← Multiset.coe_add, add_assoc]

/-- A slot that is read lies before the free slots. -/
lemma Undisturbed.read {r r' : Ring} {buf : List (Slot T)} {m : ℕ} (s : Slot T) (hr : r.Ok w)
    (hlen : buf.length = 2 ^ r.k) (hm : r.stealer ≤ m) (hlt : m < r.tail)
    (hs : r'.tail < r.tail → r'.tail = m ∧ m + 1 = r.tail ∧ s.item? = none) :
    Undisturbed [] r r' buf (buf.set (m % 2 ^ r.k) s) := by
  have h1 := hr.cap
  have h2 := Nat.two_pow_pos r.k
  rw [Ring.tail] at hlt
  refine ⟨.nil, fun n h3 h4 => ?_, fun n h3 h4 => ?_⟩
  · rw [List.length_nil, Nat.add_zero, Ring.tail] at h3
    exact getElem?_set_mod s r.stealer ⟨hm, by omega⟩ ⟨by omega, h4⟩ (by omega)
  · obtain ⟨h5, h6, h7⟩ := hs (by omega)
    obtain rfl : n = m := by omega
    rw [itemAt_set_self hlen h2, h7]

lemma Ring.pop_k (b : Bool) (r : Ring) : (r.pop b).k = r.k := by
  unfold Ring.pop
  split_ifs <;> rfl

/-- A pop at the tail. -/
lemma pop_tail {q q' : F.Queue} {r : Ring} {ds : List (Drain w)} (h : QueueOk q r ds)
    (hne : r.tail ≠ r.front) (hs : F.Shows q' (r.pop true)) (sl : Slot T) (hsl : sl.item? = none) :
    let q₁ := F.setBuffer ((F.buffer q).set (r.popPos true % 2 ^ r.k) sl) q'
    QueueOk q₁ (r.pop true) ds ∧ r.Le (r.pop true) ∧
      Undisturbed [] r (r.pop true) (F.buffer q) (F.buffer q₁) ∧
      held q₁ ds + {itemAt (F.buffer q) (2 ^ r.k) (r.popPos true)} = held q ds := by
  intro q₁
  obtain ⟨hs₀, hr, hlen, c, f, hl⟩ := h
  have h1 := hr.stealer
  have h2 := hr.tail
  have h3 := hr.cap
  have hlc := hl.lo
  have hlf := hl.le
  have hlh := hl.hi
  have hft : r.front < r.tail := by
    rw [Ring.tail] at hne ⊢
    omega
  have htc : r.tail ≤ r.stealer + 2 ^ r.k := by
    rw [Ring.tail] at hft ⊢
    omega
  have hk : (r.pop true).k = r.k := rfl
  have hf : (r.pop true).front = r.front := rfl
  have hp : r.popPos true = r.tail - 1 := rfl
  have ht : (r.pop true).tail = r.tail - 1 := by
    simp only [Ring.pop, Ring.tail, if_true]
    omega
  have hr' : (r.pop true).Ok w := by
    rw [Ring.tail] at hft
    refine ⟨hr.lt, hr.stealer, ?_, ?_⟩ <;> simp only [Ring.pop, if_true] <;> omega
  have hl' : Lent F (r.pop true) ds c f := ⟨hl.lo, hl.le, hl.hi, hl.fin, hl.eq⟩
  have hs' : F.Shows q₁ (r.pop true) := F.shows_setBuffer hs
  refine ⟨⟨hs', hr', ?_, c, f, hl'⟩, ⟨rfl, le_rfl, le_rfl, le_rfl, Nat.le_succ _⟩, ?_, ?_⟩
  · rw [F.buffer_setBuffer, List.length_set, hlen, hk]
  · rw [F.buffer_setBuffer, hp]
    exact .read sl hr hlen (by omega) (by omega) fun _ => ⟨ht, by omega, hsl⟩
  · have hn : r.tail - r.front = r.tail - 1 - r.front + 1 := by omega
    have hm : r.front + (r.tail - 1 - r.front) = r.tail - 1 := by omega
    rw [hl'.held hs' hr', hl.held hs₀ hr, F.buffer_setBuffer, ht, hk, hf, hn, cells_add, hm,
      cells_succ, cells_zero, hp, cells_set _ (by omega) (by omega),
      cells_set _ (by omega) (by omega)]
    simp [← Multiset.coe_add, add_assoc]

/-- A pop at the head. -/
lemma pop_head {q q' : F.Queue} {r : Ring} {ds : List (Drain w)} (h : QueueOk q r ds)
    (htp : F.tailPops = false) (hne : r.tail ≠ r.front) (hs : F.Shows q' (r.pop false))
    (sl : Slot T) :
    let q₁ := F.setBuffer ((F.buffer q).set (r.popPos false % 2 ^ r.k) sl) q'
    QueueOk q₁ (r.pop false) ds ∧ r.Le (r.pop false) ∧
      Undisturbed [] r (r.pop false) (F.buffer q) (F.buffer q₁) ∧
      held q₁ ds + {itemAt (F.buffer q) (2 ^ r.k) (r.popPos false)} = held q ds := by
  intro q₁
  obtain ⟨hs₀, hr, hlen, c, f, hl⟩ := h
  have h1 := hr.stealer
  have h2 := hr.tail
  have h3 := hr.cap
  have hlc := hl.lo
  have hlf := hl.le
  have hlh := hl.hi
  have hft : r.front < r.tail := by
    rw [Ring.tail] at hne ⊢
    omega
  have htc : r.tail ≤ r.stealer + 2 ^ r.k := by
    rw [Ring.tail] at hft ⊢
    omega
  have hk : (r.pop false).k = r.k := rfl
  have hf : (r.pop false).front = r.front + 1 := rfl
  have hp : r.popPos false = r.front := rfl
  have ht : (r.pop false).tail = r.tail := rfl
  have hst : (r.pop false).stealer = if r.stealer = r.front then r.front + 1 else r.stealer := rfl
  have hr' : (r.pop false).Ok w := by
    rw [Ring.tail] at hft
    refine ⟨hr.lt, ?_, ?_, ?_⟩
    · rw [hst, hf]
      split_ifs <;> omega
    · show r.front + 1 + r.pops ≤ r.pushes
      omega
    · show r.pushes ≤ (r.pop false).stealer + 2 ^ r.k + r.pops
      rw [hst]
      split_ifs <;> omega
  have hle : r.stealer ≤ (r.pop false).stealer := by
    rw [hst]
    split_ifs <;> omega
  -- a queue that was not booked has no `Drain`, and both heads move
  obtain ⟨c', f', hl', he⟩ : ∃ c' f', Lent F (r.pop false) ds c' f' ∧
      ∀ buf, cells buf (2 ^ r.k) c' (f' - c') = cells buf (2 ^ r.k) c (f - c) := by
    by_cases hq : r.stealer = r.front
    · have hcf : c = f := by omega
      refine ⟨r.front + 1, r.front + 1, ⟨?_, le_rfl, le_rfl, fun h => absurd h (lt_irrefl _), ?_⟩,
        fun buf => ?_⟩
      · rw [hst, if_pos hq]
      · rw [hl.eq, if_pos hcf, if_pos rfl]
      · rw [hcf, Nat.sub_self, Nat.sub_self]
        rfl
    · refine ⟨c, f, ⟨?_, hl.le, ?_, fun _ h => ?_, ?_⟩, fun buf => rfl⟩
      · rw [hst, if_neg hq]
        exact hl.lo
      · rw [hf]
        omega
      · rw [htp] at h
        cases h
      · rw [hst, if_neg hq]
        exact hl.eq
  have hs' : F.Shows q₁ (r.pop false) := F.shows_setBuffer hs
  refine ⟨⟨hs', hr', ?_, c', f', hl'⟩, ⟨rfl, hle, Nat.le_succ _, le_rfl, le_rfl⟩, ?_, ?_⟩
  · rw [F.buffer_setBuffer, List.length_set, hlen, hk]
  · rw [F.buffer_setBuffer, hp]
    exact .read sl hr hlen (by omega) (by omega) fun h => absurd h (lt_irrefl _)
  · have hn : r.tail - r.front = r.tail - (r.front + 1) + 1 := by omega
    rw [hl'.held hs' hr', hl.held hs₀ hr, F.buffer_setBuffer, ht, hk, hf, hn, cells_succ, he, hp,
      cells_set _ (by omega) (by omega), cells_set_before _ (by omega) (by omega)]
    simp only [← Multiset.coe_add, ← Multiset.cons_coe, ← Multiset.singleton_add]
    abel

lemma pop_queue {q q' : F.Queue} {r : Ring} {ds : List (Drain w)} {b : Bool} (h : QueueOk q r ds)
    (hb : F.tailPops = b) (hne : r.tail ≠ r.front) (hs : F.Shows q' (r.pop b)) (sl : Slot T)
    (hsl : sl.item? = none) :
    let q₁ := F.setBuffer ((F.buffer q).set (r.popPos b % 2 ^ r.k) sl) q'
    QueueOk q₁ (r.pop b) ds ∧ r.Le (r.pop b) ∧
      Undisturbed [] r (r.pop b) (F.buffer q) (F.buffer q₁) ∧
      held q₁ ds + {itemAt (F.buffer q) (2 ^ r.k) (r.popPos b)} = held q ds := by
  cases b with
  | true => exact pop_tail h hne hs sl hsl
  | false => exact pop_head h hb hne hs sl

lemma pop_inv (h : s.Ok) (i : ι) : Inv s .program (s.pop i) := by
  have hq := h.queue i
  unfold St.pop
  by_cases hne : (s.ring i).tail = (s.ring i).front
  · rw [F.claim_none hq.shows' hq.ok hne]
    exact .refl h
  · obtain ⟨q, e, hs, hb⟩ := F.claim_some hq.shows' hq.ok hne
    obtain ⟨sl, hset, hsl⟩ := readAt_word hq.ok.lt hq.len ((s.ring i).popPos F.tailPops)
    rw [e]
    simp only [hb, F.mask_eq hs, Ring.pop_k, hset, item_word hq.ok.lt]
    obtain ⟨h1, h2, h3, h4⟩ := pop_queue hq rfl hne hs sl hsl
    exact .of_queue h i [] _ rfl rfl (Function.update_eq_self i s.drains).symm h1 h2
      (fun _ => h3) (List.append_nil _).symm rfl (by simpa using h4)

/-! ### `next` on a `Drain` -/

/-- A queue has one `Drain` with items left at most. -/
lemma Lent.of_getElem {r : Ring} {ds : List (Drain w)} {c f m : ℕ} {d : Drain w}
    (h : Lent F r ds c f) (hd : ds[m]? = some d) :
    m = 0 ∧ c < f ∧ ds = [d] ∧ d = ⟨word w r.stealer, word w c, word w f⟩ := by
  have h1 := h.le
  have h2 := h.eq
  split_ifs at h2 with he
  · rw [h2] at hd
    cases hd
  · rw [h2] at hd
    cases m with
    | zero =>
      cases hd
      exact ⟨rfl, by omega, h2, rfl⟩
    | succ m => cases hd

lemma next_inv (h : s.Ok) {m : ℕ} (hn : s.next i m = some s') : Inv s .program s' := by
  obtain ⟨hs, hr, hlen, c, f, hl⟩ := h.queue i
  unfold St.next at hn
  cases hd : (s.drains i)[m]? with
  | none =>
    rw [hd] at hn
    cases hn
    exact .refl h
  | some d =>
    obtain ⟨rfl, hcf, hds, rfl⟩ := hl.of_getElem hd
    have h1 := hr.stealer
    have h2 := hr.tail
    have h3 := hr.cap
    have h4 := two_pow_lt hr.lt
    have hlc := hl.lo
    have hlh := hl.hi
    obtain ⟨sl, hset, -⟩ := readAt_word hr.lt hlen c
    have hfin : word w (c + 1) = word w f ↔ c + 1 = f := by
      rw [eq_comm, word_inj hcf (by omega), eq_comm]
    have hct : c < (s.ring i).tail := by
      rw [Ring.tail]
      omega
    have htc : (s.ring i).tail ≤ (s.ring i).stealer + 2 ^ (s.ring i).k := by
      rw [Ring.tail]
      omega
    have hs₁ := F.shows_setBuffer
      (b := (F.buffer (s.queue i)).set (c % 2 ^ (s.ring i).k) sl) hs
    have hcells : cells (F.buffer (s.queue i)) (2 ^ (s.ring i).k) c (f - c) =
        itemAt (F.buffer (s.queue i)) (2 ^ (s.ring i).k) c ::
          cells (F.buffer (s.queue i)) (2 ^ (s.ring i).k) (c + 1) (f - (c + 1)) := by
      rw [← cells_succ, show f - (c + 1) + 1 = f - c by omega]
    rw [hd] at hn
    simp only [F.mask_eq hs, hset, item_word hr.lt, word_add_one, hfin] at hn
    split_ifs at hn with he
    · obtain ⟨q, e, hs', hb⟩ := F.release_at f hs₁ fun ht => hl.fin hcf ht
      rw [e] at hn
      cases hn
      have hr' : Ring.Ok w { s.ring i with stealer := (s.ring i).front } :=
        ⟨hr.lt, le_rfl, h2, by simp only; omega⟩
      have hl' : Lent F { s.ring i with stealer := (s.ring i).front } [] (s.ring i).front
          (s.ring i).front := ⟨le_rfl, le_rfl, le_rfl, fun h => absurd h (lt_irrefl _),
        (if_pos rfl).symm⟩
      have hdrop : (s.drains i).eraseIdx 0 = [] := by rw [hds]; rfl
      refine .of_queue h i [] _ rfl rfl (by rw [hdrop]) ⟨hs', hr', ?_, _, _, hl'⟩
        ⟨rfl, h1, le_rfl, le_rfl, le_rfl⟩ (fun _ => ?_) (List.append_nil _).symm rfl ?_
      · rw [hb, F.buffer_setBuffer, List.length_set, hlen]
      · rw [hb, F.buffer_setBuffer]
        exact .read sl hr hlen hlc hct fun h => absurd h (lt_irrefl _)
      · have ht : Ring.tail { s.ring i with stealer := (s.ring i).front } = (s.ring i).tail := rfl
        rw [hl'.held hs' hr', hl.held hs hr, hb, F.buffer_setBuffer, hcells, Nat.sub_self, he,
          Nat.sub_self, ht]
        simp only [cells_zero, List.nil_append]
        rw [cells_set_before _ (by omega) (by omega)]
        simp only [← Multiset.coe_add, ← Multiset.cons_coe, ← Multiset.singleton_add]
        simp only [Multiset.coe_nil, add_zero, List.map_nil]
        abel
    · cases hn
      have hl' : Lent F (s.ring i) [⟨word w (s.ring i).stealer, word w (c + 1), word w f⟩]
          (c + 1) f :=
        ⟨by omega, hcf, hlh, fun _ => hl.fin hcf, (if_neg he).symm⟩
      have hmove : (s.drains i).set 0 ⟨word w (s.ring i).stealer, word w (c + 1), word w f⟩ =
          [⟨word w (s.ring i).stealer, word w (c + 1), word w f⟩] := by rw [hds]; rfl
      refine .of_queue h i [] _ rfl (Function.update_eq_self i s.ring).symm (by rw [hmove])
        ⟨hs₁, hr, ?_, _, _, hl'⟩ (.refl _) (fun _ => ?_) (List.append_nil _).symm rfl ?_
      · rw [F.buffer_setBuffer, List.length_set, hlen]
      · rw [F.buffer_setBuffer]
        exact .read sl hr hlen hlc hct fun h => absurd h (lt_irrefl _)
      · rw [hl'.held hs₁ hr, hl.held hs hr, F.buffer_setBuffer, hcells,
          cells_set_before _ (by omega) (by omega), cells_set_before _ (by omega) (by omega)]
        simp only [← Multiset.coe_add, ← Multiset.cons_coe, ← Multiset.singleton_add]
        simp only [Multiset.coe_nil, add_zero, List.map_nil]
        abel

/-! ### The items that `extend` stores -/

section
variable {q : F.Queue} {r : Ring} {ds : List (Drain w)}

lemma QueueOk.setBuffer {buf : List (Slot T)} (h : QueueOk q r ds)
    (hl : buf.length = (F.buffer q).length) : QueueOk (F.setBuffer buf q) r ds :=
  ⟨F.shows_setBuffer h.shows', h.ok, by rw [F.buffer_setBuffer, hl, h.len], h.lent⟩

/-- A free slot is none of those that the queue has items in. -/
lemma held_setBuffer (h : QueueOk q r ds) (sl : Slot T) {m : ℕ} (h1 : r.tail ≤ m)
    (h2 : m < r.stealer + 2 ^ r.k) :
    held (F.setBuffer ((F.buffer q).set (m % 2 ^ r.k) sl) q) ds = held q ds := by
  have h3 := h.ok.stealer
  have h4 := h.ok.tail
  obtain ⟨c, f, hl⟩ := h.lent
  have h5 := hl.lo
  have h6 := hl.le
  have h7 := hl.hi
  rw [hl.held (F.shows_setBuffer h.shows') h.ok, hl.held h.shows' h.ok, F.buffer_setBuffer]
  rw [Ring.tail] at h1 ⊢
  rw [cells_set _ (by omega) (by omega), cells_set _ (by omega) (by omega)]

end

omit [Fintype ι] in
lemma St.store_queue (pos : BitVec w) (x : T) (s : St F ι) (j : ι) : (s.store i pos x).queue j =
    if j = i then
      F.setBuffer (writeAt (F.buffer (s.queue i)) (F.mask (s.queue i)) pos x) (s.queue i)
    else s.queue j := by
  unfold St.store
  simp only [Function.update_apply]

lemma Inv.store {kept : F.Kept} {start : Ring} {xs : List T} (h₀ : s₀.Ok)
    (h : Inv s₀ (.extend i kept start xs false) s) (x : T)
    (hne : F.tail kept + word w xs.length ≠ F.head kept + F.capacity (s.queue i)) :
    Inv s₀ (.extend i kept start (xs ++ [x]) false)
      (s.store i (F.tail kept + word w xs.length) x) := by
  obtain ⟨rfl, rfl, hxs⟩ := h.known
  have hq₀ := h₀.queue i
  have hq := h.ok.queue i
  have hle := h.le i
  have hk := hle.k
  have h1 := hle.stealer
  have h2 := hle.pops
  have h3 := hq.ok.stealer
  have h4 := hq.ok.tail
  have h5 := hle.front
  have hlt := two_pow_lt hq₀.ok.lt
  have ht : F.tail (F.keep (s₀.queue i)) + word w xs.length =
      word w ((s₀.ring i).tail + xs.length) := by
    rw [F.tail_eq hq₀.shows', word_tail hq₀.ok, word_add]
  have hroom : (s₀.ring i).tail + xs.length < (s₀.ring i).stealer + 2 ^ (s₀.ring i).k := by
    refine lt_of_le_of_ne hxs fun e => hne ?_
    rw [ht, F.head_eq hq₀.shows', capacity, F.mask_eq hq.shows', maskOf_add_one, hk, word_add, e]
  have htr₀ : (s₀.ring i).stealer ≤ (s₀.ring i).tail := by
    have := hq₀.ok.stealer
    have := hq₀.ok.tail
    rw [Ring.tail]
    omega
  have hbuf : F.buffer ((s.store i (F.tail (F.keep (s₀.queue i)) + word w xs.length) x).queue i) =
      (F.buffer (s.queue i)).set (((s₀.ring i).tail + xs.length) % 2 ^ (s₀.ring i).k)
        (.live x) := by
    rw [St.store_queue, if_pos rfl, F.buffer_setBuffer, F.mask_eq hq.shows', hk, ht,
      writeAt_word hq₀.ok.lt]
  have hlen : (F.buffer (s.queue i)).length = 2 ^ (s₀.ring i).k := by rw [hq.len, hk]
  have hother : ∀ j, j ≠ i →
      (s.store i (F.tail (F.keep (s₀.queue i)) + word w xs.length) x).queue j = s.queue j :=
    fun j hj => by rw [St.store_queue, if_neg hj]
  have hqs : ∀ j, QueueOk ((s.store i (F.tail (F.keep (s₀.queue i)) + word w xs.length) x).queue j)
      (s.ring j) (s.drains j) := by
    intro j
    rw [St.store_queue]
    split_ifs with hj
    · subst hj
      exact hq.setBuffer (by rw [writeAt, List.length_set])
    · exact h.ok.queue j
  refine ⟨⟨hqs, ?_⟩, h.le, fun j hp => ?_, fun hs hc => ?_, rfl, rfl, ?_⟩
  · refine h.ok.size.trans (congrArg _ (Finset.sum_congr rfl fun j _ => ?_))
    have h6 := h.ok.queue j
    rw [card_held, card_held, toNat_available h6.shows' h6.ok, toNat_available (hqs j).shows' h6.ok]
    rfl
  · have hkept := h.kept j hp
    rw [Frame.own_extend] at hkept ⊢
    by_cases hj : j = i
    · subst hj
      rw [if_pos rfl] at hkept ⊢
      rw [hbuf]
      refine ⟨hkept.own.snoc x hlen (by omega), fun m h6 h7 => ?_, fun m h6 h7 => ?_⟩
      · rw [List.length_append, List.length_singleton] at h6
        rw [getElem?_set_mod _ (s₀.ring j).stealer ⟨by omega, hroom⟩ ⟨by omega, h7⟩ (by omega)]
        exact hkept.free m (by omega) h7
      · have h8 : (s.ring j).tail ≤ m := h6
        rw [Ring.tail] at h8
        rw [itemAt, getElem?_set_mod _ (s₀.ring j).stealer ⟨by omega, hroom⟩ ⟨by omega, by omega⟩
          (by omega)]
        exact hkept.gone m h6 h7
    · rw [if_neg hj] at hkept ⊢
      rw [hother j hj]
      exact hkept
  · have hp : (s.ring i).pushes = (s₀.ring i).pushes := hc
    have hsound := h.sound hs hp
    have htail : (s.ring i).tail ≤ (s₀.ring i).tail := by
      rw [Ring.tail, Ring.tail]
      omega
    have hheld : ∀ j, held ((s.store i (F.tail (F.keep (s₀.queue i)) + word w xs.length) x).queue j)
        (s.drains j) = held (s.queue j) (s.drains j) := by
      intro j
      rw [St.store_queue]
      split_ifs with hj
      · subst hj
        rw [F.mask_eq hq.shows', ht, writeAt_word hq.ok.lt]
        refine held_setBuffer hq _ (by omega) ?_
        rw [hk]
        omega
      · rfl
    refine ⟨fun j => ?_, fun j => ?_, ?_⟩
    · have h6 := (hqs j).shows'
      have h7 := (h.ok.queue j).ok
      rw [BitVec.le_def, toNat_available h6 h7, toNat_capacity h6 h7]
      exact count_le h7
    · show none ∉ held _ (s.drains j)
      rw [hheld]
      exact hsound.live j
    · refine hsound.once.trans (congrArg _ (Finset.sum_congr rfl fun j _ => ?_))
      exact (hheld j).symm
  · rw [List.length_append, List.length_singleton]
    omega

end St3.Foreign
