import St3.Foreign
import Mathlib.Algebra.Order.BigOperators.Group.Finset
import Mathlib.Tactic.Abel

/-!
What foreign code leaves as it was.

Whatever is called, the words of a queue go on showing the positions of its ring, and the counts of
what was pushed and handed out add up. Where nothing is added to a queue its free slots stay as they
are, so that a call finds there what it has stored; and if it finds nothing else in its way, each
item is still there once.
-/

namespace St3.Foreign

open Words Slots Deque Transfer Alone Flavour

universe u

variable {w : ℕ} {T : Type u}

/-! ### Ranges of slots -/

/-- What the slots of `n` positions hold. -/
def cells (buf : List (Slot T)) (cap lo n : ℕ) : List (Option T) :=
  (List.range' lo n).map (itemAt buf cap)

section
variable {buf buf' : List (Slot T)} {cap lo m n k : ℕ} {xs : List T}

@[simp] lemma length_cells : (cells buf cap lo n).length = n := by
  simp [cells]

@[simp] lemma cells_zero : cells buf cap lo 0 = [] := rfl

lemma cells_succ : cells buf cap lo (n + 1) = itemAt buf cap lo :: cells buf cap (lo + 1) n := by
  rw [cells, List.range'_succ]
  rfl

lemma cells_add : cells buf cap lo (m + n) = cells buf cap lo m ++ cells buf cap (lo + m) n := by
  unfold cells
  rw [← List.map_append, List.range'_append_1]

lemma cells_congr (h : ∀ m, lo ≤ m → m < lo + n → buf'[m % cap]? = buf[m % cap]?) :
    cells buf' cap lo n = cells buf cap lo n := by
  refine List.map_congr_left fun m hm => ?_
  obtain ⟨h1, h2⟩ := List.mem_range'_1.mp hm
  rw [itemAt, itemAt, h m h1 h2]

/-- A change of one slot is seen at one position of a window. -/
lemma getElem?_set_mod {p : ℕ} (s : Slot T) (lo : ℕ) (hp : lo ≤ p ∧ p < lo + cap)
    (hm : lo ≤ m ∧ m < lo + cap) (hne : p ≠ m) :
    (buf.set (p % cap) s)[m % cap]? = buf[m % cap]? := by
  rw [List.getElem?_set_ne fun e => hne (eq_of_mod_eq lo hp hm e)]

lemma cells_set {p : ℕ} (s : Slot T) (h : lo + n ≤ p) (hlt : p < lo + cap) :
    cells (buf.set (p % cap) s) cap lo n = cells buf cap lo n :=
  cells_congr fun m h1 h2 => getElem?_set_mod s lo ⟨by omega, hlt⟩ ⟨h1, by omega⟩ (by omega)

lemma cells_set_before {p : ℕ} (s : Slot T) (h : p < lo) (hlt : lo + n ≤ p + cap) :
    cells (buf.set (p % cap) s) cap lo n = cells buf cap lo n :=
  cells_congr fun m h1 h2 => getElem?_set_mod s p ⟨le_rfl, by omega⟩ ⟨by omega, by omega⟩ (by omega)

lemma cells_of_seg (h : Seg buf cap lo xs) : cells buf cap lo xs.length = xs.map some := by
  refine List.ext_getElem (by simp) fun i h1 h2 => ?_
  simp only [List.length_map] at h2
  simp only [cells, List.getElem_map, List.getElem_range', Nat.one_mul]
  exact itemAt_eq_some.mpr (h i _ (List.getElem?_eq_getElem h2))

/-- The slot that is read is left without an item. -/
lemma readAt_word (hk : k < w) (hl : buf.length = 2 ^ k) (m : ℕ) : ∃ s : Slot T,
    (readAt buf (maskOf w k) (word w m)).2 = buf.set (m % 2 ^ k) s ∧ s.item? = none := by
  have hlt : m % 2 ^ k < buf.length := by
    rw [hl]
    exact Nat.mod_lt _ (Nat.two_pow_pos k)
  unfold readAt
  rw [slotIdx_word hk, List.getElem?_eq_getElem hlt, Option.getD_some]
  have hself : buf.set (m % 2 ^ k) buf[m % 2 ^ k] = buf := List.set_getElem_self hlt
  cases hs : buf[m % 2 ^ k] with
  | live x => exact ⟨_, rfl, rfl⟩
  | moved x => exact ⟨.moved x, by rw [← hself, hs, List.set_set], rfl⟩
  | uninit => exact ⟨.uninit, by rw [← hself, hs, List.set_set], rfl⟩

lemma item_word (hk : k < w) (m : ℕ) :
    item buf (maskOf w k) (word w m) = itemAt buf (2 ^ k) m := by
  rw [item, slotIdx_word hk, itemAt]

lemma itemAt_set_self {s : Slot T} (hl : buf.length = cap) (hc : 0 < cap) :
    itemAt (buf.set (m % cap) s) cap m = s.item? := by
  have hlt : m % cap < buf.length := by rw [hl]; exact Nat.mod_lt _ hc
  rw [itemAt, List.getElem?_set_self hlt]
  rfl

end

/-! ### The words of a queue and its `Drain` -/

variable {F : Owner w T} {ι : Type*}

/-- The `Drain` of a queue has the positions from `c` to `f` left. -/
structure Lent (F : Owner w T) (r : Ring) (ds : List (Drain w)) (c f : ℕ) : Prop where
  lo : r.stealer ≤ c
  le : c ≤ f
  hi : f ≤ r.front
  fin : c < f → F.tailPops = true → f = r.front
  eq : ds = if c = f then [] else [⟨word w r.stealer, word w c, word w f⟩]

structure QueueOk (q : F.Queue) (r : Ring) (ds : List (Drain w)) : Prop where
  shows' : F.Shows q r
  ok : r.Ok w
  len : (F.buffer q).length = 2 ^ r.k
  lent : ∃ c f, Lent F r ds c f

section
variable {q q' : F.Queue} {r r' : Ring} {ds : List (Drain w)} {c f n : ℕ}

lemma items_word (hm : F.mask q = maskOf w r.k) (hk : r.k < w) (m : ℕ) :
    items q (word w m) n = cells (F.buffer q) (2 ^ r.k) m n := by
  unfold items cells
  rw [List.range'_eq_map_range, List.map_map]
  refine List.map_congr_left fun j _ => ?_
  rw [hm, word_add, item_word hk, Function.comp_apply]

/-- How many items a queue has is in its words. -/
lemma card_held (q : F.Queue) (ds : List (Drain w)) : (held q ds).card =
    (ds.map fun d => (d.fin - d.current).toNat).sum + (available q).toNat := by
  simp [held, items, List.length_flatMap]

lemma available_words (hs : F.Shows q r) :
    available q = word w r.pushes - word w r.pops - word w r.front := by
  rw [available, F.tail_eq hs, F.front_eq hs]

lemma available_eq (hs : F.Shows q r) (h : r.Ok w) : available q = word w (r.tail - r.front) := by
  rw [available_words hs, word_count h]

lemma toNat_available (hs : F.Shows q r) (h : r.Ok w) :
    (available q).toNat = r.tail - r.front := by
  have h1 := count_le h
  have h2 := two_pow_lt h.lt
  rw [available_eq hs h, toNat_word (by omega)]

lemma Lent.held (h : Lent F r ds c f) (hs : F.Shows q r) (hr : r.Ok w) :
    held q ds = ↑(cells (F.buffer q) (2 ^ r.k) c (f - c) ++
      cells (F.buffer q) (2 ^ r.k) r.front (r.tail - r.front)) := by
  have h1 := h.lo
  have h2 := h.hi
  have h3 := h.le
  have h4 := hr.tail
  have h5 := hr.cap
  have h6 := two_pow_lt hr.lt
  rw [Foreign.held, toNat_available hs hr, F.front_eq hs, items_word (F.mask_eq hs) hr.lt, h.eq]
  split_ifs with he
  · rw [he, Nat.sub_self, cells_zero]
    rfl
  · simp only [List.flatMap_cons, List.flatMap_nil, List.append_nil]
    rw [word_sub h3, toNat_word (by omega), items_word (F.mask_eq hs) hr.lt]

end

/-- What is left of the free slots of a queue that nothing was added to, if the call has stored
`xs` there. -/
structure Undisturbed (xs : List T) (r r' : Ring) (buf buf' : List (Slot T)) : Prop where
  own : Seg buf' (2 ^ r.k) r.tail xs
  free : ∀ m, r.tail + xs.length ≤ m → m < r.stealer + 2 ^ r.k →
    buf'[m % 2 ^ r.k]? = buf[m % 2 ^ r.k]?
  gone : ∀ m, r'.tail ≤ m → m < r.tail → itemAt buf' (2 ^ r.k) m = none

section
variable {xs : List T} {r r' r'' : Ring} {buf buf' buf'' : List (Slot T)}

lemma Undisturbed.refl (r : Ring) (buf : List (Slot T)) : Undisturbed [] r r buf buf :=
  ⟨.nil, fun _ _ _ => rfl, fun m h1 h2 => by omega⟩

lemma Undisturbed.trans (h : Undisturbed xs r r' buf buf') (h' : Undisturbed [] r' r'' buf' buf'')
    (hr : r.Le r') (hok : r.Ok w) (hxs : r.tail + xs.length ≤ r.stealer + 2 ^ r.k)
    (hp : r'.pushes = r.pushes) : Undisturbed xs r r'' buf buf'' := by
  have h1 := hr.stealer
  have h2 := hr.pops
  have h3 := hok.stealer
  have h4 := hok.tail
  have ht : r'.tail ≤ r.tail := by
    simp only [Ring.tail]
    omega
  have hfree := h'.free
  have hgone := h'.gone
  rw [hr.k] at hfree hgone
  simp only [List.length_nil, Nat.add_zero] at hfree
  refine ⟨h.own.agree fun i hi => hfree _ (by omega) (by omega), fun m h5 h6 => ?_,
    fun m h5 h6 => ?_⟩
  · rw [hfree m (by omega) (by omega), h.free m h5 h6]
  · rcases Nat.lt_or_ge m r'.tail with hlt | hge
    · exact hgone m h5 hlt
    · rw [itemAt, hfree m hge (by omega)]
      exact h.gone m hge h6

end

/-! ### What holds in a run -/

variable [DecidableEq ι]

namespace Frame

/-- The items that an `extend` has stored in a queue. -/
def own (c : Frame F ι) (j : ι) : List T :=
  match c with
  | .extend i _ _ xs _ => if j = i then xs else []
  | _ => []

lemma own_extend {i j : ι} {kept : F.Kept} {start : Ring} {xs : List T} {full : Bool} :
    (extend i kept start xs full).own j = if j = i then xs else [] := rfl

/-- Nothing was added to the queue that an `extend` fills. -/
def Clean (s : St F ι) : Frame F ι → Prop
  | extend i _ start _ _ => (s.ring i).pushes = start.pushes
  | _ => True

/-- What a call knows that started at `s₀`. -/
def Known (s₀ s : St F ι) : Frame F ι → Prop
  | program => True
  | extend i kept start xs _ => kept = F.keep (s₀.queue i) ∧ start = s₀.ring i ∧
      start.tail + xs.length ≤ start.stealer + 2 ^ start.k
  | count src t start l itemCount => t.Opens s₀ ∧ start = s₀.ring src ∧ ∃ r : Ring,
      start.Le r ∧ r.Le (s.ring src) ∧ r.Ok w ∧ F.Looked l start r ∧
      itemCount = word w (r.tail - r.front) ∧
      (word w start.stealer = word w r.front ∨ word w r.stealer = word w r.front)

end Frame

section
variable [Fintype ι]

/-- The words of the queues, and the number of items there are. -/
structure St.Ok (s : St F ι) : Prop where
  queue : ∀ i, QueueOk (s.queue i) (s.ring i) (s.drains i)
  size : s.pushed.length = s.delivered.length + ∑ i, (held (s.queue i) (s.drains i)).card

structure Inv (s₀ : St F ι) (c : Frame F ι) (s : St F ι) : Prop where
  ok : s.Ok
  le : ∀ i, (s₀.ring i).Le (s.ring i)
  kept : ∀ i, (s.ring i).pushes = (s₀.ring i).pushes →
    Undisturbed (c.own i) (s₀.ring i) (s.ring i) (F.buffer (s₀.queue i)) (F.buffer (s.queue i))
  sound : s₀.Sound → c.Clean s → s.Sound
  known : c.Known s₀ s

variable {s₀ s s' : St F ι} {c : Frame F ι}

lemma Frame.Known.own_le (h : c.Known s₀ s) (h₀ : s₀.Ok) (i : ι) :
    (s₀.ring i).tail + (c.own i).length ≤ (s₀.ring i).stealer + 2 ^ (s₀.ring i).k := by
  have h1 := (h₀.queue i).ok.cap
  have hnil : (s₀.ring i).tail + ([] : List T).length ≤
      (s₀.ring i).stealer + 2 ^ (s₀.ring i).k := by
    have := Nat.two_pow_pos (s₀.ring i).k
    rw [Ring.tail, List.length_nil]
    omega
  cases c with
  | program => exact hnil
  | count => exact hnil
  | extend j kept start xs full =>
    obtain ⟨-, rfl, h⟩ := h
    rw [own_extend]
    split_ifs with hi
    · rw [hi]
      exact h
    · exact hnil

omit [DecidableEq ι] [Fintype ι] in
lemma Frame.Known.mono (h : c.Known s₀ s) (hr : ∀ i, (s.ring i).Le (s'.ring i)) :
    c.Known s₀ s' := by
  cases c with
  | program => trivial
  | extend => exact h
  | count src t start l itemCount =>
    obtain ⟨ho, hs, r, h1, h2, h3⟩ := h
    exact ⟨ho, hs, r, h1, h2.trans (hr src), h3⟩

/-- A call goes on after what its foreign code has done. -/
lemma Inv.trans (h₀ : s₀.Ok) (h : Inv s₀ c s) (h' : Inv s .program s') : Inv s₀ c s' := by
  refine ⟨h'.ok, fun i => (h.le i).trans (h'.le i), fun i hp => ?_, fun hs hc => ?_,
    h.known.mono h'.le⟩
  · have h1 := (h.le i).pushes
    have h2 := (h'.le i).pushes
    exact (h.kept i (by omega)).trans (h'.kept i (by omega)) (h.le i) (h₀.queue i).ok
      (h.known.own_le h₀ i) (by omega)
  · refine h'.sound (h.sound hs ?_) trivial
    cases c with
    | program => trivial
    | count => trivial
    | extend i kept start xs full =>
      obtain ⟨-, rfl, -⟩ := h.known
      have h1 := (h.le i).pushes
      have h2 := (h'.le i).pushes
      have h3 : (s'.ring i).pushes = (s₀.ring i).pushes := hc
      show (s.ring i).pushes = (s₀.ring i).pushes
      omega

/-- A call that has just started. -/
lemma Frame.Opens.inv (h : c.Opens s) (hs : s.Ok) : Inv s c s := by
  have hnil : ∀ i, Undisturbed [] (s.ring i) (s.ring i) (F.buffer (s.queue i))
      (F.buffer (s.queue i)) :=
    fun i => .refl _ _
  cases c with
  | program => exact ⟨hs, fun i => .refl _, fun i _ => hnil i, fun h _ => h, trivial⟩
  | extend i kept start xs full =>
    obtain ⟨rfl, rfl, rfl, rfl⟩ := h
    refine ⟨hs, fun i => .refl _, fun j _ => ?_, fun h _ => h, rfl, rfl, ?_⟩
    · rw [own_extend, ite_self]
      exact hnil j
    · have h1 := (hs.queue i).ok.cap
      have h2 := Nat.two_pow_pos (s.ring i).k
      rw [Ring.tail, List.length_nil]
      omega
  | count src t start l itemCount =>
    obtain ⟨ho, rfl, rfl, ht⟩ := h
    have hq := hs.queue src
    have hl := F.looked hq.shows'
    obtain ⟨rfl, hh⟩ := F.test_ok hl hq.shows' ht
    exact ⟨hs, fun i => .refl _, fun i _ => hnil i, fun h _ => h, ho, rfl, s.ring src, .refl _,
      .refl _, hq.ok, hl, word_count hq.ok, hh⟩

/-- What the foreign code has done, from what it makes of each queue. -/
lemma Inv.of_queues (h : s.Ok) (xs : List T) (out : List (Option T))
    (hq : ∀ i, QueueOk (s'.queue i) (s'.ring i) (s'.drains i))
    (hr : ∀ i, (s.ring i).Le (s'.ring i))
    (hk : ∀ i, (s'.ring i).pushes = (s.ring i).pushes →
      Undisturbed [] (s.ring i) (s'.ring i) (F.buffer (s.queue i)) (F.buffer (s'.queue i)))
    (hp : s'.pushed = s.pushed ++ xs) (hd : s'.delivered = s.delivered ++ out)
    (hsum : ∑ i, held (s'.queue i) (s'.drains i) + (out : Multiset (Option T)) =
      ∑ i, held (s.queue i) (s.drains i) +
        ((xs.map some : List (Option T)) : Multiset (Option T))) :
    Inv s .program s' := by
  refine ⟨⟨hq, ?_⟩, hr, hk, fun hs _ => ⟨fun i => ?_, ?_, ?_⟩, trivial⟩
  · have h1 := h.size
    have h2 := congrArg Multiset.card hsum
    simp only [Multiset.card_add, Multiset.coe_card, List.length_map, Multiset.card_sum] at h2
    rw [hp, hd, List.length_append, List.length_append]
    omega
  · have h1 := (hq i).shows'
    have h2 := (hq i).ok
    rw [BitVec.le_def, toNat_available h1 h2, toNat_capacity h1 h2]
    exact count_le h2
  · intro i hi
    have hin : none ∈ ∑ i, held (s.queue i) (s.drains i) +
        ((xs.map some : List (Option T)) : Multiset (Option T)) := by
      rw [← hsum, Multiset.mem_add, Multiset.mem_sum]
      exact .inl ⟨i, Finset.mem_univ i, hi⟩
    rw [Multiset.mem_add, Multiset.mem_sum] at hin
    rcases hin with ⟨j, -, hj⟩ | hx
    · exact hs.live j hj
    · simp at hx
  · have h1 := hs.once
    rw [hp, hd, List.map_append, ← Multiset.coe_add, ← Multiset.coe_add, h1, add_assoc, ← hsum]
    abel

end

end St3.Foreign
