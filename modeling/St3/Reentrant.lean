import St3.ForeignReturns
import Mathlib.Data.BitVec
import Mathlib.Tactic.LinearCombination

/-!
When `extend` and the steals put up with the foreign code that they run.

Both keep the tail of the queue they fill from before the foreign code runs and store a position
computed from it after. So they are right just when nothing is added to that queue meanwhile and,
if they add an item, none is popped at its tail.
-/

namespace St3.Foreign

open Words Slots Deque Transfer Alone Flavour

universe u

variable {w : ℕ} {T : Type u} {F : Owner w T} {ι : Type*} [DecidableEq ι] [Fintype ι]
  {s s' s'' : St F ι} {i : ι}

/-! ### Counting -/

/-- Each item that was pushed was handed out or is still in a queue, once. -/
def St.Once (s : St F ι) : Prop :=
  ((s.pushed.map some : List (Option T)) : Multiset (Option T)) =
    s.delivered + ∑ i, held (s.queue i) (s.drains i)

omit [DecidableEq ι] in
lemma St.Once.size (h : s.Once) :
    s.pushed.length = s.delivered.length + ∑ i, (held (s.queue i) (s.drains i)).card := by
  have := congrArg Multiset.card h
  simpa [Multiset.card_sum] using this

omit [DecidableEq ι] in
lemma St.Once.none_notMem (h : s.Once) (i : ι) : none ∉ held (s.queue i) (s.drains i) := by
  intro hi
  have hn : none ∈ (s.delivered : Multiset (Option T)) + ∑ i, held (s.queue i) (s.drains i) :=
    Multiset.mem_add.mpr (.inr (Multiset.mem_sum.mpr ⟨i, Finset.mem_univ i, hi⟩))
  rw [← show _ = _ from h] at hn
  simp at hn

/-- The position that is stored comes out right only where nothing was added to the queue. -/
lemma pushes_eq {p p' t n : ℕ} {a b : BitVec w} (hle : p ≤ p') (hlt : p' < p + 2 ^ w)
    (h : (word w (p + t) - a - (b + word w n)).toNat + n = (word w p' - a - b).toNat + t) :
    p' = p := by
  have h' : word w (p + t) - a - (b + word w n) + word w n = word w p' - a - b + word w t := by
    refine BitVec.eq_of_toNat_eq ?_
    have := congrArg (· % 2 ^ w) h
    simpa [BitVec.toNat_add, BitVec.toNat_ofNat, Nat.add_mod] using this
  rw [← word_add] at h'
  refine (word_inj hle hlt).mp ?_
  linear_combination -h'

/-! ### `extend` -/

section
variable {s₀ : St F ι} {kept : F.Kept} {start : Ring} {xs : List T} {full : Bool}

lemma extendEnd_queue (h₀ : s₀.Ok) (h : Inv s₀ (.extend i kept start xs full) s) :
    F.Shows ((s.extendEnd i kept start xs).queue i)
        { s.ring i with pushes := start.pushes + xs.length } ∧
      F.buffer ((s.extendEnd i kept start xs).queue i) = F.buffer (s.queue i) ∧
      ∀ j, j ≠ i → (s.extendEnd i kept start xs).queue j = s.queue j := by
  obtain ⟨rfl, rfl, -⟩ := h.known
  have hs := F.shows_publish xs.length (h₀.queue i).shows' (h.ok.queue i).shows'
  unfold St.extendEnd
  simp only [Function.update_self, F.extendStore_eq]
  exact ⟨hs, F.buffer_publish _ _ _, fun j hj => Function.update_of_ne hj _ _⟩

/-- If no item is lost, none was pushed while the iterator ran. -/
lemma Inv.pushes_of_once (h₀ : s₀.Ok) (h : Inv s₀ (.extend i kept start xs full) s)
    (hlt : (s.ring i).pushes < start.pushes + 2 ^ w) (ho : (s.extendEnd i kept start xs).Once) :
    (s.ring i).pushes = start.pushes := by
  obtain ⟨hs, -, hother⟩ := extendEnd_queue h₀ h
  obtain ⟨-, rfl, -⟩ := h.known
  have hle := (h.le i).pushes
  have hsize := ho.size
  have hsize₀ := h.ok.size
  have hsum := Sums.sum_of_ne (i := i)
    (f := fun j => (held (s.queue j) (s.drains j)).card)
    (g := fun j => (held ((s.extendEnd i kept (s₀.ring i) xs).queue j) (s.drains j)).card)
    fun j hj => by rw [hother j hj]
  have hlen : (s.extendEnd i kept (s₀.ring i) xs).pushed.length = s.pushed.length + xs.length :=
    List.length_append
  have hdel : (s.extendEnd i kept (s₀.ring i) xs).delivered = s.delivered := rfl
  have hdr : (s.extendEnd i kept (s₀.ring i) xs).drains = s.drains := rfl
  rw [hlen, hdel, hdr] at hsize
  simp only [card_held] at hsize hsize₀ hsum
  refine pushes_eq (n := 0) hle hlt ?_ (t := xs.length) (a := word w (s.ring i).pops)
    (b := word w (s.ring i).front)
  have h1 := available_words hs
  have h2 := available_words (h.ok.queue i).shows'
  rw [word_add, Nat.add_zero, Nat.add_zero, ← h2]
  simp only at h1
  rw [← h1]
  omega

/-- And if one was popped at the tail, none was stored. -/
lemma Inv.pops_of_live (h₀ : s₀.Ok) (h : Inv s₀ (.extend i kept start xs full) s)
    (hp : (s.ring i).pushes = start.pushes)
    (hl : none ∉ held ((s.extendEnd i kept start xs).queue i) (s.drains i)) :
    (s.ring i).pops = start.pops ∨ xs.length = 0 := by
  obtain ⟨hs, hb, -⟩ := extendEnd_queue h₀ h
  obtain ⟨-, rfl, hroom⟩ := h.known
  have hq := h.ok.queue i
  have hle := h.le i
  have h1 := hle.pops
  have h2 := hle.stealer
  have h3 := (h₀.queue i).ok.tail
  have h4 := hq.ok.tail
  by_contra hne
  obtain ⟨hpops, hxs⟩ := not_or.mp hne
  rw [← hp] at hs
  have hlt : (s.ring i).tail < (s₀.ring i).tail := by
    rw [Ring.tail, Ring.tail, hp]
    omega
  have hheld := (hq.publish (n := xs.length) (by rw [hle.k]; omega) hs (by rw [hb])
    fun m _ _ => by rw [hb]).2
  obtain ⟨d, hd⟩ : ∃ d, xs.length = d + 1 := ⟨xs.length - 1, by omega⟩
  -- the slot at the tail was read by the last pop
  have hgone := (h.kept i hp).gone (s.ring i).tail le_rfl hlt
  rw [hd, cells_succ, hb, hle.k, hgone] at hheld
  refine hl ?_
  rw [hheld]
  simp

end

/-- The flavours. -/
def owner (w : ℕ) (T : Type u) : Deque.Flavour → Owner w T
  | .lifo => Lifo.owner w T
  | .fifo => Fifo.owner w T

/-- **`extend` and a re-entrant iterator.** Whatever the iterator does with the queues, the calls
it makes in turn being calm, `extend` leaves them sound if and only if nothing was added to its
queue meanwhile and, where it adds an item itself, none was popped at the tail. -/
theorem extend_reentrant (fl : Deque.Flavour) (hw : 1 < w) {s s' : St (owner w T fl) ι} {i : ι}
    {xs : List T} {full : Bool} (h : s.Ok) (hs : s.Sound)
    (r : Run (.extend i ((owner w T fl).keep (s.queue i)) (s.ring i) [] false) s
      (.extend i ((owner w T fl).keep (s.queue i)) (s.ring i) xs full) s') :
    let s'' := s'.extendEnd i ((owner w T fl).keep (s.queue i)) (s.ring i) xs
    (Still (s.ring i) (s'.ring i) xs.length → s''.Sound) ∧
      ((s'.ring i).pushes < (s.ring i).pushes + 2 ^ w → s''.Sound →
        Still (s.ring i) (s'.ring i) xs.length) := by
  have h' := r.inv hw ⟨rfl, rfl, rfl, rfl⟩ h
  refine ⟨fun hst => (h'.extendEnd h hst).sound hs trivial, fun hlt hs'' => ?_⟩
  have hp := h'.pushes_of_once h hlt hs''.once
  exact ⟨hp, h'.pops_of_live h hp (hs''.live i)⟩

/-- A LIFO queue of two slots that has never been used. -/
def unused : St (owner 4 ℕ .lifo) Unit where
  addr _ := 0
  queue _ := (⟨0, pack 0 0, 0, [.uninit, .uninit], 1⟩ : Lifo.Queue 4 ℕ)
  drains _ := []
  ring _ := ⟨1, 0, 0, 0, 0⟩
  pushed := []
  delivered := []

lemma unused_ok : unused.Ok :=
  ⟨fun () => ⟨⟨rfl, rfl, rfl, rfl⟩, ⟨by decide, by decide, by decide, by decide⟩, rfl, 0, 0,
    ⟨le_rfl, le_rfl, le_rfl, fun h => absurd h (lt_irrefl _), rfl⟩⟩, rfl⟩

lemma unused_sound : unused.Sound :=
  ⟨fun () => by decide, fun () => by decide, rfl⟩

/-- Two FIFO queues of two slots, with the item 7 in the first. -/
def oneItem : St (owner 4 ℕ .fifo) Bool where
  addr := Bool.toNat
  queue
    | false => (⟨pack 0 0, 1, [.live 7, .uninit], 1⟩ : Fifo.Queue 4 ℕ)
    | true => (⟨pack 0 0, 0, [.uninit, .uninit], 1⟩ : Fifo.Queue 4 ℕ)
  drains _ := []
  ring
    | false => ⟨1, 0, 0, 1, 0⟩
    | true => ⟨1, 0, 0, 0, 0⟩
  pushed := [7]
  delivered := []

lemma oneItem_ok : oneItem.Ok := by
  refine ⟨fun b => ?_, rfl⟩
  have hl : Lent (Fifo.owner 4 ℕ) (oneItem.ring b) [] 0 0 := by
    cases b <;> exact ⟨le_rfl, le_rfl, le_rfl, fun h => absurd h (lt_irrefl _), rfl⟩
  cases b with
  | false =>
    exact ⟨⟨rfl, rfl, rfl, rfl⟩, ⟨by decide, by decide, by decide, by decide⟩, rfl, 0, 0, hl⟩
  | true =>
    exact ⟨⟨rfl, rfl, rfl, rfl⟩, ⟨by decide, by decide, by decide, by decide⟩, rfl, 0, 0, hl⟩

lemma oneItem_sound : oneItem.Sound :=
  ⟨by decide, by decide, rfl⟩

/-- And the item 5 in the other. -/
def oneEach : St (owner 4 ℕ .fifo) Bool := oneItem.push true 5

lemma oneEach_inv : Inv oneItem .program oneEach :=
  Run.inv (by decide) (.push (.refl _ _) true 5) trivial oneItem_ok

/-- An iterator pops the item of the queue that is filled, pushes one to the other queue, and yields
one. -/
theorem extend_reentrant_pops : (((((oneEach.pop false).push true 9).store false 1#4 8).extendEnd
    false ((owner 4 ℕ .fifo).keep (oneEach.queue false)) (oneEach.ring false) [8])).Sound :=
  (extend_reentrant .fifo (by decide) oneEach_inv.ok (oneEach_inv.sound oneItem_sound trivial)
    (.item (.push (.pop (.refl _ _) false) true 9) 8 (by decide))).1 ⟨rfl, .inl rfl⟩

/-- An iterator pushes an item to the queue and yields none: the item is lost. -/
theorem extend_loses_push : ¬ ∀ (fl : Deque.Flavour) (s s' : St (owner 4 ℕ fl) Unit) (xs : List ℕ)
    (full : Bool), s.Ok → s.Sound →
      Run (.extend () ((owner 4 ℕ fl).keep (s.queue ())) (s.ring ()) [] false) s
        (.extend () ((owner 4 ℕ fl).keep (s.queue ())) (s.ring ()) xs full) s' →
      (s'.extendEnd () ((owner 4 ℕ fl).keep (s.queue ())) (s.ring ()) xs).Sound := by
  intro h
  have hs := h .lifo unused (unused.push () 5) [] false unused_ok unused_sound
    (.push (.refl _ _) () 5)
  have hlen := congrArg Multiset.card hs.once
  exact absurd hlen (by decide)

/-! ### Draining the queues -/

/-- A queue that has items hands one out. -/
lemma exists_less (h : s.Ok) (hi : held (s.queue i) (s.drains i) ≠ 0) : ∃ s',
    Run .program s .program s' ∧ s'.pushed = s.pushed ∧
      s'.delivered.length = s.delivered.length + 1 := by
  obtain ⟨hs, hr, hlen, c, f, hl⟩ := h.queue i
  by_cases hne : (s.ring i).tail = (s.ring i).front
  · -- no item is available, so that there is a `Drain`
    have hcf : c < f := by
      refine lt_of_le_of_ne hl.le fun e => hi ?_
      rw [hl.held hs hr, hne, e, Nat.sub_self, Nat.sub_self]
      rfl
    have hds := hl.eq
    rw [if_neg (by omega)] at hds
    obtain ⟨s', e, hp, hd⟩ : ∃ s', s.next i 0 = some s' ∧ s'.pushed = s.pushed ∧
        s'.delivered.length = s.delivered.length + 1 := by
      unfold St.next
      rw [hds]
      simp only [List.getElem?_cons_zero]
      split_ifs with he
      · obtain ⟨q, e, -⟩ := F.release_at f (F.shows_setBuffer hs) fun ht => hl.fin hcf ht
        rw [e]
        exact ⟨_, rfl, rfl, by simp⟩
      · exact ⟨_, rfl, rfl, by simp⟩
    exact ⟨s', .next (.refl _ _) i 0 e, hp, hd⟩
  · obtain ⟨q, e, -⟩ := F.claim_some hs hr hne
    refine ⟨s.pop i, .pop (.refl _ _) i, ?_, ?_⟩
    · unfold St.pop
      rw [e]
    · unfold St.pop
      rw [e]
      simp

omit [Fintype ι] in
lemma Run.trans {c₀ c₁ c : Frame F ι} {s₀ : St F ι} (r : Run c₀ s₀ c₁ s) (r' : Run c₁ s c s') :
    Run c₀ s₀ c s' := by
  induction r' with
  | refl => exact r
  | push _ i x ih => exact (ih r).push i x
  | pop _ i ih => exact (ih r).pop i
  | next _ i m h ih => exact (ih r).next i m h
  | item _ x h ih => exact (ih r).item x h
  | excess _ h ih => exact (ih r).excess h
  | retry _ want hn h ih => exact (ih r).retry want hn h
  | fail _ ho r' h ih => exact (ih r).fail ho r' h
  | call _ ho r' hx hc ih => exact (ih r).call ho r' hx hc

/-- The queues can be drained. -/
lemma exists_drained (hw : 1 < w) (h : s.Ok) : ∃ s', Run .program s .program s' ∧
    s'.pushed = s.pushed ∧ ∀ i, held (s'.queue i) (s'.drains i) = 0 := by
  have hle : s.delivered.length ≤ s.pushed.length := by
    have := h.size
    omega
  obtain ⟨n, hn⟩ := Nat.exists_eq_add_of_le hle
  clear hle
  induction n generalizing s with
  | zero =>
    refine ⟨s, .refl _ _, rfl, fun i => ?_⟩
    have hsize := h.size
    have hz : ∑ i, (held (s.queue i) (s.drains i)).card = 0 := by omega
    exact Multiset.card_eq_zero.mp (Finset.sum_eq_zero_iff.mp hz i (Finset.mem_univ i))
  | succ n ih =>
    have hsize := h.size
    obtain ⟨i, -, hi⟩ := Finset.exists_ne_zero_of_sum_ne_zero
      (show ∑ i, (held (s.queue i) (s.drains i)).card ≠ 0 by omega)
    obtain ⟨s₁, r₁, hp₁, hd₁⟩ := exists_less h (i := i) (mt Multiset.card_eq_zero.mpr hi)
    obtain ⟨s', r', hp', hh⟩ := ih (r₁.inv hw trivial h).ok (by rw [hp₁, hd₁, hn]; omega)
    exact ⟨s', r₁.trans r', hp'.trans hp₁, hh⟩

/-- Each item that was pushed is handed out once, if the queues are drained from here. -/
structure St.Delivers (s : St F ι) : Prop where
  once : s.Once
  drained : ∃ s', Run .program s .program s' ∧ s'.pushed = s.pushed ∧
    (∀ i, held (s'.queue i) (s'.drains i) = 0) ∧
      (s'.delivered : Multiset (Option T)) = (s.pushed.map some : List (Option T))

lemma St.Sound.delivers (hw : 1 < w) (h : s.Ok) (hs : s.Sound) : s.Delivers := by
  obtain ⟨s', r, hp, hh⟩ := exists_drained hw h
  refine ⟨hs.once, s', r, hp, hh, ?_⟩
  have ho := ((r.inv hw trivial h).sound hs trivial).once
  rw [Finset.sum_eq_zero fun i _ => hh i, add_zero, hp] at ho
  exact ho.symm

/-! ### `steal` and `steal_and_pop` -/

omit [Fintype ι] in
/-- The transfer leaves the words as they are, wherever the items go. -/
lemma moveOut_words {addr : ι → ℕ} {src dst : ι} {p : F.Plan} {σ σ' : ι → F.Queue}
    (e : F.moveOut addr src dst p σ = some σ') :
    (∀ i r, F.Shows (σ i) r → F.Shows (σ' i) r) ∧ ∀ i, i ≠ src → i ≠ dst → σ' i = σ i := by
  unfold moveOut at e
  obtain ⟨m, -, rfl⟩ := Option.map_eq_some_iff.mp e
  exact ⟨fun i r => shows_relocate, fun i => relocate_other⟩

section
variable {src dst : ι} {l : F.Look} {q q₀ : F.Queue} {n free : BitVec w} {t : ℕ} {andPop : Bool}
  {kept : F.Kept} {dest : Ring}

/-- The queues when a steal returns, whatever has become of the items. -/
structure Returned (s s' : St F ι) (src dst : ι) (andPop : Bool) (n t : ℕ) (dest : Ring) :
    Prop where
  pushed : s'.pushed = s.pushed
  delivered : s'.delivered.length = s.delivered.length + andPop.toNat
  drains : s'.drains = s.drains
  other : ∀ i, i ≠ src → i ≠ dst → s'.queue i = s.queue i
  source : src ≠ dst → F.Shows (s'.queue src) { s.ring src with
    front := (s.ring src).front + n
    stealer := (s.ring src).front + n }
  target : src ≠ dst → F.Shows (s'.queue dst) { s.ring dst with pushes := dest.pushes + t }
  self : src = dst → F.Shows (s'.queue src) { s.ring src with
    front := (s.ring src).front + n
    stealer := (s.ring src).front + n
    pushes := dest.pushes + t }

lemma St.Ok.returned (h : s.Ok) (hb : Booked s src l n q) (h₀ : F.Shows q₀ dest)
    (hk : kept = F.keep q₀) (ht : n - BitVec.ofNat w andPop.toNat = word w t)
    (e : (s.book src n q).stealEnd andPop src dst kept dest free l n = some s') :
    Returned s s' src dst andPop n.toNat t dest ∧ ∃ σ,
      F.moveOut s.addr src dst ⟨kept, F.first l, n, word w t⟩ (Function.update s.queue src q) =
          some σ ∧
        ∀ i, F.buffer (s'.queue i) = F.buffer ((if andPop then Function.update σ src (F.setBuffer
          (readAt (F.buffer (σ src)) (F.mask (σ src)) (F.first l + word w t)).2 (σ src))
            else σ) i) := by
  have hbook : (s.book src n q).queue = Function.update s.queue src q := rfl
  have haddr : (s.book src n q).addr = s.addr := rfl
  unfold St.stealEnd at e
  simp only [ht] at e
  by_cases hfree : word w t ≤ free
  swap
  · rw [if_neg hfree] at e
    cases e
  rw [if_pos hfree, hbook, haddr] at e
  obtain ⟨σ, e₁, e⟩ := Option.bind_eq_some_iff.mp e
  obtain ⟨σ', e₂, rfl⟩ := Option.map_eq_some_iff.mp e
  obtain ⟨hsh, ho⟩ := moveOut_words e₁
  -- the read of the last item changes no word either
  have hsh' : ∀ {σ₂ : ι → F.Queue} {buf : List (Slot T)},
      σ₂ = (if andPop then Function.update σ src (F.setBuffer buf (σ src)) else σ) →
      (∀ i r, F.Shows (Function.update s.queue src q i) r → F.Shows (σ₂ i) r) ∧
        ∀ i, i ≠ src → i ≠ dst → σ₂ i = s.queue i := by
    rintro σ₂ buf rfl
    refine ⟨fun i r hr => ?_, fun i h1 h2 => ?_⟩
    · split_ifs
      · by_cases hi : i = src
        · subst hi
          rw [Function.update_self]
          exact F.shows_setBuffer (hsh i r hr)
        · rw [Function.update_of_ne hi]
          exact hsh i r hr
      · exact hsh i r hr
    · split_ifs
      · rw [Function.update_of_ne h1, ho i h1 h2, Function.update_of_ne h1]
      · rw [ho i h1 h2, Function.update_of_ne h1]
  generalize hσ : (if andPop then _ else σ) = σ₂ at e₂ ⊢
  obtain ⟨hsh, ho⟩ := hsh' hσ.symm
  have hs := hsh src _ (by rw [Function.update_self]; exact hb.shows')
  have hfirst : F.first l = word w (s.ring src).stealer := by rw [hb.first, hb.quiet]
  have hfin : F.first l + n = word w ((s.ring src).front + n.toNat) := by
    rw [hb.first, ← word_add, word_toNat]
  obtain ⟨rd, hd, hrd⟩ : ∃ rd, F.Shows (Function.update s.queue src q dst) rd ∧
      (src ≠ dst → rd = s.ring dst) := by
    by_cases hx : src = dst
    · subst hx
      exact ⟨_, by rw [Function.update_self]; exact hb.shows', fun hne => absurd rfl hne⟩
    · exact ⟨_, by rw [Function.update_of_ne (Ne.symm hx)]; exact (h.queue dst).shows',
        fun _ => rfl⟩
  obtain ⟨σ₃, e₃, ho₃, hbuf, hne, heq⟩ := finish_spec (p := ⟨kept, F.first l, n, word w t⟩) (n := t)
    h₀ hs (hsh dst _ hd) hk hfirst hfin rfl
  rw [e₃] at e₂
  cases e₂
  refine ⟨⟨rfl, ?_, rfl, fun i h1 h2 => (ho₃ i h1 h2).trans (ho i h1 h2), fun hx => (hne hx).1,
    fun hx => ?_, heq⟩, σ, e₁, fun i => by rw [hσ]; exact hbuf i⟩
  · show (s.delivered ++ _).length = _
    cases andPop <;> simp
  · have := (hne hx).2
    rwa [hrd hx] at this

/-- If no item is lost, none was pushed to the destination while `count_fn` ran. -/
lemma Returned.pushes_of_once (h : s.Ok) (hr : Returned s s' src dst andPop n.toNat t dest)
    (hb : Booked s src l n q) (hn : t + andPop.toNat = n.toNat)
    (hle : dest.pushes ≤ (s.ring dst).pushes) (hlt : (s.ring dst).pushes < dest.pushes + 2 ^ w)
    (ho : s'.Once) : (s.ring dst).pushes = dest.pushes := by
  have hsize := ho.size
  have hsize₀ := h.size
  have hqs := h.queue src
  have hqd := h.queue dst
  have hbn := hb.le
  rw [hr.pushed, hr.delivered, hr.drains] at hsize
  have hother : ∀ i, i ≠ src → i ≠ dst →
      (held (s'.queue i) (s.drains i)).card = (held (s.queue i) (s.drains i)).card :=
    fun i h1 h2 => by rw [hr.other i h1 h2]
  have hd₀ := available_words hqd.shows'
  by_cases hx : src = dst
  · subst hx
    have hsum := Sums.sum_of_ne (i := src) (f := fun j => (held (s.queue j) (s.drains j)).card)
      (g := fun j => (held (s'.queue j) (s.drains j)).card) fun j hj => hother j hj hj
    have hs := available_words (hr.self rfl)
    simp only [card_held] at hsize hsize₀ hsum
    refine pushes_eq (n := n.toNat) hle hlt ?_ (t := t) (a := word w (s.ring src).pops)
      (b := word w (s.ring src).front)
    rw [word_add, ← hd₀]
    simp only at hs
    rw [← hs]
    omega
  · have hsum := Sums.sum_update₂ (f := fun j => (held (s.queue j) (s.drains j)).card)
      (g := fun j => (held (s'.queue j) (s.drains j)).card) hx hother (Nat.add_comm _ _)
      (Nat.add_comm _ _)
    have hs := available_words (hr.target hx)
    -- the source has as many items fewer as were booked
    have hsrc : (available (s'.queue src)).toNat + n.toNat = (available (s.queue src)).toNat := by
      have h1 := hqs.ok.tail
      have h2 := hqs.ok.cap
      have h3 := hb.quiet
      simp only [Ring.tail] at hbn
      have hok : Ring.Ok w { s.ring src with
          front := (s.ring src).front + n.toNat
          stealer := (s.ring src).front + n.toNat } :=
        ⟨hqs.ok.lt, le_rfl, by simp only; omega, by simp only; omega⟩
      rw [toNat_available (hr.source hx) hok, toNat_available hqs.shows' hqs.ok]
      simp only [Ring.tail]
      omega
    simp only [card_held] at hsize hsize₀ hsum
    refine pushes_eq (n := 0) hle hlt ?_ (t := t) (a := word w (s.ring dst).pops)
      (b := word w (s.ring dst).front)
    rw [word_add, Nat.add_zero, Nat.add_zero, ← hd₀]
    simp only at hs
    rw [← hs]
    omega

/-- And if one was popped at its tail, none was moved there. -/
lemma Inv.pops_of_steal {s₀ : St F ι} (h₀ : s₀.Ok) {start : Ring} {itemCount : BitVec w}
    (h : Inv s₀ (.count src (.steal andPop dst kept dest free) start l itemCount) s)
    (hb : Booked s src l n q) (hn : t + andPop.toNat = n.toNat)
    (htw : n - BitVec.ofNat w andPop.toNat = word w t)
    (hroom : dest.tail + t ≤ dest.stealer + 2 ^ dest.k)
    (e : (s.book src n q).stealEnd andPop src dst kept dest free l n = some s')
    (hp : (s.ring dst).pushes = dest.pushes) (hlive : none ∉ held (s.queue src) (s.drains src))
    (hl : none ∉ held (s'.queue dst) (s.drains dst)) : (s.ring dst).pops = dest.pops ∨ t = 0 := by
  obtain ⟨rfl, rfl, -⟩ := h.known.1
  have hq₀ := h₀.queue dst
  have hle := h.le dst
  have h1 := hle.pops
  have h2 := hle.stealer
  have h3 := hle.k
  have h4 := hq₀.ok.tail
  have h5 := (h.ok.queue dst).ok.tail
  by_contra hne
  obtain ⟨hpops, ht⟩ := not_or.mp hne
  have hlt : (s.ring dst).tail < (s₀.ring dst).tail := by
    rw [Ring.tail, Ring.tail, hp]
    omega
  have hroom' : (s₀.ring dst).tail + t ≤ (s.ring dst).stealer + 2 ^ (s.ring dst).k := by
    rw [h3]
    omega
  obtain ⟨hr, σ, e₁, hbuf⟩ := h.ok.returned hb hq₀.shows' rfl htw e
  obtain ⟨σ', e₂, hc⟩ := h.ok.copied (F.keep (s₀.queue dst)) hb hn
    (by rw [F.tail_eq hq₀.shows', word_tail hq₀.ok]) hlt.le hroom'
  rw [e₁] at e₂
  split_ifs at e₂
  cases e₂
  obtain ⟨d, rfl⟩ : ∃ d, t = d + 1 := ⟨t - 1, by omega⟩
  -- the slot at the tail was read by the last pop
  have hgone := (h.kept dst hp).gone (s.ring dst).tail le_rfl hlt
  rw [← h3] at hgone
  by_cases hx : src = dst
  · subst hx
    have hquiet := hb.quiet
    have hbn := hb.le
    have hself := hr.self rfl
    rw [← hp] at hself
    have hheld := (hc.self_ok h.ok hb hlt.le hroom' (hbuf src) hself).2
    have hslot := hc.self_slot (m := (s.ring src).tail) (by omega) (by omega) (by omega) (.inl hlt)
    rw [cells_succ, itemAt, hslot, ← itemAt, hgone] at hheld
    have hin : none ∈ held (s'.queue src) (s.drains src) + (cells (F.buffer (s.queue src))
        (2 ^ (s.ring src).k) (s.ring src).front n.toNat : List (Option T)) := by
      rw [hheld]
      simp
    rcases Multiset.mem_add.mp hin with hin | hin
    · exact hl hin
    · refine hlive ?_
      have hq := h.ok.queue src
      obtain ⟨c, f, hlent⟩ := hq.lent
      rw [hlent.held hq.shows' hq.ok, ← Nat.add_sub_of_le hbn, cells_add]
      simp only [← Multiset.coe_add, Multiset.mem_add]
      exact .inr (.inl hin)
  · have htarget := hr.target hx
    rw [← hp] at htarget
    have hheld := (hc.dest_ok h.ok hx hlt.le hroom' (hbuf dst) htarget).2
    have hslot := hc.dest_slot (m := (s.ring dst).tail) hx hroom'
      (by rw [Ring.tail]; have := (h.ok.queue dst).ok.stealer; omega) (by omega) (.inl hlt)
    rw [cells_succ, itemAt, hslot, ← itemAt, hgone] at hheld
    refine hl ?_
    rw [hheld]
    simp

end

/-- **Steals and a re-entrant `count_fn`.** Whatever `count_fn` does with the queues, the calls it
makes in turn being calm, a steal that fails loses nothing. One that books, at most a full turn of
the source after it started, delivers each item once if and only if nothing was added to its
destination meanwhile and, where it moves an item there, none was popped at the tail; it returns
then, if the transfer comes past its assertions. -/
theorem steal_reentrant (fl : Deque.Flavour) (hw : 1 < w) {s s' : St (owner w T fl) ι}
    {andPop : Bool} {src dst : ι} {kept : (owner w T fl).Kept} {dest start : Ring} {free : BitVec w}
    {l l' : (owner w T fl).Look} {itemCount itemCount' : BitVec w} (h : s.Ok) (hs : s.Sound)
    (ho : (Frame.count src (.steal andPop dst kept dest free) start l itemCount).Opens s)
    (r : Run (.count src (.steal andPop dst kept dest free) start l itemCount) s
      (.count src (.steal andPop dst kept dest free) start l' itemCount') s') :
    (Fails (.count src (.steal andPop dst kept dest free) start l' itemCount') s' → s'.Delivers) ∧
    ∀ (want : ℕ) (n : BitVec w) (q : (owner w T fl).Queue),
      (Taker.steal andPop dst kept dest free).count want itemCount' = n → n ≠ 0#w →
      (owner w T fl).cas l' n (s'.queue src) = some q → Timely w start (s'.ring src) →
      let t := (n - BitVec.ofNat w andPop.toNat).toNat
      let returns := (s'.book src n q).stealEnd andPop src dst kept dest free l' n
      (Still dest (s'.ring dst) t → ∃ s'', s''.Delivers ∧
        returns = if s'.Passes src dst kept l' t then some s'' else none) ∧
      ((s'.ring dst).pushes < dest.pushes + 2 ^ w → ∀ s'', returns = some s'' → s''.Delivers →
        Still dest (s'.ring dst) t) := by
  have h' := r.inv hw ho h
  have hs' := h'.sound hs trivial
  refine ⟨fun _ => hs'.delivers hw h'.ok, fun want n q hn h0 hcas htm => ?_⟩
  have hb := h'.booked htm hn hcas
  refine ⟨fun hst => ?_, fun hlt s'' e hd => ?_⟩
  · obtain ⟨s'', e, hi⟩ := h'.stealEnd hw h hn h0 hb hst
    exact ⟨s'', (hi.sound hs trivial).delivers hw hi.ok, e⟩
  · obtain ⟨t, htn, htw, htt, hroom, -⟩ := h'.known.1.room hw h hn h0
    obtain ⟨hk, hdest, -⟩ := h'.known.1
    have hq₀ : (owner w T fl).Shows (s.queue dst) dest := by
      rw [hdest]
      exact (h.queue dst).shows'
    have hle : dest.pushes ≤ (s'.ring dst).pushes := by
      rw [hdest]
      exact (h'.le dst).pushes
    obtain ⟨hr, -⟩ := h'.ok.returned hb hq₀ hk htw e
    have hp := hr.pushes_of_once h'.ok hb htn hle hlt hd.once
    rw [htw, htt]
    refine ⟨hp, h'.pops_of_steal h hb htn htw hroom e hp (hs'.live src) ?_⟩
    rw [← hr.drains]
    exact hd.once.none_notMem dst

/-- The steal of the item into the other queue, which has so much room, as far as it has come when
it calls `count_fn`. -/
def stealing (s : St (owner 4 ℕ .fifo) Bool) (free : BitVec 4) : Frame (owner 4 ℕ .fifo) Bool :=
  .count false (.steal false true ((owner 4 ℕ .fifo).keep (s.queue true)) (s.ring true) free)
    (s.ring false) ((owner 4 ℕ .fifo).look (s.queue false)) 1

lemma oneItem_stealing : (stealing oneItem 2).Opens oneItem :=
  ⟨⟨rfl, rfl, by decide⟩, rfl, rfl, rfl⟩

lemma oneEach_stealing : (stealing oneEach 1).Opens oneEach :=
  ⟨⟨rfl, rfl, by decide⟩, rfl, rfl, rfl⟩

/-- `count_fn` pops the item of the destination, pushes one to the source, and asks for two. -/
theorem steal_reentrant_pops : ∃ s'', s''.Delivers ∧
    (((oneEach.pop true).push false 9).book false 1
      (⟨pack 1 0, 2, [.live 7, .live 9], 1⟩ : Fifo.Queue 4 ℕ)).stealEnd false false true
      ((owner 4 ℕ .fifo).keep (oneEach.queue true)) (oneEach.ring true) 1
      ((owner 4 ℕ .fifo).look (oneEach.queue false)) 1 = some s'' := by
  have r : Run (stealing oneEach 1) oneEach (stealing oneEach 1)
      ((oneEach.pop true).push false 9) :=
    .push (.pop (.refl _ _) true) false 9
  obtain ⟨s'', hd, e⟩ := ((steal_reentrant .fifo (by decide) oneEach_inv.ok
    (oneEach_inv.sound oneItem_sound trivial) oneEach_stealing r).2 2 1 _ (by decide) (by decide)
    rfl ⟨by decide, by decide⟩).1 ⟨rfl, .inl rfl⟩
  rw [if_pos (by decide)] at e
  exact ⟨s'', hd, e⟩

/-- `count_fn` pushes an item to the destination and answers 1: the item is lost. -/
theorem steal_loses_push : ¬ ∀ (fl : Deque.Flavour) (s s' s'' : St (owner 4 ℕ fl) Bool)
    (andPop src dst : Bool) (kept : (owner 4 ℕ fl).Kept) (dest start : Ring) (free : BitVec 4)
    (l l' : (owner 4 ℕ fl).Look) (itemCount itemCount' : BitVec 4) (n : ℕ), s.Ok → s.Sound →
      (Frame.count src (.steal andPop dst kept dest free) start l itemCount).Opens s →
      Run (.count src (.steal andPop dst kept dest free) start l itemCount) s
        (.count src (.steal andPop dst kept dest free) start l' itemCount') s' →
      Completes (.count src (.steal andPop dst kept dest free) start l' itemCount') s' n s'' →
      s''.Delivers := by
  intro h
  obtain ⟨s'', e, hlen⟩ : ∃ s'', ((oneItem.push true 8).book false 1
      (⟨pack 1 0, 1, [.live 7, .uninit], 1⟩ : Fifo.Queue 4 ℕ)).stealEnd false false true
        ((owner 4 ℕ .fifo).keep (oneItem.queue true)) (oneItem.ring true) 2
        ((owner 4 ℕ .fifo).look (oneItem.queue false)) 1 = some s'' ∧
      s''.pushed.length ≠ s''.delivered.length +
        ∑ i, (held (s''.queue i) (s''.drains i)).card := ⟨_, rfl, by decide⟩
  have hd := h .fifo oneItem (oneItem.push true 8) s'' _ _ _ _ _ _ _ _ _ _ _ _
    oneItem_ok oneItem_sound oneItem_stealing (.push (.refl _ _) true 8)
    (.steal 1 1 (by decide) (by decide) rfl e)
  exact hlen hd.once.size

end St3.Foreign
