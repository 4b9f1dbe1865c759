import St3.InjectorRel

/-!
What the steps of the injector do to its memory: handing out a ticket, moving a parked index
on, and every change inside one block.
-/

namespace St3.Injector

open Words Unbounded

variable {w : ℕ} {T A : Type*} {s s' : St w T A} {a a' : Unbounded.St T A}

/-! ### What a right says about the memory -/

section
variable {p : Pc w T} {q : ThreadSt T}

lemma ThreadOk.of_write (h : ThreadOk s a p q) {b i : ℕ} (hr : Right.write b i ∈ p.rights) :
    i < 31 ∧ 31 * b + i < a.pushed.length ∧ (s.slot b i).write = false := by
  have key : ∀ {x : T} {b i : ℕ}, WriteOk s a x b i →
      i < 31 ∧ 31 * b + i < a.pushed.length ∧ (s.slot b i).write = false :=
    fun h => ⟨h.lt, (List.getElem?_eq_some_iff.mp h.pushed).1, h.write⟩
  cases h <;> simp only [Pc.rights, List.mem_cons, List.not_mem_nil, Right.write.injEq,
    reduceCtorEq, or_false, false_or] at hr
  case pushMark x b i hi hx hv hw =>
    obtain ⟨rfl, rfl⟩ := hr
    exact ⟨hi, (List.getElem?_eq_some_iff.mp hx).1, hw⟩
  all_goals
    obtain ⟨rfl, rfl⟩ := hr
    exact key ‹_›

lemma ThreadOk.of_read (hm : MemRel s a) (h : ThreadOk s a p q) {b i : ℕ}
    (hr : Right.read b i ∈ p.rights) :
    i < 31 ∧ 31 * b + i < a.popped ∧ (s.slot b i).read = false := by
  have key : ∀ {x : T} {b i : ℕ}, ReadOk s a x b i →
      i < 31 ∧ 31 * b + i < a.popped ∧ (s.slot b i).read = false :=
    fun h => ⟨h.lt, hm.popped ▸ h.popped, h.read⟩
  cases h <;> simp only [Pc.rights, List.mem_cons, List.not_mem_nil, Right.read.injEq,
    reduceCtorEq, or_false, false_or] at hr
  case popMark x b i hi hv hread =>
    obtain ⟨rfl, rfl⟩ := hr
    refine ⟨by omega, ?_, hread⟩
    by_contra hle
    exact ((hm.slot _ _ (by omega)).unread (by omega)).1 ⟨x, hv⟩
  all_goals
    obtain ⟨rfl, rfl⟩ := hr
    exact key ‹_›

lemma ThreadOk.of_sweep (h : ThreadOk s a p q) {b : ℕ} (hr : Right.sweep b ∈ p.rights) :
    ∃ i, SweepOk s b i := by
  cases h <;> simp only [Pc.rights, List.mem_cons, List.not_mem_nil, Right.sweep.injEq,
    reduceCtorEq, or_false] at hr
  all_goals
    subst hr
    exact ⟨_, ‹SweepOk s _ _›⟩

lemma ThreadOk.of_tail (h : ThreadOk s a p q) (hr : Right.tail ∈ p.rights) :
    s.tailPos % 32 = 31 := by
  cases h <;> simp [Pc.rights] at hr
  all_goals omega

lemma ThreadOk.of_head (h : ThreadOk s a p q) (hr : Right.head ∈ p.rights) :
    s.headPos % 32 = 31 := by
  cases h <;> simp [Pc.rights] at hr
  all_goals
    have := And.left ‹HeadParked s _ _›
    omega

lemma ThreadOk.of_first (h : ThreadOk s a p q) (hr : Right.first ∈ p.rights) :
    s.headBlock = none ∧ s.tailBlock ≠ none := by
  cases h <;> simp [Pc.rights] at hr
  exact ⟨‹_›, ‹_›⟩

end

/-! ### Blocks that are not freed -/

namespace MemRel

lemma not_freed_of_read (h : MemRel s a) {b i : ℕ} (hi : i < 30)
    (hr : (s.slot b i).read = false) : (s.block b).freed = false := by
  by_contra hf
  have hf' : (s.block b).freed = true := by simpa using hf
  obtain ⟨-, -, hread⟩ := (h.block b).sweep 30 ((h.block b).freed hf')
  have := hread i hi
  rw [St.slot] at hr
  rw [hr] at this
  cases this

lemma not_freed_of_moved (h : MemRel s a) {b i : ℕ} (hi : i < 31)
    (hm : ¬ (s.slot b i).Moved) : (s.block b).freed = false := by
  by_contra hf
  have hf' : (s.block b).freed = true := by simpa using hf
  obtain ⟨-, hlast, hread⟩ := (h.block b).sweep 30 ((h.block b).freed hf')
  by_cases h30 : i = 30
  · subst h30
    exact hm hlast
  · exact hm ((h.slot b i hi).read (hread i (by omega)))

lemma not_freed_of_write (h : MemRel s a) {b i : ℕ} (hi : i < 31)
    (hw : (s.slot b i).write = false) : (s.block b).freed = false := by
  refine h.not_freed_of_moved hi fun hm => ?_
  rw [(h.slot b i hi).moved hm] at hw
  cases hw

/-- The block that the head moves on to is not freed. -/
lemma not_freed_next (h : MemRel s a) {b : ℕ} (hp : s.headPos = 32 * b + 31) :
    (s.block (b + 1)).freed = false := by
  have htick : a.popped = 31 * (b + 1) + 0 := by
    rw [h.popped, hp, tick]
    omega
  have hu := (h.slot (b + 1) 0 (by omega)).unread (by omega)
  exact h.not_freed_of_moved (by omega) hu.1

/-! ### Changes inside one block -/

/-- Only the thread changes. -/
lemma congr {s' : St w T A} {a' : Unbounded.St T A} (h : MemRel s a)
    (h1 : s'.headIndex = s.headIndex) (h2 : s'.tailIndex = s.tailIndex)
    (h3 : s'.headBlock = s.headBlock) (h4 : s'.tailBlock = s.tailBlock)
    (h5 : s'.block = s.block) (h6 : s'.count = s.count) (h7 : s'.fault = s.fault)
    (h8 : s'.headPos = s.headPos) (h9 : s'.tailPos = s.tailPos) (h10 : a'.pushed = a.pushed)
    (h11 : a'.popped = a.popped) : MemRel s' a' := by
  obtain ⟨_, _, _, _, _, _, _, _, _, _⟩ := s
  obtain ⟨_, _, _, _, _, _, _, _, _, _⟩ := s'
  obtain ⟨_, _, _⟩ := a
  obtain ⟨_, _, _⟩ := a'
  simp only at h1 h2 h3 h4 h5 h6 h7 h8 h9 h10 h11
  subst h1 h2 h3 h4 h5 h6 h7 h8 h9 h10 h11
  obtain ⟨f1, f2, f3, f4, f5, f6, f7, f8, f9, f10, f11, f12, f13, f14⟩ := h
  exact ⟨f1, f2, f3, f4, f5, f6, f7, f8, f9, f10, f11, f12, f13, f14⟩

lemma setBlock (h : MemRel s a) {b : ℕ} {d : Block T}
    (hn : ∀ m, d.next = some m → m = b + 1 ∧ 32 * b + 32 ≤ s.tailPos)
    (hs : ∀ i, i < 31 → SlotOk a.pushed a.popped b i (d.slot i)) (hd : BlockOk d) :
    MemRel (s.setBlock b d) a := by
  refine { h with
    next := fun c m hm => ?_
    slot := fun c i hi => ?_
    block := fun c => ?_ }
  · by_cases hc : c = b
    · subst hc
      exact hn m (by simpa [St.setBlock] using hm)
    · exact h.next c m (by simpa [St.setBlock, hc] using hm)
  · by_cases hc : c = b
    · subst hc
      simpa [St.setBlock, St.slot] using hs i hi
    · simpa [St.setBlock, St.slot, hc] using h.slot c i hi
  · by_cases hc : c = b
    · subst hc
      simpa [St.setBlock] using hd
    · simpa [St.setBlock, hc] using h.block c

/-- The block with one slot changed. -/
lemma setSlot (h : MemRel s a) {b i : ℕ} {sl : Slot T}
    (hs : i < 31 → SlotOk a.pushed a.popped b i sl)
    (hd : BlockOk { s.block b with slot := Function.update (s.block b).slot i sl }) :
    MemRel (s.setSlot b i sl) a := by
  refine h.setBlock (fun m hm => h.next b m hm) (fun j hj => ?_) hd
  by_cases hji : j = i
  · subst hji
    simpa using hs hj
  · simpa [hji, St.slot] using h.slot b j hj

end MemRel

/-! ### How a block comes to an end -/

section
variable {d : Block T} {i : ℕ}

lemma BlockOk.setSlot (h : BlockOk d) {sl : Slot T} (h1 : (d.slot i).Moved → sl.Moved)
    (h2 : (d.slot i).read = true → sl.read = true)
    (h3 : sl.destroy = true → (d.slot i).destroy = true) :
    BlockOk { d with slot := Function.update d.slot i sl } := by
  refine ⟨fun j hj => ?_, h.freed, fun k hk => ?_⟩
  · obtain ⟨hle, hlast, hread⟩ := h.sweep j hj
    refine ⟨hle, ?_, fun k hk => ?_⟩
    · by_cases he : 30 = i
      · subst he
        simpa using h1 hlast
      · simpa [he] using hlast
    · by_cases he : k = i
      · subst he
        simpa using h2 (hread k hk)
      · simpa [he] using hread k hk
  · by_cases he : k = i
    · subst he
      obtain ⟨j, hj, hle, hr⟩ := h.destroy k (h3 (by simpa using hk))
      refine ⟨j, hj, hle, fun hf => hr ?_⟩
      simp only [Function.update_self] at hf
      by_contra hc
      rw [h2 (by simpa using hc)] at hf
      cases hf
    · obtain ⟨j, hj, hle, hr⟩ := h.destroy k (by simpa [he] using hk)
      exact ⟨j, hj, hle, fun hf => hr (by simpa [he] using hf)⟩

/-- The destruction of the block begins when its last value was read. -/
lemma BlockOk.begin (h : BlockOk d) (hn : d.sweep = none) (hf : d.freed = false)
    (hm : (d.slot 30).Moved) : BlockOk { d with sweep := some 0 } := by
  refine ⟨?_, ?_, fun k hk => ?_⟩
  · rintro j ⟨⟩
    exact ⟨Nat.zero_le _, hm, fun i hi => absurd hi (Nat.not_lt_zero i)⟩
  · intro hf'
    rw [hf] at hf'
    cases hf'
  · obtain ⟨j, hj, -⟩ := h.destroy k hk
    rw [hn] at hj
    cases hj

/-- The destruction passes a slot that was read. -/
lemma BlockOk.advance (h : BlockOk d) (hs : d.sweep = some i) (hi : i < 30)
    (hf : d.freed = false) (hr : (d.slot i).read = true) :
    BlockOk { d with sweep := some (i + 1) } := by
  obtain ⟨hle, hlast, hread⟩ := h.sweep i hs
  have hread' : ∀ k < i + 1, (d.slot k).read = true := by
    intro k hk
    by_cases he : k = i
    · exact he ▸ hr
    · exact hread k (by omega)
  refine ⟨?_, ?_, fun k hk => ?_⟩
  · rintro j ⟨⟩
    exact ⟨by omega, hlast, hread'⟩
  · intro hf'
    rw [hf] at hf'
    cases hf'
  · obtain ⟨j, hj, hkj, -⟩ := h.destroy k hk
    obtain rfl : i = j := by rw [hs] at hj; exact Option.some.inj hj
    refine ⟨i + 1, rfl, by omega, fun hf' => ?_⟩
    simp only at hf'
    rw [hread' k (by omega)] at hf'
    cases hf'

/-- The destruction marks the slot it has come to. -/
lemma BlockOk.mark (h : BlockOk d) (hs : d.sweep = some i) :
    BlockOk { d with slot := Function.update d.slot i { d.slot i with destroy := true } } := by
  refine ⟨fun j hj => ?_, h.freed, fun k hk => ?_⟩
  · obtain ⟨hle, hlast, hread⟩ := h.sweep j hj
    refine ⟨hle, ?_, fun k hk => ?_⟩
    · by_cases he : 30 = i
      · subst he
        simpa [Slot.Moved] using hlast
      · simpa [he] using hlast
    · by_cases he : k = i
      · subst he
        simpa using hread k hk
      · simpa [he] using hread k hk
  · by_cases he : k = i
    · exact ⟨i, hs, he.le, fun _ => he.symm⟩
    · obtain ⟨j, hj, hle, hr⟩ := h.destroy k (by simpa [he] using hk)
      exact ⟨j, hj, hle, fun hf => hr (by simpa [he] using hf)⟩

/-- The block is freed when the destruction has passed every slot. -/
lemma BlockOk.free (h : BlockOk d) (hs : d.sweep = some 30) :
    BlockOk { d with freed := true } :=
  ⟨h.sweep, fun _ => hs, h.destroy⟩

end

/-! ### What other threads do not notice -/

section
variable {b : ℕ} {d : Block T}

/-- A change inside block `b`. -/
lemma keeps_setBlock {r : Right}
    (hw : ∀ i, r = .write b i → (d.slot i).value = (s.slot b i).value ∧
      (d.slot i).write = (s.slot b i).write)
    (hr : ∀ i, r = .read b i → ((d.slot i).Moved → (s.slot b i).Moved) ∧
      ((s.slot b i).Moved → (d.slot i).value = (s.slot b i).value) ∧
      (d.slot i).read = (s.slot b i).read ∧ ((s.slot b i).write → (d.slot i).write))
    (hs : r = .sweep b → d.sweep = (s.block b).sweep ∧ d.freed = (s.block b).freed ∧
      ∀ i, (d.slot i).destroy = (s.slot b i).destroy) :
    Keeps s (s.setBlock b d) r := by
  cases r with
  | first => rfl
  | tail => exact ⟨rfl, rfl, rfl⟩
  | head => exact ⟨rfl, rfl⟩
  | write c i =>
    by_cases hc : c = b
    · subst hc
      simpa [Keeps, St.setBlock, St.slot] using hw i rfl
    · simp [Keeps, St.setBlock, St.slot, hc]
  | read c i =>
    by_cases hc : c = b
    · subst hc
      simpa [Keeps, St.setBlock, St.slot] using hr i rfl
    · simp [Keeps, St.setBlock, St.slot, hc]
  | sweep c =>
    by_cases hc : c = b
    · subst hc
      simpa [Keeps, St.setBlock, St.slot] using hs rfl
    · simp [Keeps, St.setBlock, St.slot, hc]

lemma grows_setBlock : Grows s (s.setBlock b d) a a :=
  ⟨le_rfl, le_rfl, List.prefix_refl _, id, id⟩

end

/-- A step that leaves the blocks alone. -/
lemma keeps_of_block {r : Right} (hb : s'.block = s.block) (h1 : r = .first → Keeps s s' .first)
    (h2 : r = .tail → Keeps s s' .tail) (h3 : r = .head → Keeps s s' .head) : Keeps s s' r := by
  cases r with
  | first => exact h1 rfl
  | tail => exact h2 rfl
  | head => exact h3 rfl
  | write c i => simp [Keeps, St.slot, hb]
  | read c i => simp [Keeps, St.slot, hb]
  | sweep c => simp [Keeps, St.slot, hb]

end St3.Injector
