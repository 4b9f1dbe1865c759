import St3.LifoSim
import St3.FifoSim
import Mathlib.Tactic.Push

/-!
Dropping the queues: `Queue::drop` runs when all handles are gone, so when no call is under
way, and releases what it finds between a head and the tail.

The FIFO queue starts from the worker head and meets stored items only. The LIFO queue starts
from `head`, which an abandoned `Drain` has left where its booking began: the items it has
yielded before are released a second time.
-/

namespace St3

open Words Slots

section
variable {w : ℕ} {T : Type*}

/-- The slot after a read. -/
def Slots.Slot.read : Slot T → Slot T
  | .live x => .moved x
  | s => s

/-- The loop of `Queue::drop`: what the reads of `count` slots find. -/
def Slots.dropLoop (mask head : BitVec w) : List (Slot T) → ℕ → ℕ → List (Slot T)
  | _, _, 0 => []
  | buffer, offset, count + 1 =>
    let i := slotIdx (head + BitVec.ofNat w offset) mask
    let s := (buffer[i]?).getD .uninit
    s :: dropLoop mask head (buffer.set i s.read) (offset + 1) count

lemma Slots.dropLoop_eq {k : ℕ} (hk : k < w) (n : ℕ) (buffer : List (Slot T)) {offset count : ℕ}
    (hc : count ≤ 2 ^ k) :
    dropLoop (maskOf w k) (word w n) buffer offset count =
      (List.range' offset count).map fun i => (buffer[(n + i) % 2 ^ k]?).getD .uninit := by
  induction count generalizing buffer offset with
  | zero => rfl
  | succ count ih =>
    simp only [dropLoop, word_add, slotIdx_word hk, List.range'_succ, List.map_cons]
    refine congrArg _ ((ih _ (by omega)).trans (List.map_congr_left fun i hi => ?_))
    obtain ⟨h1, h2⟩ := List.mem_range'_1.mp hi
    have h0 : n + offset ≤ n + offset ∧ n + offset < n + offset + 2 ^ k := by omega
    have hne : (n + offset) % 2 ^ k ≠ (n + i) % 2 ^ k := by
      rw [ne_eq, mod_inj h0 ⟨by omega, by omega⟩]
      omega
    rw [List.getElem?_set_ne hne]

/-- What the loop meets, slot by slot. -/
lemma Slots.mem_dropLoop {k : ℕ} (hk : k < w) {n : ℕ} {buffer : List (Slot T)} {count : ℕ}
    (hc : count ≤ 2 ^ k) {s : Slot T} :
    s ∈ dropLoop (maskOf w k) (word w n) buffer 0 count ↔
      ∃ m, n ≤ m ∧ m < n + count ∧ s = (buffer[m % 2 ^ k]?).getD .uninit := by
  rw [dropLoop_eq hk n buffer hc, List.mem_map]
  constructor
  · rintro ⟨i, hi, rfl⟩
    have := List.mem_range'_1.mp hi
    exact ⟨n + i, by omega, by omega, rfl⟩
  · rintro ⟨m, h1, h2, rfl⟩
    exact ⟨m - n, List.mem_range'_1.mpr (by omega), by rw [Nat.add_sub_cancel' h1]⟩

/-- The items at the end of a window are in their slots. -/
lemma Slots.Holds.live {buf : List (Slot T)} {cap lo base m : ℕ} {l : List (Option T)}
    {r : List T} (h : Holds buf cap lo base (l ++ r.map some)) (hm : base + l.length ≤ m)
    (hlt : m < base + l.length + r.length) : ∃ x, buf[m % cap]? = some (.live x) := by
  have h1 := h.lo_le
  have h2 := h.le_hi
  simp only [List.length_append, List.length_map] at h2
  obtain ⟨i, rfl⟩ := Nat.exists_eq_add_of_le hm
  have hi : i < r.length := by omega
  refine ⟨r[i], ?_⟩
  rw [← itemAt_eq_some, h.item _ (by omega) (by omega), tape, if_neg (by omega), Nat.add_assoc,
    Nat.add_sub_cancel_left, List.getElem?_append_right (Nat.le_add_right _ _),
    Nat.add_sub_cancel_left, List.getElem?_map, List.getElem?_eq_getElem hi]
  rfl

end

/-! ### The LIFO queue -/

namespace Lifo

variable {w k : ℕ} {T A : Type*} {s : St w T A}

/-- `Queue::drop`: what its reads find. -/
def Queue.drop (q : Queue w T) : List (Slot T) :=
  let tail := q.pushCount - (unpack q.popCountAndHead).1
  let count := tail - q.head
  dropLoop q.mask q.head q.buffer 0 count.toNat

/-- No call is under way and no `Drain` is held. -/
def Quiescent (s : St w T A) : Prop := s.owner = .idle ∧ ∀ a, s.agent a = .idle

/-- No read of the run has met a slot without an item, and none of `Queue::drop` will: every
item is moved out or dropped at most once. -/
def ReleasedOnce (s : St w T A) : Prop :=
  s.fault = false ∧ ∀ sl ∈ s.queue.drop, ∃ x, sl = .live x

/-- When nothing is under way, the ring holds the booking of a lost `Drain` and the stored
items. -/
lemma Rel.quiescent {a : Deque.St T A} (h : Rel k s a) (hq : Quiescent s) :
    MemRel k s a [] ∧ (a.holder = .free ∨ a.holder = .lost) := by
  obtain ⟨extra, hm, ho, ha⟩ := h
  have he : extra = [] := by
    rw [hq.1] at ho
    generalize a.owner = o at ho
    cases ho
    rfl
  subst he
  refine ⟨hm, ?_⟩
  cases hh : a.holder with
  | free => exact .inl rfl
  | lost => exact .inr rfl
  | agent y =>
    have hy := ha y
    rw [hq.2 y] at hy
    generalize a.agent y = p at hy
    cases hy with
    | idle hn => exact absurd hh hn

/-- What `Queue::drop` meets: the slots of a lost booking and the stored items. -/
lemma MemRel.mem_drop {a : Deque.St T A} (hk : k < w) (hm : MemRel k s a []) {sl : Slot T} :
    sl ∈ s.queue.drop ↔ ∃ m, s.stolen - a.held ≤ m ∧ m < s.stolen + a.stored.length ∧
      sl = (s.queue.buffer[m % 2 ^ k]?).getD .uninit := by
  have hcap := hm.cap
  have hheld := hm.held
  have hlt := two_pow_lt hk
  have hpop : (unpack s.queue.popCountAndHead).1 = s.snap.popCount := rfl
  have hcount : s.queue.pushCount - (unpack s.queue.popCountAndHead).1 - s.queue.head =
      word w (a.held + a.stored.length) := by
    rw [hpop, hm.pushCount, hm.tail_eq, hm.used]
  rw [Queue.drop, hcount, hm.mask, hm.head, toNat_word (by omega), mem_dropLoop hk (by omega)]
  have e : s.stolen - a.held + (a.held + a.stored.length) = s.stolen + a.stored.length := by omega
  rw [e]

/-- The slots of the booking that were not read yet and those behind it hold items. -/
lemma MemRel.slot_live {a : Deque.St T A} (hm : MemRel k s a []) {m : ℕ}
    (h1 : s.stolen - a.lent.length ≤ m) (h2 : m < s.stolen + a.stored.length) :
    ∃ x, s.queue.buffer[m % 2 ^ k]? = some (.live x) := by
  have hle := hm.lent
  have hheld := hm.held
  have hring : Holds s.queue.buffer (2 ^ k) (s.stolen - a.held) (s.stolen - a.lent.length)
      ([] ++ (a.lent ++ a.stored).map some) := by simpa using hm.ring
  refine hring.live h1 ?_
  simp only [List.length_nil, List.length_append]
  omega

lemma releasedOnce_iff {a : Deque.St T A} (hk : k < w) (hm : MemRel k s a []) :
    ReleasedOnce s ↔ a.held = a.lent.length := by
  have hle := hm.lent
  have hheld := hm.held
  refine ⟨fun h => ?_, fun h => ⟨hm.fault, fun sl hsl => ?_⟩⟩
  · by_contra hne
    obtain ⟨y, hy⟩ := hm.moved (s.stolen - a.held) le_rfl (by omega)
    have hmem := (hm.mem_drop hk).mpr ⟨s.stolen - a.held, le_rfl, by omega, rfl⟩
    obtain ⟨x, hx⟩ := h.2 _ hmem
    rw [hy] at hx
    cases hx
  · obtain ⟨m, h1, h2, rfl⟩ := (hm.mem_drop hk).mp hsl
    obtain ⟨x, hx⟩ := hm.slot_live (by omega) h2
    exact ⟨x, by rw [hx]; rfl⟩

/-- A slot of the booking that was read is there just when a `Drain` was abandoned between
its first and its last item. -/
lemma held_eq_iff {a : Deque.St T A} (hm : MemRel k s a [])
    (hh : a.holder = .free ∨ a.holder = .lost) :
    a.held = a.lent.length ↔ ∀ e ∈ s.abandoned, e.1 = 0 ∨ e.2 = 0 := by
  have hle := hm.lent
  constructor
  · intro heq e he
    by_contra hne
    push Not at hne
    obtain ⟨-, rfl⟩ := hm.abandoned e he hne.2
    simp only at hne
    omega
  · intro hall
    rcases hh with hf | hl
    · have := hm.free.mp hf
      omega
    · obtain ⟨hne, hmem⟩ := hm.lost hl
      have hpos := List.length_pos_iff.mpr hne
      have := hall _ hmem
      simp only at this
      omega

end Lifo

/-! ### The FIFO queue -/

namespace Fifo

variable {w k : ℕ} {T A : Type*} {s : St w T A}

/-- `Queue::drop`: what its reads find. -/
def Queue.drop (q : Queue w T) : List (Slot T) :=
  let workerHead := (unpack q.heads).1
  let count := q.tail - workerHead
  dropLoop q.mask workerHead q.buffer 0 count.toNat

/-- No call is under way and no `Drain` is held. -/
def Quiescent (s : St w T A) : Prop := s.owner = .idle ∧ ∀ a, s.agent a = .idle

/-- No read of the run has met a slot without an item, and none of `Queue::drop` will: every
item is moved out or dropped at most once. -/
def ReleasedOnce (s : St w T A) : Prop :=
  s.fault = false ∧ ∀ sl ∈ s.queue.drop, ∃ x, sl = .live x

/-- What lies behind the worker head is stored, whatever became of the bookings. -/
lemma Rel.releasedOnce {a : Deque.St T A} (hk : k < w) (h : Rel k s a) (hq : Quiescent s) :
    ReleasedOnce s := by
  obtain ⟨fin, extra, pend, hm, ho, -⟩ := h
  obtain ⟨rfl, rfl⟩ : extra = [] ∧ pend = none := by
    rw [hq.1] at ho
    generalize a.owner = o at ho
    cases ho
    exact ⟨rfl, rfl⟩
  have hcap := hm.cap
  have hlent := hm.lent
  have hfin := hm.fin_le
  have hlt := two_pow_lt hk
  have hwh : (unpack s.queue.heads).1 = word w s.wh := by rw [hm.heads, unpack_pack]
  have hcount : s.queue.tail - (unpack s.queue.heads).1 = word w a.stored.length := by
    rw [hwh, hm.tail, word_sub (by omega), Nat.add_sub_cancel_left]
  refine ⟨hm.fault, fun sl hsl => ?_⟩
  rw [Queue.drop, hcount, hm.mask, hwh, toNat_word (by omega), mem_dropLoop hk (by omega)] at hsl
  obtain ⟨m, h1, h2, rfl⟩ := hsl
  have hring : Holds s.queue.buffer (2 ^ k) s.sh (fin - a.lent.length)
      (a.lent.map some ++ List.replicate (s.wh - fin) none ++ a.stored.map some) := by
    simpa using hm.ring
  have hlen : fin - a.lent.length + (a.lent.map some ++
      List.replicate (s.wh - fin) (none : Option T)).length = s.wh := by
    simp only [List.length_append, List.length_map, List.length_replicate]
    omega
  obtain ⟨x, hx⟩ := hring.live (hlen.trans_le h1) (by rw [hlen]; exact h2)
  exact ⟨x, by rw [hx]; rfl⟩

end Fifo

/-! ### Both queues -/

variable {w : ℕ} {T A : Type*} [DecidableEq A]

/-- **No double release**: in the FIFO queue never, whatever became of its `Drain`s; in the
LIFO queue just when no `Drain` was abandoned between its first and its last item. -/
theorem drop_releases_once (hw : 0 < w) :
    (∀ {tr : List (Deque.Event T A)} {s : Lifo.St w T A}, (Lifo.lts w T A).Reaches tr s →
      Lifo.Quiescent s → (Lifo.ReleasedOnce s ↔ ∀ e ∈ s.abandoned, e.1 = 0 ∨ e.2 = 0)) ∧
    ∀ {tr : List (Deque.Event T A)} {s : Fifo.St w T A}, (Fifo.lts w T A).Reaches tr s →
      Fifo.Quiescent s → Fifo.ReleasedOnce s := by
  constructor
  · intro tr s h hq
    obtain ⟨k, hk, a, -, hr⟩ := Lifo.reaches_sim hw h
    obtain ⟨hm, hh⟩ := hr.quiescent hq
    rw [Lifo.releasedOnce_iff hk hm, Lifo.held_eq_iff hm hh]
  · intro tr s h hq
    obtain ⟨k, hk, a, -, hr⟩ := Fifo.reaches_sim hw h
    exact hr.releasedOnce hk hq

/-- A `Drain` booked in `n` steps is leaked after its first item. -/
def leakCmds {w : ℕ} (n : ℕ) (c : Deque.Choice ℕ Unit) : List (Deque.Cmd w ℕ Unit) :=
  Deque.Cmd.call .drain :: List.replicate n (Deque.Cmd.owner c) ++
    Deque.Cmd.start () .next 0 :: List.replicate 2 (Deque.Cmd.agent () c) ++
    [Deque.Cmd.forget ()]

/-- The LIFO queue then drops the first item although it was handed out. -/
theorem lifo_drop_releases_twice : ¬ ∀ (tr : List (Deque.Event ℕ Unit)) (s : Lifo.St 4 ℕ Unit),
    (Lifo.lts 4 ℕ Unit).Reaches tr s → Lifo.Quiescent s → Lifo.ReleasedOnce s := by
  intro h
  have hr : (Lts.runs Lifo.step Lifo.Timely
      (Lifo.pushCmds 7 ++ Lifo.pushCmds 8 ++ leakCmds 5 Lifo.greedy) Lifo.twoSlots).map
      (fun r => (r.2.owner, r.2.agent (), r.2.queue.drop)) =
      some (.idle, .idle, [.moved 7, .live 8]) := by decide
  obtain ⟨tr, s, hs, hv⟩ := Lts.exists_reaches_of_runs _ Lifo.twoSlots_init hr
  simp only [Prod.mk.injEq] at hv
  obtain ⟨ho, ha, hd⟩ := hv
  obtain ⟨-, hlive⟩ := h tr s hs ⟨ho, fun _ => ha⟩
  obtain ⟨x, hx⟩ := hlive (.moved 7) (by simp [hd])
  cases hx

/-- The FIFO queue leaks the second item instead. -/
theorem drop_releases_once_leak : ∃ tr, ∃ s : Fifo.St 4 ℕ Unit, (Fifo.lts 4 ℕ Unit).Reaches tr s ∧
    Deque.Event.forget () ∈ tr ∧ Fifo.ReleasedOnce s := by
  have hr : (Lts.runs Fifo.step Fifo.Timely
      (Fifo.pushCmds 7 ++ Fifo.pushCmds 8 ++ leakCmds 4 ⟨false, 2, none, .error .empty, ()⟩)
      Fifo.twoSlots).map (fun r => (r.2.owner, r.2.agent (), decide (.forget () ∈ r.1))) =
      some (.idle, .idle, true) := by decide
  obtain ⟨tr, s, hs, hv⟩ := Lts.exists_reaches_of_runs _ Fifo.twoSlots_init hr
  simp only [Prod.mk.injEq, decide_eq_true_eq] at hv
  obtain ⟨ho, ha, hd⟩ := hv
  exact ⟨tr, s, hs, hd, (drop_releases_once (by decide)).2 hs ⟨ho, fun _ => ha⟩⟩

end St3
