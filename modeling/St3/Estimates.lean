import St3.LifoSim
import St3.FifoSim
import Mathlib.Data.List.Count

/-!
What the owner of a queue may rely on after `spare_capacity` and `is_empty`.

Both are promises about the calls to come: whatever stealers do, they only make room and take
items away. The promises are proved of the abstract deque, and carried over to the two queues
by their simulations.
-/

namespace St3.Lts

variable {σ ε : Type*} {L : Lts σ ε}

/-- An invariant of the steps of a run. -/
lemma Steps.invariant {inv : σ → Prop} (hs : ∀ {s l s'}, inv s → L.step s l s' → inv s')
    {s s' : σ} {tr : List ε} (h : L.Steps s tr s') (h0 : inv s) : inv s' := by
  induction h with
  | refl => exact h0
  | head hstep _ ih => exact ih (hs h0 hstep)

end St3.Lts

namespace St3.Deque

variable {T A : Type*}

/-- What the owner calls in a trace. -/
def calls (tr : List (Event T A)) : List (Op T) :=
  tr.filterMap fun
    | .call op => some op
    | _ => none

/-- What an iterator yields in a trace. -/
def pulled (tr : List (Event T A)) : List T :=
  tr.filterMap fun
    | .pull o => o
    | _ => none

@[simp] lemma calls_nil : calls ([] : List (Event T A)) = [] := rfl
@[simp] lemma pulled_nil : pulled ([] : List (Event T A)) = [] := rfl

lemma calls_append (tr tr' : List (Event T A)) : calls (tr ++ tr') = calls tr ++ calls tr' := by
  simp [calls]

lemma pulled_append (tr tr' : List (Event T A)) :
    pulled (tr ++ tr') = pulled tr ++ pulled tr' := by
  simp [pulled]

def Op.isPush : Op T → Bool
  | .push _ => true
  | _ => false

/-- The call may add items to the queue. -/
def Op.adds : Op T → Bool
  | .push _ | .extend | .receive _ => true
  | _ => false

/-- The slots that are in use: stored items, and those a booking has not given back. -/
def St.used (s : St T A) : ℕ := s.held + s.stored.length

variable [DecidableEq A] {fl : Flavour} {cap : ℕ} {s s' : St T A} {l : Option (Event T A)}

/-- A step of an agent: it leaves the owner alone, uses no more slots and adds no items. -/
structure Quieter (s s' : St T A) : Prop where
  owner : s'.owner = s.owner
  used : s'.used ≤ s.used
  entered : s'.entered = s.entered
  stored : s.stored = [] → s'.stored = []

/-- The owner makes its step, or an agent makes one, which the owner does not see. -/
lemma Step.quieter (h : Step fl cap s l s') :
    s.owner = .idle ∧ (∃ op, l = some (.call op)) ∨ s.owner ≠ .idle ∧ s'.owner ≠ s.owner ∨
      Quieter s s' ∧ calls l.toList = [] ∧ pulled l.toList = [] ∧ ∀ r, l ≠ some (.ret r) := by
  have quiet : ∀ {s' : St T A}, s'.owner = s.owner → s'.held ≤ s.held → s'.stored = s.stored →
      s'.entered = s.entered → Quieter s s' := fun h1 h2 h3 h4 =>
    ⟨h1, by simp only [St.used, h3]; omega, h4, fun h => h3 ▸ h⟩
  cases h with
  | call op h => exact .inl ⟨h, op, rfl⟩
  | @book a _ n h hb h0 hn =>
    refine .inr (.inr ⟨⟨rfl, ?_, rfl, fun hs => ?_⟩, rfl, rfl, by simp⟩)
    · simp only [St.used, St.setAgent, St.book, List.length_drop]
      omega
    · simp [St.setAgent, St.book, hs]
  | steal | stealErr | deliver | last | moved | finish | next | drop | nextNone | nextSome
  | nextLast | yielded | dropItem | dropped | forget | leak =>
    exact .inr (.inr ⟨quiet rfl le_rfl rfl rfl, rfl, rfl, by simp⟩)
  | release | releaseLast =>
    exact .inr (.inr ⟨quiet rfl (Nat.zero_le _) rfl rfl, rfl, rfl, by simp⟩)
  | _ => exact .inr (.inl (by simp [*]))

/-- The owner returns the result that it has. -/
lemma Step.of_done {r : Res T A} (hs : Step fl cap s l s') (h : s.owner = .done r)
    (hch : s'.owner ≠ s.owner) : l = some (.ret r) ∧ s' = { s with owner := .idle } := by
  cases hs <;> first
    | exact absurd rfl hch
    | (simp only [h, reduceCtorEq] at *; done)
    | skip
  case ret r' hr =>
    cases h.symm.trans hr
    exact ⟨rfl, rfl⟩

/-! ### Room for pushes -/

/-- The owner is pushing, and there is room for `b` pushes that it has not called yet. -/
inductive RoomFor (cap b : ℕ) (s : St T A) : Prop
  | idle (h : s.owner = .idle) (hr : s.used + b ≤ cap)
  | done {r : Res T A} (h : s.owner = .done r) (hne : ∀ x, r ≠ .pushErr x) (hr : s.used + b ≤ cap)
  | called {x : T} (h : s.owner = .called (.push x)) (hr : s.used + b + 1 ≤ cap)

omit [DecidableEq A] in
lemma RoomFor.quieter {b : ℕ} (h : RoomFor cap b s) (hq : Quieter s s') : RoomFor cap b s' := by
  have hu := hq.used
  cases h with
  | idle h hr => exact .idle (hq.owner.trans h) (by omega)
  | done h hne hr => exact .done (hq.owner.trans h) hne (by omega)
  | called h hr => exact .called (hq.owner.trans h) (by omega)

lemma RoomFor.step {b : ℕ} (h : RoomFor cap b s) (hs : Step fl cap s l s')
    (hc : ∀ op ∈ calls l.toList, op.isPush = true ∧ 0 < b) :
    RoomFor cap (b - (calls l.toList).length) s' ∧ ∀ x, l ≠ some (.ret (.pushErr x)) := by
  rcases hs.quieter with ⟨ho, op, rfl⟩ | ⟨hne, hch⟩ | ⟨hq, hcalls, -, hret⟩
  · cases hs with
    | call op hidle =>
      obtain ⟨hpush, h0⟩ := hc op (by simp [calls])
      refine ⟨?_, by simp⟩
      cases h with
      | idle _ hr =>
        cases op with
        | push x =>
          refine .called rfl ?_
          simp only [calls, Option.toList_some, List.filterMap_cons, List.filterMap_nil,
            List.length_singleton]
          show s.used + (b - 1) + 1 ≤ cap
          omega
        | _ => cases hpush
      | done h => rw [hidle] at h; cases h
      | called h => rw [hidle] at h; cases h
  · cases h with
    | idle h => exact absurd h hne
    | done h hdone hr =>
      obtain ⟨rfl, rfl⟩ := hs.of_done h hch
      exact ⟨.idle rfl hr, by simpa using hdone⟩
    | @called x h hr =>
      cases hs <;> first
        | exact absurd rfl hch
        | (simp only [h, reduceCtorEq, OwnerSt.called.injEq] at *; done)
        | skip
      case pushOk y hy hlt =>
        rw [h] at hy
        cases hy
        refine ⟨.done rfl (by simp) ?_, by simp⟩
        simp only [St.used, St.append, List.length_append, List.length_singleton, calls_nil,
          Option.toList_none, List.length_nil] at hr ⊢
        omega
      case pushFull y hy hfull =>
        unfold St.used at hr
        omega
  · rw [hcalls]
    exact ⟨h.quieter hq, fun x => hret _⟩

/-- **Room kept**: with room for `b` pushes, `b` pushes succeed. -/
lemma RoomFor.run {b : ℕ} {tr : List (Event T A)} (h : RoomFor cap b s)
    (hs : (lts fl cap).Steps s tr s') (hp : ∀ op ∈ calls tr, op.isPush = true)
    (hb : (calls tr).length ≤ b) : ∀ x, .ret (.pushErr x) ∉ tr := by
  induction hs generalizing b with
  | refl => simp
  | @head s s₁ s₂ l tr hstep _ ih =>
    rw [calls_append, List.length_append] at hb
    simp only [calls_append, List.mem_append] at hp
    obtain ⟨h', hne⟩ := h.step hstep fun op hop =>
      ⟨hp op (.inl hop), (List.length_pos_of_mem hop).trans_le (by omega)⟩
    have hrest := ih h' (fun op hop => hp op (.inr hop)) (by omega)
    intro x hx
    rcases List.mem_append.mp hx with hx | hx
    · exact hne x (by simpa using hx)
    · exact hrest x hx

/-! ### Room for an extend -/

/-- The owner is extending, has pulled the items `got`, and has room for `b` more. -/
inductive Extending (cap b : ℕ) (e : List T) (s : St T A) (got : List T) : Prop
  | idle (h : s.owner = .idle) (hg : got = []) (he : s.entered = e) (hr : s.used + b ≤ cap)
  | called (h : s.owner = .called .extend) (hg : got = []) (he : s.entered = e)
      (hr : s.used + b ≤ cap)
  | pulling {room : ℕ} (h : s.owner = .extending room got) (he : s.entered = e)
      (hr : got.length + b ≤ room)
  | storing (h : s.owner = .storing got .extended) (he : s.entered = e)
  | done (h : s.owner = .done .extended) (he : s.entered = e ++ got)
  | returned (h : s.owner = .idle) (he : s.entered = e ++ got)

omit [DecidableEq A] in
lemma Extending.quieter {b : ℕ} {e got : List T} (h : Extending cap b e s got)
    (hq : Quieter s s') : Extending cap b e s' got := by
  have hu := hq.used
  cases h with
  | idle h hg he hr => exact .idle (hq.owner.trans h) hg (hq.entered.trans he) (by omega)
  | called h hg he hr => exact .called (hq.owner.trans h) hg (hq.entered.trans he) (by omega)
  | pulling h he hr => exact .pulling (hq.owner.trans h) (hq.entered.trans he) hr
  | storing h he => exact .storing (hq.owner.trans h) (hq.entered.trans he)
  | done h he => exact .done (hq.owner.trans h) (hq.entered.trans he)
  | returned h he => exact .returned (hq.owner.trans h) (hq.entered.trans he)

/-- Between its call and its return. -/
lemma Extending.step {b : ℕ} {e got : List T} (h : Extending cap b e s got)
    (hne : s.owner ≠ .idle) (hs : Step fl cap s l s') (hb : (pulled l.toList).length ≤ b) :
    calls l.toList = [] ∧
      Extending cap (b - (pulled l.toList).length) e s' (got ++ pulled l.toList) := by
  rcases hs.quieter with ⟨ho, -⟩ | ⟨-, hch⟩ | ⟨hq, hcalls, hpulled, -⟩
  · exact absurd ho hne
  · cases h with
    | idle h => exact absurd h hne
    | returned h => exact absurd h hne
    | called h hg he hr =>
      cases hs <;> first
        | exact absurd rfl hch
        | (simp only [h, reduceCtorEq, OwnerSt.called.injEq] at *; done)
        | skip
      case lookExtend =>
        subst hg
        refine ⟨rfl, .pulling rfl he ?_⟩
        show 0 + b ≤ cap - s.used
        omega
    | pulling h he hr =>
      cases hs <;> first
        | exact absurd rfl hch
        | (simp only [h, reduceCtorEq] at *; done)
        | skip
      case pull room' got' x ho hlt =>
        rw [h] at ho
        cases ho
        refine ⟨rfl, .pulling rfl he ?_⟩
        simp only [pulled, Option.toList_some, List.filterMap_cons, List.filterMap_nil,
          List.length_append, List.length_singleton] at hb ⊢
        omega
      case pullFull room' got' x ho hfull =>
        rw [h] at ho
        cases ho
        simp only [pulled, Option.toList_some, List.filterMap_cons, List.filterMap_nil,
          List.length_singleton] at hb
        omega
      case pullEnd room' got' ho =>
        rw [h] at ho
        cases ho
        exact ⟨rfl, .storing (by simp [pulled]) he⟩
    | storing h he =>
      cases hs <;> first
        | exact absurd rfl hch
        | (simp only [h, reduceCtorEq] at *; done)
        | skip
      case store got' r ho =>
        rw [h] at ho
        cases ho
        exact ⟨rfl, .done rfl (by simp [St.append, he])⟩
    | done h he =>
      obtain ⟨rfl, rfl⟩ := hs.of_done h hch
      exact ⟨rfl, .returned rfl (by simpa [pulled] using he)⟩
  · rw [hpulled, hcalls]
    exact ⟨rfl, by simpa using h.quieter hq⟩

/-- The owner calls `extend`. -/
lemma Extending.call {b : ℕ} {e : List T} (he : s.entered = e)
    (hr : s.used + b ≤ cap) (hs : Step fl cap s (some (.call .extend)) s') :
    Extending cap b e s' [] := by
  cases hs with
  | call op _ => exact .called rfl rfl he hr

/-- A run without calls of the owner. -/
lemma Extending.rest {b : ℕ} {e got : List T} {tr : List (Event T A)}
    (h : Extending cap b e s got) (hs : (lts fl cap).Steps s tr s') (hc : calls tr = [])
    (hb : (pulled tr).length ≤ b) :
    Extending cap (b - (pulled tr).length) e s' (got ++ pulled tr) := by
  induction hs generalizing b got with
  | refl => simpa using h
  | @head s s₁ s₂ l tr hstep _ ih =>
    rw [calls_append, List.append_eq_nil_iff] at hc
    rw [pulled_append, List.length_append] at hb
    rw [pulled_append, List.length_append, ← List.append_assoc, ← Nat.sub_sub]
    refine ih ?_ hc.2 (by omega)
    by_cases hidle : s.owner = .idle
    · rcases Step.quieter hstep with ⟨-, op, rfl⟩ | ⟨hne, -⟩ | ⟨hq, -, hpulled, -⟩
      · simp [calls] at hc
      · exact absurd hidle hne
      · rw [hpulled]
        simpa using h.quieter hq
    · exact (h.step hidle hstep (by omega)).2

/-- The queue is empty, and the owner is in no call that adds items. -/
inductive Drained (s : St T A) : Prop
  | idle (h : s.owner = .idle) (he : s.stored = [])
  | called {op : Op T} (h : s.owner = .called op) (hop : op.adds = false) (he : s.stored = [])
  | done {r : Res T A} (h : s.owner = .done r) (hr : ∀ x, r ≠ .popped (some x)) (he : s.stored = [])

omit [DecidableEq A] in
lemma Drained.quieter (h : Drained s) (hq : Quieter s s') : Drained s' := by
  cases h with
  | idle h he => exact .idle (hq.owner.trans h) (hq.stored he)
  | called h hop he => exact .called (hq.owner.trans h) hop (hq.stored he)
  | done h hr he => exact .done (hq.owner.trans h) hr (hq.stored he)

lemma Flavour.not_takes_nil {x : T} {rest : List T} : ¬ fl.Takes [] x rest := by
  cases fl <;> simp [Takes]

lemma Drained.step (h : Drained s) (hs : Step fl cap s l s')
    (hc : ∀ op ∈ calls l.toList, op.adds = false) :
    Drained s' ∧ ∀ x, l ≠ some (.ret (.popped (some x))) := by
  rcases hs.quieter with ⟨ho, op, rfl⟩ | ⟨hne, hch⟩ | ⟨hq, -, -, hret⟩
  · cases hs with
    | call op hidle =>
      refine ⟨.called rfl (hc op (by simp [calls])) ?_, by simp⟩
      cases h <;> assumption
  · cases h with
    | idle h => exact absurd h hne
    | done h hr he =>
      obtain ⟨rfl, rfl⟩ := hs.of_done h hch
      exact ⟨.idle rfl he, by simpa using hr⟩
    | @called op h hop he =>
      cases hs <;> first | exact absurd rfl hch | (simp only [h, reduceCtorEq] at *; done) | skip
      case pop x rest _ ht => exact absurd (he ▸ ht) Flavour.not_takes_nil
      case drain h0 hn => simp [he] at hn; omega
      case popNone | spare | isEmpty | drainErr => exact ⟨.done rfl (by simp) he, by simp⟩
      case pushOk x ho _ | pushFull x ho _ | lookExtend ho | lookReceive x ho =>
        rw [h] at ho
        cases ho
        cases hop
  · exact ⟨h.quieter hq, fun x => hret _⟩

/-- **Empty stays empty**: no pop takes an item before the owner adds some. -/
lemma Drained.run {tr : List (Event T A)} (h : Drained s) (hs : (lts fl cap).Steps s tr s')
    (hc : ∀ op ∈ calls tr, op.adds = false) : ∀ x, .ret (.popped (some x)) ∉ tr := by
  induction hs with
  | refl => simp
  | @head s s₁ s₂ l tr hstep _ ih =>
    simp only [calls_append, List.mem_append] at hc
    obtain ⟨h', hne⟩ := h.step hstep fun op hop => hc op (.inl hop)
    have hrest := ih h' fun op hop => hc op (.inr hop)
    intro x hx
    rcases List.mem_append.mp hx with hx | hx
    · exact hne x (by simpa using hx)
    · exact hrest x hx

/-! ### What the estimates say -/

/-- A result of `spare_capacity` or `is_empty` that waits to be returned is still true. -/
structure Honest (cap : ℕ) (s : St T A) : Prop where
  spare : ∀ c, s.owner = .done (.spare c) → c = 0 ∨ s.used + c ≤ cap
  isEmpty : s.owner = .done (.isEmpty true) → s.stored = []
  storing : ∀ got r, s.owner = .storing got r → (∀ c, r ≠ .spare c) ∧ ∀ b, r ≠ .isEmpty b

lemma Honest.step (h : Honest cap s) (hs : Step fl cap s l s') : Honest cap s' := by
  rcases hs.quieter with ⟨-, op, rfl⟩ | ⟨-, hch⟩ | ⟨hq, -⟩
  · cases hs
    exact ⟨by simp, by simp, by simp⟩
  · cases hs <;> first | exact absurd rfl hch | skip
    case spare =>
      refine ⟨fun c hc => ?_, by simp, by simp⟩
      simp only [OwnerSt.done.injEq, Res.spare.injEq, St.room] at hc
      simp only [St.used]
      omega
    case isEmpty => exact ⟨by simp, by simp, by simp⟩
    case store got r ho =>
      obtain ⟨h1, h2⟩ := h.storing got r ho
      exact ⟨by simp [h1], by simp [h2], by simp⟩
    all_goals exact ⟨by simp, by simp, by simp⟩
  · have hu := hq.used
    refine ⟨fun c hc => ?_, fun he => hq.stored (h.isEmpty (hq.owner ▸ he)), fun got r ho =>
      h.storing got r (hq.owner ▸ ho)⟩
    have := h.spare c (hq.owner ▸ hc)
    omega

end St3.Deque

namespace St3

open Words Slots Deque

variable {w : ℕ} {T A : Type*} [DecidableEq A]

/-- `capacity - used` does not underflow, and is at most the capacity. -/
def Subtracts (capacity used : BitVec w) : Prop :=
  used ≤ capacity ∧ capacity - used ≤ capacity

namespace Lifo

/-- The subtractions from the capacity, in `spare_capacity` and at the head of `steal`. -/
def St.Subtracts (s : St w T A) : Prop :=
  (∀ tail, s.owner = .spareLoadHead tail →
      St3.Subtracts s.queue.capacity (tail - s.queue.head)) ∧
    ∀ m pushCount tail, s.owner = .recvLoadHead m pushCount tail →
      St3.Subtracts s.queue.capacity (tail - s.queue.head)

end Lifo

namespace Fifo

/-- The subtractions from the capacity, in `spare_capacity` and at the head of `steal`. -/
def St.Subtracts (s : St w T A) : Prop :=
  (∀ stealerHead, s.owner = .spareLoadTail stealerHead →
      St3.Subtracts s.queue.capacity (s.queue.tail - stealerHead)) ∧
    ∀ m tail, s.owner = .recvLoadHeads m tail →
      St3.Subtracts s.queue.capacity (tail - s.snap.stealerHead)

end Fifo

/-- An item is pushed, a stealer books it, and the owner calls `spare_capacity`. -/
def Lifo.booked : List (Cmd 4 ℕ Unit) :=
  Lifo.pushCmds 7 ++ Cmd.start () (.steal false) 2 ::
    List.replicate 3 (Cmd.agent () Lifo.greedy) ++ [Cmd.call .spareCapacity]

def Lifo.popCmds : List (Cmd 4 ℕ Unit) := .call .pop :: List.replicate 5 (.owner Lifo.greedy)

def Fifo.popCmds : List (Cmd 4 ℕ Unit) := .call .pop :: List.replicate 5 (.owner Fifo.modest)

/-- Fourteen items are pushed and popped, one after the other. -/
def Lifo.churn : List (Cmd 4 ℕ Unit) :=
  (List.replicate 14 (Lifo.pushCmds 7 ++ Lifo.popCmds)).flatten

def Fifo.churn : List (Cmd 4 ℕ Unit) :=
  (List.replicate 14 (Fifo.pushCmds 7 ++ Fifo.popCmds)).flatten

end St3
