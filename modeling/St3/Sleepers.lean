import St3.Lts
import Mathlib.Algebra.BigOperators.Group.List.Basic
import Mathlib.Algebra.Order.Group.Multiset
import Mathlib.Data.Finset.Card
import Mathlib.Data.Multiset.AddSub

/-!
Sleepers and the threads that claim them.

A sleeper announces itself in a set. A claimer takes one that it finds there, or gives up when
it finds none but the one it leaves out; whom it has taken it unparks, and when it gives up it
may unpark somebody else instead.
-/

namespace St3.Sleepers

inductive Event (W : Type*)
  | announced (w : W)
  | resumed (w : W)
  /-- A claimer that leaves `except` out has taken `w`. -/
  | claimed (except : Option W) (w : W)
  /-- A claimer that wants nobody else has taken `w`. -/
  | called (w : W)
  | gaveUp (except fallback : Option W)
  | unparked (w : W)
  deriving DecidableEq

/-- The sleepers that are announced, and the unparks that are still to be made. -/
@[ext]
structure State (W : Type*) where
  asleep : Finset W
  due : Multiset W

variable {W : Type*} [DecidableEq W]

inductive Step : State W → Event W → State W → Prop
  | announced {s : State W} (w : W) :
      Step s (.announced w) { s with asleep := insert w s.asleep }
  | resumed {s : State W} (w : W) : Step s (.resumed w) { s with asleep := s.asleep.erase w }
  | claimed {s : State W} {except : Option W} {w : W} (hw : w ∈ s.asleep) (he : except ≠ some w) :
      Step s (.claimed except w) ⟨s.asleep.erase w, w ::ₘ s.due⟩
  | called {s : State W} {w : W} (hw : w ∈ s.asleep) :
      Step s (.called w) ⟨s.asleep.erase w, w ::ₘ s.due⟩
  | gaveUp {s : State W} {except : Option W} (fallback : Option W)
      (h : ∀ w ∈ s.asleep, except = some w) :
      Step s (.gaveUp except fallback) { s with due := ↑fallback.toList + s.due }
  | unparked {s : State W} {w : W} (hw : w ∈ s.due) :
      Step s (.unparked w) { s with due := s.due.erase w }

/-- The system: at first nobody sleeps. A step that shows nothing changes nothing. -/
def lts (W : Type*) [DecidableEq W] : Lts (State W) (Event W) where
  init s := s = ⟨∅, 0⟩
  step s l s' :=
    match l with
    | none => s' = s
    | some e => Step s e s'

/-! ### Every announcement is claimed once -/

/-- The sleeper that is taken. -/
def Event.taken : Event W → Option W
  | .claimed _ w => some w
  | .called w => some w
  | _ => none

/-- Of the sleepers in `asleep`, who leaves `x` out and who leaves `y` out leave out the same. -/
def SameOut (asleep : Finset W) (x y : Option W) : Prop := ∀ w ∈ asleep, x = some w ↔ y = some w

/-- Nobody announces itself or resumes, and of the sleepers in `asleep` every claimer leaves out
the one that `except` is, or none if it is none of them. -/
def Event.Quiet (asleep : Finset W) (except : Option W) : Event W → Prop
  | .announced _ => False
  | .resumed _ => False
  | .claimed x _ => SameOut asleep x except
  | .gaveUp x _ => SameOut asleep x except
  | _ => True

omit [DecidableEq W] in
/-- A claimer that leaves out somebody who does not sleep leaves out nobody. -/
lemma SameOut.none {asleep : Finset W} {x : Option W} (hx : ∀ w, x = some w → w ∉ asleep) :
    SameOut asleep x none := by
  intro w hw
  constructor
  · exact fun h => absurd hw (hx w h)
  · exact fun h => by cases h

omit [DecidableEq W] in
lemma Event.Quiet.mono {asleep asleep' : Finset W} {except : Option W} {e : Event W}
    (h : e.Quiet asleep except) (hsub : asleep' ⊆ asleep) : e.Quiet asleep' except := by
  cases e with
  | claimed x w => exact fun u hu => h u (hsub hu)
  | gaveUp x fallback => exact fun u hu => h u (hsub hu)
  | _ => exact h

/-- The calls that return: they have taken somebody, other than the one left out, or have given
up. -/
def Event.returned (except : Option W) : Event W → Bool
  | .claimed .. => true
  | .called w => decide (except ≠ some w)
  | .gaveUp .. => true
  | _ => false

/-- The sleeper that is taken, if it is not the one left out. -/
def Event.takenBut (except : Option W) (e : Event W) : Option W :=
  e.taken.filter fun w => decide (except ≠ some w)

/-- The sleepers that are not left out. -/
def State.others (s : State W) (except : Option W) : Finset W :=
  s.asleep.filter fun w => except ≠ some w

lemma Step.quiet {s s' : State W} {e : Event W} (h : Step s e s') {except : Option W}
    (hq : e.Quiet s.asleep except) :
    (∃ w ∈ s.others except, e.takenBut except = some w ∧ e.returned except ∧
      s'.others except = (s.others except).erase w) ∨
    (e.takenBut except = none ∧ s'.others except = s.others except ∧
      (e.returned except → s'.others except = ∅)) := by
  cases h with
  | announced | resumed => exact hq.elim
  | @claimed x w hw he =>
    have hne : except ≠ some w := fun h => he ((hq w hw).mpr h)
    refine .inl ⟨w, ?_, ?_, rfl, ?_⟩
    · simp [State.others, hw, hne]
    · simp [Event.takenBut, Event.taken, hne]
    · exact Finset.filter_erase _ _ _
  | @called w hw =>
    by_cases he : except = some w
    · refine .inr ⟨by simp [Event.takenBut, Event.taken, he], ?_, by simp [Event.returned, he]⟩
      ext u
      simp only [State.others, Finset.mem_filter, Finset.mem_erase, he]
      constructor
      · exact fun hu => ⟨hu.1.2, hu.2⟩
      · exact fun hu => ⟨⟨fun h => hu.2 (by rw [h]), hu.1⟩, hu.2⟩
    · refine .inl ⟨w, ?_, ?_, by simp [Event.returned, he], ?_⟩
      · simp [State.others, hw, he]
      · simp [Event.takenBut, Event.taken, he]
      · exact Finset.filter_erase _ _ _
  | @gaveUp x fallback hnone =>
    refine .inr ⟨rfl, rfl, fun _ => ?_⟩
    exact Finset.filter_eq_empty_iff.mpr fun w hw => not_not.mpr ((hq w hw).mp (hnone w hw))
  | unparked => exact .inr ⟨rfl, rfl, fun h => by cases h⟩

/-- The unparks that an event makes due. -/
def Event.owed : Event W → Multiset W
  | .claimed _ w => {w}
  | .called w => {w}
  | .gaveUp _ fallback => ↑fallback.toList
  | _ => 0

/-- The unpark that is made. -/
def Event.paid : Event W → Multiset W
  | .unparked w => {w}
  | _ => 0

lemma Step.due {s s' : State W} {e : Event W} (h : Step s e s') :
    s'.due + e.paid = s.due + e.owed := by
  cases h with
  | announced | resumed => rfl
  | claimed => simp [Event.paid, Event.owed, ← Multiset.singleton_add, add_comm]
  | called => simp [Event.paid, Event.owed, ← Multiset.singleton_add, add_comm]
  | gaveUp => simp [Event.paid, Event.owed, add_comm]
  | unparked hw =>
    simp only [Event.paid, Event.owed, add_zero]
    rw [add_comm, Multiset.singleton_add, Multiset.cons_erase hw]

end St3.Sleepers
