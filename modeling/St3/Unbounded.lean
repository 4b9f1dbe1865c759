import St3.Lts
import Mathlib.Data.List.Basic
import Mathlib.Logic.Function.Basic

/-!
The unbounded queue that the injector stands for, as an atomic object.

`pushed` lists every value that ever took a ticket, in the order of the tickets; `popped`
counts the tickets that pops have taken. A call is a visible event, its effect is one
internal step some time later, and its result is a visible event again.

The word of a call that was `lapped` is worth nothing: it has found the queue empty on a view of
it that is too old, and the trace says so.
-/

namespace St3.Unbounded

inductive Op (T : Type*)
  | push (x : T)
  | pop
  | isEmpty
  deriving DecidableEq, Repr

inductive Res (T : Type*)
  | pushed
  | popped (o : Option T)
  | isEmpty (b : Bool)
  deriving DecidableEq, Repr

inductive Event (T A : Type*)
  | call (a : A) (op : Op T)
  | ret (a : A) (r : Res T)
  | lapped (a : A)
  deriving DecidableEq, Repr

inductive ThreadSt (T : Type*)
  | idle
  | called (op : Op T)
  | done (r : Res T)

structure St (T A : Type*) where
  pushed : List T
  popped : ℕ
  thread : A → ThreadSt T

variable {T A : Type*} [DecidableEq A]

def St.setThread (s : St T A) (a : A) (p : ThreadSt T) : St T A :=
  { s with thread := Function.update s.thread a p }

/-- The push with ticket `n` is the `n`-th, and so is the pop. A pop finds nothing, and the
queue is empty, when pops have taken every ticket that pushes have. -/
inductive Step : St T A → Option (Event T A) → St T A → Prop
  | call {s} {a : A} (op : Op T) (h : s.thread a = .idle) :
      Step s (some (.call a op)) (s.setThread a (.called op))
  | ret {s} {a : A} {r : Res T} (h : s.thread a = .done r) :
      Step s (some (.ret a r)) (s.setThread a .idle)
  | push {s} {a : A} {x : T} (h : s.thread a = .called (.push x)) :
      Step s none ({ s with pushed := s.pushed ++ [x] }.setThread a (.done .pushed))
  | pop {s} {a : A} {x : T} (h : s.thread a = .called .pop) (hx : s.pushed[s.popped]? = some x) :
      Step s none ({ s with popped := s.popped + 1 }.setThread a (.done (.popped (some x))))
  | popNone {s} {a : A} (h : s.thread a = .called .pop) (he : s.popped = s.pushed.length) :
      Step s none (s.setThread a (.done (.popped none)))
  | isEmpty {s} {a : A} {b : Bool} (h : s.thread a = .called .isEmpty)
      (he : b = true → s.popped = s.pushed.length) :
      Step s none (s.setThread a (.done (.isEmpty b)))
  | popLapped {s} {a : A} (h : s.thread a = .called .pop) :
      Step s (some (.lapped a)) (s.setThread a (.done (.popped none)))
  | isEmptyLapped {s} {a : A} {b : Bool} (h : s.thread a = .called .isEmpty) :
      Step s (some (.lapped a)) (s.setThread a (.done (.isEmpty b)))

def init : St T A where
  pushed := []
  popped := 0
  thread := fun _ => .idle

def lts (T A : Type*) [DecidableEq A] : Lts (St T A) (Event T A) where
  init := (· = init)
  step := Step

/-- Pops never overtake pushes. -/
theorem popped_le_of_reaches {tr : List (Event T A)} {s : St T A}
    (h : (lts T A).Reaches tr s) : s.popped ≤ s.pushed.length := by
  refine Lts.Reaches.invariant (fun s => s.popped ≤ s.pushed.length) ?_ ?_ h
  · rintro s rfl
    exact Nat.le_refl _
  · intro tr s l s' _ hs h
    cases h with
    | push => simpa [St.setThread] using Nat.le_succ_of_le hs
    | pop h hx => exact (List.getElem?_eq_some_iff.mp hx).1
    | _ => exact hs

end St3.Unbounded
