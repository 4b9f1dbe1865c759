import Mathlib.Algebra.BigOperators.Group.Finset.Basic
import Mathlib.Data.Fintype.Basic
import Mathlib.Tactic.Lemma

/-!
Sums over finitely many places of which one or two change.

A ledger adds up what its places hold. When a place changes, the total changes by what goes
out of that place and what comes into it.
-/

namespace St3.Sums

variable {ι M : Type*} [Fintype ι] [DecidableEq ι] [AddCommMonoid M]

/-- One term changes: `a` goes out of it, and `b` comes in. -/
lemma sum_update {f g : ι → M} {i : ι} {a b : M} (ho : ∀ j, j ≠ i → g j = f j)
    (h : g i + a = f i + b) : ∑ j, g j + a = ∑ j, f j + b := by
  have he : ∑ j ∈ Finset.univ.erase i, g j = ∑ j ∈ Finset.univ.erase i, f j :=
    Finset.sum_congr rfl fun j hj => ho j (Finset.ne_of_mem_erase hj)
  rw [← Finset.add_sum_erase _ g (Finset.mem_univ i),
    ← Finset.add_sum_erase _ f (Finset.mem_univ i), he, add_right_comm, h, add_right_comm]

lemma sum_of_ne {f g : ι → M} {i : ι} (h : ∀ j, j ≠ i → g j = f j) :
    ∑ j, g j + f i = ∑ j, f j + g i :=
  sum_update h (add_comm _ _)

/-- A place is updated, of which `f` is what it holds. -/
lemma sum_fun_update {β : Type*} (f : β → M) (g : ι → β) (i : ι) (x : β) :
    ∑ j, f (Function.update g i x j) + f (g i) = ∑ j, f (g j) + f x := by
  have h := sum_of_ne (f := fun j => f (g j)) (g := fun j => f (Function.update g i x j)) (i := i)
    fun j hj => congrArg f (Function.update_of_ne hj _ _)
  rwa [Function.update_self] at h

/-- Two terms change, one after the other. -/
lemma sum_update₂ {f g : ι → M} {i j : ι} {a b c d : M} (hne : i ≠ j)
    (ho : ∀ k, k ≠ i → k ≠ j → g k = f k) (hi : g i + a = f i + b) (hj : g j + c = f j + d) :
    ∑ k, g k + (a + c) = ∑ k, f k + (b + d) := by
  have h1 : ∑ k, Function.update f i (g i) k + a = ∑ k, f k + b := by
    refine sum_update (i := i) (fun k hk => Function.update_of_ne hk _ _) ?_
    rw [Function.update_self]
    exact hi
  have h2 : ∑ k, g k + c = ∑ k, Function.update f i (g i) k + d := by
    refine sum_update (i := j) (fun k hk => ?_) ?_
    · by_cases hk' : k = i
      · rw [hk', Function.update_self]
      · rw [Function.update_of_ne hk', ho k hk' hk]
    · rw [Function.update_of_ne (Ne.symm hne)]
      exact hj
  calc ∑ k, g k + (a + c)
      = ∑ k, g k + c + a := by rw [add_comm a, add_assoc]
    _ = ∑ k, Function.update f i (g i) k + d + a := by rw [h2]
    _ = ∑ k, Function.update f i (g i) k + a + d := add_right_comm _ _ _
    _ = ∑ k, f k + b + d := by rw [h1]
    _ = ∑ k, f k + (b + d) := add_assoc _ _ _

end St3.Sums
