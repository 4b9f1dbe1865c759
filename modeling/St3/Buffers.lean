import St3.Lts
import St3.Sums
import Mathlib.Algebra.Order.BigOperators.Group.Finset
import Mathlib.Algebra.Order.Group.Multiset
import Mathlib.Algebra.BigOperators.Group.Finset.Piecewise
import Mathlib.Data.Multiset.AddSub
import Mathlib.Data.List.Perm.Subperm

/-!
One queue, and workers that take from it, each into a buffer of its own.

Jobs enter the queue at one end and leave it at the other. A worker starts the jobs of its
buffer in any order, and may take over jobs of another buffer when its own is empty. What is
proved here is how far the jobs can be from being started in the order in which they were
pushed: a job overtakes fewer than the buffers have room for.
-/

namespace St3.Buffers

open Function

inductive Event (W J : Type*)
  | pushed (j : J)
  | started (w : W) (j : J)
  deriving DecidableEq

variable {W J : Type*}

def Event.pushed? : Event W J → Option J
  | .pushed j => some j
  | .started .. => none

def Event.started? : Event W J → Option J
  | .pushed _ => none
  | .started _ j => some j

/-- The jobs that were pushed, in this order. -/
def pushes (tr : List (Event W J)) : List J := tr.filterMap Event.pushed?

/-- The jobs that were started, in this order. -/
def starts (tr : List (Event W J)) : List J := tr.filterMap Event.started?

section
variable (tr tr' : List (Event W J)) (w : W) (j : J)

@[simp] lemma pushes_append : pushes (tr ++ tr') = pushes tr ++ pushes tr' := List.filterMap_append
@[simp] lemma pushes_pushed : pushes (.pushed j :: tr) = j :: pushes tr := rfl
@[simp] lemma pushes_started : pushes (.started w j :: tr) = pushes tr := rfl
@[simp] lemma pushes_nil : pushes ([] : List (Event W J)) = [] := rfl

@[simp] lemma starts_append : starts (tr ++ tr') = starts tr ++ starts tr' := List.filterMap_append
@[simp] lemma starts_pushed : starts (.pushed j :: tr) = starts tr := rfl
@[simp] lemma starts_started : starts (.started w j :: tr) = j :: starts tr := rfl
@[simp] lemma starts_nil : starts ([] : List (Event W J)) = [] := rfl

end

structure State (W J : Type*) where
  queue : List J
  held : W → Multiset J
  /-- The jobs that were started. -/
  ran : List J

def State.empty : State W J := ⟨[], fun _ => 0, []⟩

variable [DecidableEq W]

/-- What can happen, with `room` jobs in a buffer. -/
inductive Step (room : ℕ) : State W J → Option (Event W J) → State W J → Prop
  /-- A job that is not there yet enters the queue. -/
  | push {s : State W J} {j : J} (hq : j ∉ s.queue) (hh : ∀ w, j ∉ s.held w) (hr : j ∉ s.ran) :
      Step room s (some (.pushed j)) { s with queue := s.queue ++ [j] }
  | take {s : State W J} {w : W} {j : J} {rest : List J} (hq : s.queue = j :: rest)
      (hroom : (s.held w).card < room) :
      Step room s none { s with queue := rest, held := update s.held w (j ::ₘ s.held w) }
  | steal {s : State W J} {v w : W} {js rest : Multiset J} (hw : s.held w = 0)
      (hv : s.held v = js + rest) :
      Step room s none { s with held := update (update s.held v rest) w js }
  | start {s : State W J} {w : W} {j : J} {rest : Multiset J} (hw : s.held w = j ::ₘ rest) :
      Step room s (some (.started w j)) { s with held := update s.held w rest, ran := s.ran ++ [j] }

def lts (W J : Type*) [DecidableEq W] (room : ℕ) : Lts (State W J) (Event W J) :=
  ⟨(· = .empty), Step room⟩

variable [Fintype W]

/-- Everything that has left the queue and was not started. -/
def State.outside (s : State W J) : Multiset J := ∑ w, s.held w

/-- One buffer changes: `out` goes out of it, and `ins` come in. -/
lemma sum_held {held : W → Multiset J} {w : W} {js out ins : Multiset J}
    (h : js + out = held w + ins) : ∑ v, update held w js v + out = ∑ v, held v + ins := by
  refine Sums.sum_update (i := w) (fun v hv => update_of_ne hv _ _) ?_
  rwa [update_self]

/-- What holds of a run that has shown `tr`. -/
structure Inv (room : ℕ) (tr : List (Event W J)) (s : State W J) : Prop where
  room : ∀ w, (s.held w).card ≤ room
  ran : s.ran = starts tr
  /-- The queue is what is left of the pushes. -/
  order : ∃ taken, pushes tr = taken ++ s.queue ∧ (taken : Multiset J) = s.ran + s.outside
  nodup : (pushes tr).Nodup

variable {room : ℕ} {tr : List (Event W J)} {s s' : State W J} {l : Option (Event W J)}

omit [Fintype W] in
lemma room_update {held : W → Multiset J} (h : ∀ v, (held v).card ≤ room) {w : W} {js : Multiset J}
    (hw : js.card ≤ room) (v : W) : (update held w js v).card ≤ room := by
  by_cases hv : v = w
  · subst hv
    simpa using hw
  · simpa [hv] using h v

lemma Inv.step (h : Inv room tr s) (hs : Step room s l s') : Inv room (tr ++ l.toList) s' := by
  obtain ⟨hroom, hran, ⟨taken, htr, htaken⟩, hnodup⟩ := h
  cases hs with
  | @push j hq hh hr =>
    have hnot : j ∉ taken := by
      rw [← Multiset.mem_coe, htaken]
      simpa [State.outside, hr, Multiset.mem_sum] using hh
    refine ⟨hroom, by simpa using hran, ⟨taken, by simp [htr], htaken⟩, ?_⟩
    rw [Option.toList_some, pushes_append, htr]
    rw [htr] at hnodup
    refine List.nodup_append.mpr ⟨hnodup, List.nodup_singleton j, fun i hi k hk => ?_⟩
    rintro rfl
    rw [pushes_pushed, pushes_nil, List.mem_singleton] at hk
    subst hk
    exact (List.mem_append.mp hi).elim hnot hq
  | @take w j rest hq hcap =>
    have hsum : ∑ v, update s.held w (j ::ₘ s.held w) v + 0 = ∑ v, s.held v + {j} :=
      sum_held (by rw [add_zero, add_comm, Multiset.singleton_add])
    refine ⟨room_update hroom (by simpa using Nat.succ_le_of_lt hcap), by simpa using hran,
      ⟨taken ++ [j], by simp [htr, hq], ?_⟩, by simpa using hnodup⟩
    rw [← Multiset.coe_add, htaken, add_assoc]
    exact congrArg (_ + ·) (hsum.symm.trans (add_zero _))
  | @steal v w js rest hw hv =>
    have hnil : update s.held v rest w = 0 := by
      by_cases hwv : w = v
      · subst hwv
        rw [hw] at hv
        simpa using (add_eq_zero.mp hv.symm).2
      · rw [update_of_ne hwv, hw]
    have h1 : ∑ u, update s.held v rest u + js = ∑ u, s.held u + 0 :=
      sum_held (by rw [hv, add_zero, add_comm])
    have h2 : ∑ u, update (update s.held v rest) w js u + 0 = ∑ u, update s.held v rest u + js :=
      sum_held (by rw [hnil, add_zero, zero_add])
    have hjs : js.card ≤ room := by
      have := hroom v
      rw [hv, Multiset.card_add] at this
      omega
    have hrest : rest.card ≤ room := by
      have := hroom v
      rw [hv, Multiset.card_add] at this
      omega
    have hsame : ∑ u, update (update s.held v rest) w js u = ∑ u, s.held u := by
      simpa using h2.trans h1
    exact ⟨room_update (room_update hroom hrest) hjs, by simpa using hran,
      ⟨taken, by simpa using htr, htaken.trans (congrArg (_ + ·) hsame.symm)⟩,
      by simpa using hnodup⟩
  | @start w j rest hw =>
    have hsum : ∑ v, update s.held w rest v + {j} = ∑ v, s.held v + 0 :=
      sum_held (by rw [hw, add_zero, add_comm, Multiset.singleton_add])
    refine ⟨room_update hroom ?_, by simp [hran], ⟨taken, by simp [htr], ?_⟩, by simpa using hnodup⟩
    · have := hroom w
      rw [hw, Multiset.card_cons] at this
      omega
    · rw [htaken, ← Multiset.coe_add, add_assoc, Multiset.coe_singleton]
      exact congrArg (_ + ·) ((add_zero _).symm.trans (hsum.symm.trans (add_comm _ _)))

/-- **The run rule.** -/
theorem inv (h : (lts W J room).Reaches tr s) : Inv room tr s := by
  induction h with
  | init h =>
    obtain rfl := h
    exact ⟨fun _ => Nat.zero_le _, rfl, ⟨[], rfl, by simp [State.empty, State.outside]⟩, .nil⟩
  | step _ hs ih => exact ih.step hs

omit [DecidableEq W] in
/-- No more jobs are outside than the buffers have room for. -/
lemma Inv.outside_le (h : Inv room tr s) : s.outside.card ≤ Fintype.card W * room := by
  rw [State.outside, Multiset.card_sum]
  exact (Finset.sum_le_card_nsmul _ _ _ fun w _ => h.room w).trans_eq (by simp)

/-- **Bounded overtaking.** Whenever a job is started it was pushed before, and not started yet;
and of the jobs that were pushed before it, fewer are still to be started than the buffers have
room for. -/
theorem overtaken_lt [DecidableEq J] (h : (lts W J room).Reaches tr s)
    {past future : List (Event W J)} {w : W} {j : J} (htr : tr = past ++ .started w j :: future) :
    ∃ before after, pushes past = before ++ j :: after ∧ j ∉ starts past ∧
      (before.filter (· ∉ starts past)).length < Fintype.card W * room := by
  subst htr
  obtain ⟨s₀, h₀, hsteps⟩ := h.between
  obtain ⟨s₁, s₂, h₁, hstep, -⟩ := hsteps.uncons
  have hreach : (lts W J room).Reaches past s₁ := by simpa using h₀.trans h₁
  obtain ⟨hroom, hran, ⟨taken, hpast, htaken⟩, hnodup⟩ := inv hreach
  obtain ⟨rest, hw⟩ : ∃ rest, s₁.held w = j ::ₘ rest := by
    cases hstep with
    | start hw => exact ⟨_, hw⟩
  have hout : j ∈ s₁.outside := Multiset.mem_sum.mpr ⟨w, Finset.mem_univ w, by simp [hw]⟩
  rw [hpast] at hnodup
  have htnodup : taken.Nodup := (List.nodup_append.mp hnodup).1
  have hapart : ∀ i, i ∈ s₁.ran → i ∉ s₁.outside := by
    have hsum : ((s₁.ran : Multiset J) + s₁.outside).Nodup :=
      htaken ▸ Multiset.coe_nodup.mpr htnodup
    exact fun i hi => Multiset.disjoint_left.mp (Multiset.disjoint_of_nodup_add hsum) hi
  have htaken_mem : ∀ i, i ∈ taken ↔ i ∈ s₁.ran ∨ i ∈ s₁.outside := fun i => by
    rw [← Multiset.mem_coe, htaken, Multiset.mem_add, Multiset.mem_coe]
  -- the pushes up to `j` have all left the queue
  obtain ⟨before, mid, rfl⟩ := List.append_of_mem ((htaken_mem j).mpr (.inr hout))
  refine ⟨before, mid ++ s₁.queue, by simp [hpast], fun hj => hapart j (hran ▸ hj) hout, ?_⟩
  obtain ⟨hbefore, -, hne⟩ := List.nodup_append.mp htnodup
  set late := before.filter (· ∉ starts past) with hlate
  have hnodup' : (j :: late).Nodup := by
    refine List.nodup_cons.mpr ⟨fun hj => ?_, hbefore.filter _⟩
    exact hne j (List.mem_of_mem_filter hj) j (List.mem_cons_self ..) rfl
  have hsub : ((j :: late : List J) : Multiset J) ≤ s₁.outside := by
    refine (Multiset.le_iff_subset (Multiset.coe_nodup.mpr hnodup')).mpr fun i hi => ?_
    rcases List.mem_cons.mp (Multiset.mem_coe.mp hi) with rfl | hi
    · exact hout
    · obtain ⟨hmem, hlate⟩ := List.mem_filter.mp hi
      refine ((htaken_mem i).mp (List.mem_append_left _ hmem)).resolve_left fun hr => ?_
      simp [← hran, hr] at hlate
  exact (Multiset.card_le_card hsub).trans (inv hreach).outside_le

end St3.Buffers
