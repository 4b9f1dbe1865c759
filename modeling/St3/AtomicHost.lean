import St3.Lts
import Mathlib.Data.List.Count
import Mathlib.Logic.Function.Basic

/-!
The park word of one worker of an `AtomicHost`: one thread parks on it again and again, any
number of threads unpark it.

`atomic_wait::wait` blocks if the word is `ASLEEP` when it looks, and may return for no
reason; `wake_one` releases the parker if it is blocked. Three fields are no part of the code:
how many parks have returned, how many unparks have swapped the word, and whether one of them
did so after the last returned park had consumed its permit.
-/

namespace St3.AtomicHost

/-- `LOCKED`, `SIGNAL` and `ASLEEP`. -/
inductive Word
  | locked
  | signal
  | asleep
  deriving DecidableEq, Repr

/-- The next access of the parker. -/
inductive ParkPc
  | out
  | swap
  /-- A signal was there: `compare_exchange(ASLEEP, LOCKED)`, whatever comes of it. -/
  | casAsleep
  /-- The test of the loop. -/
  | load
  | wait
  | blocked
  /-- The load behind the wait, which counts the wakes with no signal. -/
  | reload
  | casSignal
  deriving DecidableEq, Repr

inductive UnparkPc
  | out
  | swap
  | wake
  deriving DecidableEq, Repr

variable {U : Type*}

structure St (U : Type*) where
  state : Word
  parker : ParkPc
  unparker : U → UnparkPc
  spurious : ℕ
  returned : ℕ
  swaps : ℕ
  /-- An unpark has swapped the word since the permit of the last returned park was consumed. -/
  signalled : Bool

/-- Who makes the next access. -/
inductive Event (U : Type*)
  | park
  | unpark (u : U)
  deriving DecidableEq, Repr

/-- `park`. `early` says whether the wait returns for no reason. -/
def park (early : Bool) (s : St U) : Option (St U) :=
  match s.parker with
  | .out => some { s with parker := .swap }
  | .swap =>
    if s.state = .locked then some { s with state := .asleep, parker := .load }
    else some { s with state := .asleep, parker := .casAsleep, signalled := false }
  | .casAsleep =>
    some { s with
      state := if s.state = .asleep then .locked else s.state
      parker := .out
      returned := s.returned + 1 }
  | .load => some { s with parker := if s.state = .asleep then .wait else .casSignal }
  | .wait =>
    some { s with parker := if s.state = .asleep ∧ early = false then .blocked else .reload }
  | .blocked => if early then some { s with parker := .reload } else none
  | .reload =>
    some { s with
      spurious := s.spurious + if s.state = .asleep then 1 else 0
      parker := .load }
  | .casSignal =>
    some { s with
      state := if s.state = .signal then .locked else s.state
      parker := .out
      returned := s.returned + 1
      signalled := if s.state = .signal then false else s.signalled }

variable [DecidableEq U]

def St.setUnparker (s : St U) (u : U) (p : UnparkPc) : St U :=
  { s with unparker := Function.update s.unparker u p }

/-- `unpark`. -/
def unpark (u : U) (s : St U) : St U :=
  match s.unparker u with
  | .out => s.setUnparker u .swap
  | .swap =>
    { s.setUnparker u (if s.state = .asleep then .wake else .out) with
      state := .signal
      swaps := s.swaps + 1
      signalled := true }
  -- `wake_one`
  | .wake =>
    { s.setUnparker u .out with parker := if s.parker = .blocked then .reload else s.parker }

inductive Cmd (U : Type*)
  | park (early : Bool)
  | unpark (u : U)

def step : Cmd U → St U → Option (St U × Option (Event U))
  | .park early, s => (park early s).map (·, some .park)
  | .unpark u, s => some (unpark u s, some (.unpark u))

def init : St U where
  state := .locked
  parker := .out
  unparker := fun _ => .out
  spurious := 0
  returned := 0
  swaps := 0
  signalled := false

def lts (U : Type*) [DecidableEq U] : Lts (St U) (Event U) :=
  .ofStep (· = init) step fun _ _ => True

/-- No unpark makes its swap: only those that have are brought to an end. -/
def NoUnpark : Cmd U → St U → Prop
  | .park _, _ => True
  | .unpark u, s => s.unparker u = .wake

/-- The same system while no unpark makes its swap. -/
def quiet (U : Type*) [DecidableEq U] : Lts (St U) (Event U) :=
  .ofStep (· = init) step NoUnpark

/-! ### The invariant -/

def Word.permits : Word → ℕ
  | .signal => 1
  | _ => 0

def ParkPc.permits : ParkPc → ℕ
  | .casAsleep => 1
  | _ => 0

/-- The permits that are there: one in the word, and one that a park is returning with. -/
def St.permits (s : St U) : ℕ := s.state.permits + s.parker.permits

structure Inv (s : St U) : Prop where
  /-- The parker sleeps on `ASLEEP`, or somebody is about to wake it. -/
  blocked : s.parker = .blocked → s.state ≠ .asleep → ∃ u, s.unparker u = .wake
  asleep : s.state = .asleep → s.parker ≠ .out ∧ s.parker ≠ .swap ∧ s.parker ≠ .casSignal
  locked : s.state = .locked → s.parker = .out ∨ s.parker = .swap
  signalled : s.signalled = true → s.state = .signal
  permits : s.returned + s.permits ≤ s.swaps

omit [DecidableEq U] in
lemma Inv.park {s s' : St U} {early : Bool} (h : Inv s) (hs : park early s = some s') :
    Inv s' := by
  obtain ⟨hb, ha, hl, hg, hp⟩ := h
  unfold AtomicHost.park at hs
  unfold St.permits at hp
  cases hpc : s.parker <;> simp only [hpc] at hs hb ha hl hp
  case swap =>
    split_ifs at hs with hlock <;> cases hs
    · have hno : s.signalled ≠ true := fun hsig => by simp [hg hsig] at hlock
      refine ⟨by simp, by simp, by simp, fun hsig => absurd hsig hno, ?_⟩
      simp only [St.permits, Word.permits, ParkPc.permits]
      omega
    · have hsig : s.state = .signal := by
        cases hst : s.state with
        | signal => rfl
        | locked => exact absurd hst hlock
        | asleep => exact absurd rfl (ha hst).2.1
      rw [hsig] at hp
      exact ⟨by simp, by simp, by simp, by simp, hp⟩
  case blocked =>
    split_ifs at hs
    cases hs
    exact ⟨by simp, by simp, fun hst => by simpa using hl hst, hg, hp⟩
  all_goals cases hs
  case out => exact ⟨by simp, fun hst => absurd rfl (ha hst).1, by simp, hg, hp⟩
  case casAsleep =>
    by_cases hst : s.state = .asleep
    · rw [hst] at hp
      exact ⟨by simp, by simp [hst], by simp, fun hsig => by simp [hg hsig] at hst,
        by simpa [St.permits, Word.permits, ParkPc.permits, hst] using hp⟩
    · have hlock : s.state ≠ .locked := fun he => by simpa using hl he
      refine ⟨by simp, by simp [hst], by simp, fun hsig => by simp [hg hsig], ?_⟩
      simp only [St.permits, ParkPc.permits, if_neg hst] at hp ⊢
      omega
  case load =>
    by_cases hst : s.state = .asleep
    · exact ⟨by simp [hst], by simp [hst], by simp [hst], hg, by
        simpa [St.permits, ParkPc.permits, hst] using hp⟩
    · exact ⟨by simp [hst], by simp [hst], fun he => by simpa using hl he, hg, by
        simpa [St.permits, ParkPc.permits, hst] using hp⟩
  case wait =>
    refine ⟨?_, ?_, fun he => by simpa using hl he, hg, ?_⟩
    · split_ifs with hw
      · exact fun _ hne => absurd hw.1 hne
      · simp
    · split_ifs <;> simp
    · split_ifs <;> exact hp
  case reload => exact ⟨by simp, by simp, fun hst => by simpa using hl hst, hg, hp⟩
  case casSignal =>
    have hsig : s.state = .signal := by
      cases hst : s.state with
      | signal => rfl
      | locked => simpa using hl hst
      | asleep => exact absurd rfl (ha hst).2.2
    refine ⟨by simp, by simp [hsig], by simp, by simp [hsig], ?_⟩
    simp only [St.permits, Word.permits, ParkPc.permits, hsig, if_true] at hp ⊢
    omega

lemma Inv.unpark {s : St U} (h : Inv s) (u : U) : Inv (unpark u s) := by
  obtain ⟨hb, ha, hl, hg, hp⟩ := h
  unfold AtomicHost.unpark
  unfold St.permits at hp
  cases hpc : s.unparker u with
  | out =>
    refine ⟨fun h1 h2 => ?_, ha, hl, hg, hp⟩
    obtain ⟨v, hv⟩ := hb h1 h2
    have hne : v ≠ u := fun he => by simp [he, hpc] at hv
    exact ⟨v, by simpa [St.setUnparker, hne] using hv⟩
  | swap =>
    refine ⟨fun h1 _ => ?_, by simp, by simp, by simp, ?_⟩
    · by_cases hst : s.state = .asleep
      · exact ⟨u, by simp [St.setUnparker, hst]⟩
      · obtain ⟨v, hv⟩ := hb h1 hst
        have hne : v ≠ u := fun he => by simp [he, hpc] at hv
        exact ⟨v, by simpa [St.setUnparker, hne] using hv⟩
    · show s.returned + (1 + s.parker.permits) ≤ s.swaps + 1
      omega
  | wake =>
    by_cases hbl : s.parker = .blocked
    · rw [hbl] at hp
      refine ⟨by simp [hbl], by simp [hbl], fun hst => ?_, hg, ?_⟩
      · simpa [hbl] using hl hst
      · simpa only [St.permits, St.setUnparker, hbl, if_true, ParkPc.permits] using hp
    · refine ⟨fun h1 _ => ?_, ?_, ?_, hg, ?_⟩
      · simp [hbl] at h1
      · simpa [St.setUnparker, hbl] using ha
      · simpa [St.setUnparker, hbl] using hl
      · simpa only [St.permits, St.setUnparker, if_neg hbl] using hp

lemma inv_step {cmd : Cmd U} {s : St U} {q : St U × Option (Event U)} (h : Inv s)
    (hs : step cmd s = some q) : Inv q.1 := by
  cases cmd with
  | park early =>
    obtain ⟨s', hp, rfl⟩ := Option.map_eq_some_iff.mp hs
    exact h.park hp
  | unpark u =>
    simp only [step, Option.some.injEq] at hs
    subst hs
    exact h.unpark u

theorem inv {tr : List (Event U)} {s : St U} (h : (lts U).Reaches tr s) : Inv s := by
  refine Lts.Reaches.invariant Inv ?_ ?_ h
  · rintro s rfl
    exact ⟨by simp [init], by simp [init], by simp [init], by simp [init],
      by simp [init, St.permits, Word.permits, ParkPc.permits]⟩
  · rintro tr s l s' - hs ⟨cmd, -, hstep⟩
    exact inv_step hs hstep

/-! ### A permit ends a park -/

/-- How many accesses the parker makes at most until a park has returned, with a permit there. -/
def ParkPc.left : ParkPc → ℕ
  | .out => 3
  | .swap => 2
  | .casAsleep => 1
  | .load => 2
  | .wait => 4
  | .blocked => 4
  | .reload => 3
  | .casSignal => 1

/-- A park is about to return, or there is a permit that makes it return. -/
def Permitted (s : St U) : Prop := s.state = .signal ∨ s.parker = .casAsleep

lemma ParkPc.left_pos (p : ParkPc) : 0 < p.left := by
  cases p <;> decide

omit [DecidableEq U] in
/-- Each access of the parker brings its return nearer. -/
lemma Permitted.park {s s' : St U} {early : Bool} (h : Permitted s)
    (hs : park early s = some s') :
    s'.returned = s.returned + 1 ∨
      s'.returned = s.returned ∧ Permitted s' ∧ s'.parker.left + 1 ≤ s.parker.left := by
  unfold AtomicHost.park at hs
  unfold Permitted at h ⊢
  cases hpc : s.parker <;> simp only [hpc, reduceCtorEq, or_false, or_true] at hs h
  case swap =>
    rw [if_neg (by simp [h])] at hs
    cases hs
    exact .inr ⟨rfl, .inr rfl, Nat.le_refl _⟩
  case blocked =>
    split_ifs at hs
    cases hs
    exact .inr ⟨rfl, .inl h, Nat.le_refl _⟩
  all_goals cases hs
  case casAsleep | casSignal => exact .inl rfl
  case out | reload => exact .inr ⟨rfl, .inl h, Nat.le_refl _⟩
  case load | wait => exact .inr ⟨rfl, .inl h, by simp [h, ParkPc.left]⟩

/-- The end of an unpark keeps it as near. -/
lemma Permitted.wake {s : St U} {u : U} (h : Permitted s) (hu : s.unparker u = .wake) :
    (unpark u s).returned = s.returned ∧ Permitted (unpark u s) ∧
      (unpark u s).parker.left ≤ s.parker.left := by
  unfold Permitted at h ⊢
  simp only [unpark, hu]
  by_cases hb : s.parker = .blocked
  · have hsig : s.state = .signal := by simpa [hb] using h
    simp [hb, St.setUnparker, hsig, ParkPc.left]
  · simpa [hb, St.setUnparker] using h

lemma quiet_returned_le {s s' : St U} {l : Option (Event U)} (h : (quiet U).step s l s') :
    s.returned ≤ s'.returned := by
  obtain ⟨cmd, -, hcmd⟩ := h
  cases cmd with
  | park early =>
    obtain ⟨s₁, hp, he⟩ := Option.map_eq_some_iff.mp hcmd
    cases he
    unfold AtomicHost.park at hp
    split at hp <;> (try split_ifs at hp) <;> cases hp <;> simp
  | unpark u =>
    simp only [step, Option.some.injEq, Prod.mk.injEq] at hcmd
    obtain ⟨rfl, -⟩ := hcmd
    unfold AtomicHost.unpark
    split <;> exact Nat.le_refl _

/-- Along the accesses of the parker the return comes nearer, until there is one. -/
lemma Permitted.steps {s s' : St U} {tr : List (Event U)}
    (h : Permitted s) (hs : (quiet U).Steps s tr s') :
    s.returned ≤ s'.returned ∧ (s.returned < s'.returned ∨ Permitted s' ∧
      s'.parker.left + tr.count .park ≤ s.parker.left) := by
  have mono : ∀ {a b : St U} {t : List (Event U)}, (quiet U).Steps a t b →
      a.returned ≤ b.returned := by
    intro a b t ht
    induction ht with
    | refl => exact Nat.le_refl _
    | head hab _ ih => exact Nat.le_trans (quiet_returned_le hab) ih
  refine ⟨mono hs, ?_⟩
  induction hs with
  | refl s => exact .inr ⟨h, by simp⟩
  | @head s s₁ s₂ l tr hstep hrest ih =>
    have hle := mono hrest
    obtain ⟨cmd, hok, hcmd⟩ := hstep
    cases cmd with
    | park early =>
      obtain ⟨s₁', hp, he⟩ := Option.map_eq_some_iff.mp hcmd
      cases he
      rcases h.park hp with hret | ⟨hret, hperm, hleft⟩
      · exact .inl (by omega)
      · rcases ih hperm with hlt | ⟨hperm', hcount⟩
        · exact .inl (by omega)
        · refine .inr ⟨hperm', ?_⟩
          simp only [Option.toList_some, List.singleton_append, List.count_cons_self]
          omega
    | unpark u =>
      simp only [step, Option.some.injEq, Prod.mk.injEq] at hcmd
      obtain ⟨rfl, rfl⟩ := hcmd
      obtain ⟨hret, hperm, hleft⟩ := h.wake hok
      rcases ih hperm with hlt | ⟨hperm', hcount⟩
      · exact .inl (by omega)
      · refine .inr ⟨hperm', ?_⟩
        simp only [Option.toList_some, List.singleton_append]
        rw [List.count_cons_of_ne (by simp)]
        omega

lemma quiet_reaches {tr tr' : List (Event U)} {s s' : St U} (h : (lts U).Reaches tr s)
    (hs : (quiet U).Steps s tr' s') : (lts U).Reaches (tr ++ tr') s' := by
  induction hs generalizing tr with
  | refl => simpa using h
  | head hstep _ ih =>
    obtain ⟨cmd, -, hcmd⟩ := hstep
    simpa using ih (h.step ⟨cmd, trivial, hcmd⟩)

omit [DecidableEq U] in
/-- A parker with a permit can go on, or somebody is about to wake it. -/
lemma Permitted.enabled {s : St U} (h : Permitted s) (hi : Inv s) :
    (∃ s', AtomicHost.park false s = some s') ∨ ∃ u, s.unparker u = .wake := by
  by_cases hb : s.parker = .blocked
  · have hsig : s.state = .signal := by
      rcases h with h | h
      · exact h
      · rw [hb] at h
        cases h
    exact .inr (hi.blocked hb (by simp [hsig]))
  · left
    unfold AtomicHost.park
    cases hpc : s.parker <;> first | exact absurd hpc hb | exact ⟨_, rfl⟩ | skip
    simp only
    split_ifs <;> exact ⟨_, rfl⟩

/-- **The permit protocol.** The parker never sleeps on a word that is not `ASLEEP` with nobody
about to wake it; an unpark that swaps the word after the permit of the last returned park was
consumed makes a park return within four accesses of the parker, which needs no more than the
end of the unparks that have made their swap; and no park returns without a signal. -/
theorem permit_protocol {tr : List (Event U)} {s : St U}
    (h : (lts U).Reaches tr s) :
    (s.parker = .blocked → s.state ≠ .asleep → ∃ u, s.unparker u = .wake) ∧
    (s.signalled = true → ∀ tr' s', (quiet U).Steps s tr' s' →
      (4 ≤ tr'.count .park → s.returned < s'.returned) ∧
      (s'.returned = s.returned →
        (∃ s'', park false s' = some s'') ∨ ∃ u, s'.unparker u = .wake)) ∧
    s.returned ≤ s.swaps := by
  have hi := inv h
  refine ⟨hi.blocked, fun hsig tr' s' hs => ?_, Nat.le_trans (Nat.le_add_right _ _) hi.permits⟩
  have hperm : Permitted s := .inl (hi.signalled hsig)
  obtain ⟨-, hlt | ⟨hperm', hcount⟩⟩ := hperm.steps hs
  · exact ⟨fun _ => hlt, fun he => by omega⟩
  · refine ⟨fun h4 => ?_, fun _ => hperm'.enabled (inv (quiet_reaches h hs))⟩
    have h1 := s'.parker.left_pos
    have h2 : s.parker.left ≤ 4 := by cases s.parker <;> decide
    omega

/-- The parker blocks, two threads unpark it, and the first of them has yet to wake it. -/
theorem permit_protocol_two_unparks : ∃ s : St Bool,
    (s.parker = .blocked ∧ s.state = .signal ∧ s.swaps = 2) ∧ s.returned ≤ s.swaps ∧
      ∃ u, s.unparker u = .wake := by
  have hr : (Lts.runs step (fun _ _ => True) [.park false, .park false, .park false, .park false,
      .unpark true, .unpark true, .unpark false, .unpark false] (init : St Bool)).map
        (fun r => (r.2.parker, r.2.state, r.2.swaps)) = some (.blocked, .signal, 2) := by decide
  obtain ⟨⟨tr, s⟩, hs, hv⟩ := Option.map_eq_some_iff.mp hr
  simp only [Prod.mk.injEq] at hv
  have h : (lts Bool).Reaches tr s := Lts.reaches_of_runs rfl hs
  have hp := permit_protocol h
  exact ⟨s, hv, hp.2.2, hp.1 hv.1 (by simp [hv.2.1])⟩

end St3.AtomicHost
