import St3.Pool
import Mathlib.Data.List.Count

/-!
`Pool::submit` with any number for a worker, over a host with one slot per worker.

The pool itself is as before. The threads in `submit` are beside it, because the model of the
pool knows no numbers but those of its workers. A call is known by its job, of which there is
no copy: `hint` gives the number that comes with each.
-/

namespace St3.Pool

variable {n : ℕ} {J C S L L' : Type*}

/-! ### The call -/

/-- A thread in `submit`. -/
inductive Submit (n : ℕ) (J : Type*)
  | out
  | push (j : J)
  | load (j : J)
  | claim (c : Fin n) (j : J)
  | unpark (c : Fin n) (j : J)
  | fallback (j : J)
  | panicked (j : J)
  deriving DecidableEq

/-- `push`, and `wake` with the number as the hint. -/
def Submit.next (hint : J → ℕ) : Submit n J → Option (Req n J (Submit n J))
  | .out => none
  | .push j => some (.pushInjector j (.load j))
  | .load j =>
    some (.load fun s =>
      match candidate s.sleeping none with
      | some c => .claim c j
      | none => .fallback j)
  | .claim c j => some (.claim c true fun was => if was then .unpark c j else .load j)
  | .unpark c _ => some (.unpark c .out)
  -- `unpark` of the host, which indexes its slots
  | .fallback j =>
    if h : hint j < n then some (.unpark ⟨hint j, h⟩ .out) else some (.load fun _ => .panicked j)
  | .panicked _ => none

/-- What is seen of a call. -/
inductive Submission (J : Type*)
  | submitted (j : J)
  | published (j : J)
  | returned (j : J)
  | panicked (j : J)
  deriving DecidableEq

def Submit.event (hint : J → ℕ) : Submit n J → Option (Submission J)
  | .push j => some (.published j)
  | .unpark _ j => some (.returned j)
  | .fallback j => some (if hint j < n then .returned j else .panicked j)
  | _ => none

/-! ### The pool with its submitters -/

structure Submitters (n : ℕ) (J C S : Type*) where
  pool : St n J C
  submit : S → Submit n J

/-- The drop of the pool. -/
def Cmd.isDrop : Cmd n J C → Bool
  | .drop => true
  | _ => false

/-- The job of a call under way, or of one that has come to a bad end. -/
def Submit.job? : Submit n J → Option J
  | .out => none
  | .push j | .load j | .claim _ j | .unpark _ j | .fallback j | .panicked j => some j

/-- No call is under way: the pool is not borrowed. -/
def Submit.isOut : Submit n J → Bool
  | .out | .panicked _ => true
  | _ => false

/-- The same memory, with other permits. -/
def Shared.withPermits (s : Shared n J) (p : Fin n → Bool) : Shared n J := { s with permit := p }

def St.withPermits (s : St n J C) (p : Fin n → Bool) : St n J C :=
  { s with shared := s.shared.withPermits p }

/-- An access that does not look at the permits. -/
def Req.Blind : Req n J L → Prop
  | .load k => ∀ s p, k (s.withPermits p) = k s
  | _ => True

lemma Req.Blind.map {f : L → L'} {r : Req n J L} (h : r.Blind) : (r.map f).Blind := by
  cases r <;> first | exact trivial | exact fun s p => congrArg f (h s p)

/-- Such an access can be made with other permits, a park by returning for no reason. -/
lemma Req.Blind.serve {r : Req n J L} (hr : r.Blind) {cap : ℕ} {spurious : Bool}
    {s s' : Shared n J} {l : L} (hs : serve cap spurious s r = some (l, s')) (p : Fin n → Bool) :
    ∃ spurious' p', serve cap spurious' (s.withPermits p) r = some (l, s'.withPermits p') := by
  cases r
  case load k =>
    cases hs
    exact ⟨spurious, p, by rw [Pool.serve, hr]⟩
  case park w k =>
    refine ⟨true, p, ?_⟩
    simp only [Pool.serve] at hs ⊢
    split at hs <;> (try split at hs) <;> cases hs <;> split <;> rfl
  case unpark w k =>
    cases hs
    exact ⟨spurious, Function.update p w true, rfl⟩
  case popDeque | pushDeque | putQueue =>
    refine ⟨spurious, p, ?_⟩
    simp only [Pool.serve] at hs ⊢
    split at hs <;> cases hs <;> simp_all [Shared.withPermits, Shared.setDeque]
  case book v word count k =>
    refine ⟨spurious, p, ?_⟩
    by_cases hb : spurious = false ∧ (s.deque v).word = word
    · rw [Pool.serve, if_pos hb] at hs
      cases hs
      exact if_pos hb
    · rw [Pool.serve, if_neg hb] at hs
      cases hs
      exact if_neg hb
  case claim c note k =>
    cases hs
    refine ⟨spurious, p, ?_⟩
    cases hb : note && s.sleeping c <;> simp [Pool.serve, Shared.withPermits, hb] <;> rfl
  all_goals
    cases hs
    exact ⟨spurious, p, rfl⟩

lemma Notify.next_blind {p : Notify n} {r : Req n J (Notify n)} (h : p.next = some r) :
    r.Blind := by
  cases p <;> simp only [next, Option.some.injEq, reduceCtorEq] at h <;> subst h
  case load => exact fun _ _ => rfl
  all_goals exact trivial

lemma Call.next_blind {cfg : Config n} {c : Call n J} {r : Req n J (Call n J)}
    (h : c.next cfg = some r) : r.Blind := by
  cases c
  case notify p =>
    simp only [next, Option.map_eq_some_iff] at h
    obtain ⟨r, hr, rfl⟩ := h
    exact (Notify.next_blind hr).map
  all_goals simp only [next, Option.some.injEq, reduceCtorEq] at h
  all_goals
    subst h
    first | exact trivial | exact fun _ _ => rfl

lemma Worker.next_blind {cfg : Config n} {w : Fin n} {l : Worker n J} {r : Req n J (Worker n J)}
    (h : l.next cfg w = some r) : r.Blind := by
  obtain ⟨mine, u, sp, rng, lr, e, pc⟩ := l
  cases pc
  case run c wakes =>
    simp only [next, Option.map_eq_some_iff] at h
    obtain ⟨r, hr, rfl⟩ := h
    exact (Call.next_blind hr).map
  case nudge p after =>
    simp only [next] at h
    split at h <;> cases h
    · exact fun _ _ => rfl
    · exact (Notify.next_blind ‹_›).map
  case stealCall prep c =>
    simp only [next] at h
    split at h <;> cases h
    · exact fun _ _ => rfl
    · exact (Call.next_blind ‹_›).map
  case readySlot =>
    simp only [next] at h
    split at h <;> cases h
    · exact trivial
    · exact fun _ _ => rfl
  case endSearching got =>
    simp only [next] at h
    split at h <;> cases h
    · exact fun _ _ => rfl
    · exact trivial
  case exit =>
    simp only [next] at h
    split at h <;> cases h <;> exact trivial
  all_goals simp only [next, Option.some.injEq, reduceCtorEq] at h
  all_goals
    subst h
    first | exact trivial | exact fun _ _ => rfl

lemma Submit.next_blind {hint : J → ℕ} {p : Submit n J} {r : Req n J (Submit n J)}
    (h : p.next hint = some r) : r.Blind := by
  cases p
  case fallback j =>
    simp only [next] at h
    split at h <;> cases h
    · exact trivial
    · exact fun _ _ => rfl
  all_goals simp only [next, Option.some.injEq, reduceCtorEq] at h
  all_goals
    subst h
    first | exact trivial | exact fun _ _ => rfl

namespace Submitters

inductive Cmd (n : ℕ) (J C S : Type*)
  | pool (cmd : Pool.Cmd n J C)
  | submit (u : S) (j : J)
  | next (u : S)

/-- A submitter goes on, and the memory of the pool changes. -/
def set [DecidableEq S] (s : Submitters n J C S) (u : S) (p : Submit n J) (sh : Shared n J) :
    Submitters n J C S :=
  ⟨{ s.pool with shared := sh }, Function.update s.submit u p⟩

def init : Submitters n J C S := ⟨Pool.init, fun _ => .out⟩

variable [DecidableEq J] [DecidableEq C] [Fintype C] [DecidableEq S] [Fintype S]

def step (cfg : Config n) (hint : J → ℕ) (cmd : Cmd n J C S) (s : Submitters n J C S) :
    Option (Submitters n J C S × Option (Submission J)) :=
  match cmd with
  | .pool cmd =>
    if cmd.isDrop ∧ ∃ u, (s.submit u).isOut = false then none
    else (Pool.step cfg cmd s.pool).map fun p => (⟨p, s.submit⟩, none)
  | .submit u j =>
    if s.pool.dropped = false ∧ s.submit u = .out ∧ j ∉ s.pool.accepted then
      some (⟨{ s.pool with accepted := s.pool.accepted ++ [j] },
        Function.update s.submit u (.push j)⟩, some (.submitted j))
    else none
  | .next u =>
    ((s.submit u).next hint).bind fun r => (serve cfg.cap false s.pool.shared r).map fun q =>
      (s.set u q.1 q.2, (s.submit u).event hint)

/-- The pool with its submitters, in runs all of whose steps are `ok`. -/
def lts (cfg : Config n) (hint : J → ℕ) (ok : Cmd n J C S → Submitters n J C S → Prop) :
    Lts (Submitters n J C S) (Submission J) :=
  .ofStep (· = init) (step cfg hint) ok

/-- When a call reads the bitmap, its number is that of a worker, or some worker sleeps. -/
def Heeded (hint : J → ℕ) (cmd : Cmd n J C S) (s : Submitters n J C S) : Prop :=
  match cmd with
  | .next u => ∀ j, s.submit u = .load j → hint j < n ∨ ∃ w, s.pool.shared.sleeping w
  | _ => True

instance [Fintype J] (hint : J → ℕ) (cmd : Cmd n J C S) (s : Submitters n J C S) :
    Decidable (Heeded hint cmd s) := by
  unfold Heeded
  split <;> infer_instance

/-- What one step can do. -/
inductive Trans (cfg : Config n) (hint : J → ℕ) (s : Submitters n J C S) :
    Cmd n J C S → Option (Submission J) → Submitters n J C S → Prop
  | pool {cmd : Pool.Cmd n J C} {p : St n J C}
      (hd : ¬ (cmd.isDrop ∧ ∃ u, (s.submit u).isOut = false))
      (h : Pool.step cfg cmd s.pool = some p) : Trans cfg hint s (.pool cmd) none ⟨p, s.submit⟩
  | submit {u : S} {j : J} (hd : s.pool.dropped = false) (hu : s.submit u = .out)
      (hj : j ∉ s.pool.accepted) :
      Trans cfg hint s (.submit u j) (some (.submitted j))
        ⟨{ s.pool with accepted := s.pool.accepted ++ [j] }, Function.update s.submit u (.push j)⟩
  | next {u : S} {r : Req n J (Submit n J)} {p : Submit n J} {sh : Shared n J}
      (hr : (s.submit u).next hint = some r)
      (hs : serve cfg.cap false s.pool.shared r = some (p, sh)) :
      Trans cfg hint s (.next u) ((s.submit u).event hint) (s.set u p sh)

lemma step_trans {cfg : Config n} {hint : J → ℕ} {cmd : Cmd n J C S} {s s' : Submitters n J C S}
    {e : Option (Submission J)} (h : step cfg hint cmd s = some (s', e)) :
    Trans cfg hint s cmd e s' := by
  cases cmd with
  | pool cmd =>
    simp only [step] at h
    split_ifs at h with hd
    obtain ⟨p, hp, he⟩ := Option.map_eq_some_iff.mp h
    cases he
    exact .pool hd hp
  | submit u j =>
    simp only [step] at h
    split_ifs at h with hd
    cases h
    exact .submit hd.1 hd.2.1 hd.2.2
  | next u =>
    simp only [step, Option.bind_eq_some_iff, Option.map_eq_some_iff] at h
    obtain ⟨r, hr, ⟨p, sh⟩, hs, he⟩ := h
    cases he
    exact .next hr hs

/-! ### A job is published once -/

/-- The job is with the injector, or was. -/
def Published : Submit n J → Option J
  | .load j | .claim _ j | .unpark _ j | .fallback j | .panicked j => some j
  | _ => none

/-- How often the jobs of the calls were published. -/
structure Once (tr : List (Submission J)) (s : Submitters n J C S) : Prop where
  fresh : ∀ j ∉ s.pool.accepted, .published j ∉ tr ∧ .returned j ∉ tr ∧
    ∀ u, (s.submit u).job? ≠ some j
  alone : ∀ u v j, (s.submit u).job? = some j → (s.submit v).job? = some j → u = v
  pushing : ∀ u j, s.submit u = .push j → .published j ∉ tr
  pushed : ∀ u j, Published (s.submit u) = some j → tr.count (.published j) = 1
  returned : ∀ j, .returned j ∈ tr → tr.count (.published j) = 1
  once : ∀ j, tr.count (.published j) ≤ 1

section
variable {tr : List (Submission J)} {s : Submitters n J C S} {u : S} {j : J}

omit [DecidableEq C] [Fintype C] [Fintype S]

omit [DecidableEq J] [DecidableEq S] in
lemma job_of_published {p : Submit n J} (h : Published p = some j) : p.job? = some j := by
  cases p <;> first | exact h | cases h

omit [DecidableEq S] in
lemma Once.accepted (h : Once tr s) (hu : (s.submit u).job? = some j) : j ∈ s.pool.accepted := by
  by_contra hj
  exact (h.fresh j hj).2.2 u hu

/-- A call goes on with its job, or ends. -/
lemma Once.set (h : Once tr s) {p : Submit n J} {sh : Shared n J}
    (hjob : ∀ j, p.job? = some j → Published (s.submit u) = some j) (hpush : ∀ j, p ≠ .push j) :
    Once tr (s.set u p sh) := by
  have hold : ∀ v j, ((s.set u p sh).submit v).job? = some j → (s.submit v).job? = some j := by
    intro v j hv
    by_cases hvu : v = u
    · subst hvu
      exact job_of_published (hjob j (by simpa [Submitters.set] using hv))
    · simpa [Submitters.set, hvu] using hv
  constructor
  · intro j hj
    obtain ⟨hpub, hret, hnone⟩ := h.fresh j hj
    exact ⟨hpub, hret, fun v hv => hnone v (hold v j hv)⟩
  · exact fun v v' j hv hv' => h.alone v v' j (hold v j hv) (hold v' j hv')
  · intro v j hv
    by_cases hvu : v = u
    · subst hvu
      exact absurd (by simpa [Submitters.set] using hv) (hpush j)
    · exact h.pushing v j (by simpa [Submitters.set, hvu] using hv)
  · intro v j hv
    by_cases hvu : v = u
    · subst hvu
      exact h.pushed v j (hjob j (job_of_published (by simpa [Submitters.set] using hv)))
    · exact h.pushed v j (by simpa [Submitters.set, hvu] using hv)
  · exact h.returned
  · exact h.once

omit [DecidableEq S] in
/-- The end of a call. -/
lemma Once.ended (h : Once tr s) {e : Submission J} (hu : Published (s.submit u) = some j)
    (he : e = .returned j ∨ e = .panicked j) : Once (tr ++ [e]) s := by
  have hcount : ∀ j', (tr ++ [e]).count (.published j') = tr.count (.published j') := by
    intro j'
    rcases he with rfl | rfl <;> simp [List.count_append]
  have hmem : ∀ j', .published j' ∈ tr ++ [e] ↔ .published j' ∈ tr := by
    intro j'
    rcases he with rfl | rfl <;> simp
  constructor
  · intro j' hj'
    obtain ⟨hpub, hret, hnone⟩ := h.fresh j' hj'
    refine ⟨fun hin => hpub ((hmem j').mp hin), ?_, hnone⟩
    have hne : j' ≠ j := fun he => hj' (he ▸ h.accepted (job_of_published hu))
    rcases he with rfl | rfl <;> simp [hret, hne]
  · exact h.alone
  · exact fun v j' hv hin => h.pushing v j' hv ((hmem j').mp hin)
  · intro v j' hv
    rw [hcount]
    exact h.pushed v j' hv
  · intro j' hin
    rw [hcount]
    rcases List.mem_append.mp hin with hin | hin
    · exact h.returned j' hin
    · rcases he with rfl | rfl
      · obtain rfl : j' = j := by simpa using hin
        exact h.pushed u j' hu
      · simp at hin
  · intro j'
    rw [hcount]
    exact h.once j'

/-- The push to the injector. -/
lemma Once.published (h : Once tr s) (hu : s.submit u = .push j) (sh : Shared n J) :
    Once (tr ++ [.published j]) (s.set u (.load j) sh) := by
  have hjob : (s.submit u).job? = some j := by rw [hu]; rfl
  have hzero : tr.count (.published j) = 0 := List.count_eq_zero.mpr (h.pushing u j hu)
  have hcount : ∀ j', (tr ++ [Submission.published j]).count (.published j') =
      tr.count (.published j') + if j = j' then 1 else 0 := by
    intro j'
    simp [List.count_append, List.count_singleton]
  have hold : ∀ v j', ((s.set u (.load j) sh).submit v).job? = some j' →
      (s.submit v).job? = some j' := by
    intro v j' hv
    by_cases hvu : v = u
    · subst hvu
      rw [hjob]
      simpa [Submitters.set, Submit.job?] using hv
    · simpa [Submitters.set, hvu] using hv
  -- nobody else has the job
  have hother : ∀ v j', v ≠ u → (s.submit v).job? = some j' → j ≠ j' := by
    rintro v j' hvu hv rfl
    exact hvu (h.alone v u j hv hjob)
  constructor
  · intro j' hj'
    obtain ⟨hpub, hret, hnone⟩ := h.fresh j' hj'
    have hne : j' ≠ j := by
      rintro rfl
      exact hj' (h.accepted hjob)
    exact ⟨by simp [hpub, hne], by simp [hret], fun v hv => hnone v (hold v j' hv)⟩
  · exact fun v v' j' hv hv' => h.alone v v' j' (hold v j' hv) (hold v' j' hv')
  · intro v j' hv
    by_cases hvu : v = u
    · subst hvu
      simp [Submitters.set] at hv
    · have hv : s.submit v = .push j' := by simpa [Submitters.set, hvu] using hv
      have hne := hother v j' hvu (by rw [hv]; rfl)
      simp [h.pushing v j' hv, Ne.symm hne]
  · intro v j' hv
    rw [hcount]
    by_cases hvu : v = u
    · subst hvu
      obtain rfl : j = j' := by simpa [Submitters.set, Published] using hv
      rw [hzero, if_pos rfl]
    · have hv : Published (s.submit v) = some j' := by simpa [Submitters.set, hvu] using hv
      rw [if_neg (hother v j' hvu (job_of_published hv)), h.pushed v j' hv]
  · intro j' hin
    have hin : .returned j' ∈ tr := by simpa using hin
    have hone := h.returned j' hin
    have hne : j ≠ j' := by
      rintro rfl
      omega
    rw [hcount, if_neg hne, hone]
  · intro j'
    rw [hcount]
    have hle := h.once j'
    split_ifs with he
    · subst he
      omega
    · omega

/-- A new call. -/
lemma Once.submitted (h : Once tr s) (hu : s.submit u = .out) (hj : j ∉ s.pool.accepted) :
    Once (tr ++ [.submitted j]) ⟨{ s.pool with accepted := s.pool.accepted ++ [j] },
      Function.update s.submit u (.push j)⟩ := by
  have hcount : ∀ j', (tr ++ [Submission.submitted j]).count (.published j') =
      tr.count (.published j') := by
    intro j'
    simp [List.count_append]
  have hold : ∀ v j', (Function.update s.submit u (.push j) v).job? = some j' →
      (v = u ∧ j' = j) ∨ (v ≠ u ∧ (s.submit v).job? = some j') := by
    intro v j' hv
    by_cases hvu : v = u
    · subst hvu
      exact .inl ⟨rfl, by simpa [Submit.job?, eq_comm] using hv⟩
    · exact .inr ⟨hvu, by simpa [hvu] using hv⟩
  obtain ⟨hpub, hret, hnone⟩ := h.fresh j hj
  constructor
  · intro j' hj'
    simp only [List.mem_append, List.mem_singleton, not_or] at hj'
    obtain ⟨hpub', hret', hnone'⟩ := h.fresh j' hj'.1
    refine ⟨by simp [hpub'], by simp [hret'], fun v hv => ?_⟩
    rcases hold v j' hv with ⟨-, he⟩ | ⟨-, hv⟩
    · exact hj'.2 he
    · exact hnone' v hv
  · intro v v' j' hv hv'
    rcases hold v j' hv with ⟨rfl, rfl⟩ | ⟨-, hold₁⟩
    · rcases hold v' j' hv' with ⟨rfl, -⟩ | ⟨-, hold₂⟩
      · rfl
      · exact absurd hold₂ (hnone v')
    · rcases hold v' j' hv' with ⟨-, rfl⟩ | ⟨-, hold₂⟩
      · exact absurd hold₁ (hnone v)
      · exact h.alone v v' j' hold₁ hold₂
  · intro v j' hv
    by_cases hvu : v = u
    · subst hvu
      obtain rfl : j = j' := by simpa using hv
      simp [hpub]
    · simpa using h.pushing v j' (by simpa [hvu] using hv)
  · intro v j' hv
    rw [hcount]
    by_cases hvu : v = u
    · subst hvu
      simp [Published] at hv
    · exact h.pushed v j' (by simpa [hvu] using hv)
  · intro j' hin
    rw [hcount]
    exact h.returned j' (by simpa using hin)
  · intro j'
    rw [hcount]
    exact h.once j'

omit [DecidableEq S] in
lemma accepted_step [DecidableEq C] [Fintype C] {cfg : Config n}
    {cmd : Pool.Cmd n J C} {p p' : St n J C} (h : Pool.step cfg cmd p = some p') :
    p.accepted ⊆ p'.accepted := by
  obtain ⟨-, ht⟩ := Pool.step_trans h
  cases ht <;> first | exact fun _ hj => hj | exact List.subset_append_left _ _

end

lemma once {cfg : Config n} {hint : J → ℕ} {ok : Cmd n J C S → Submitters n J C S → Prop}
    {tr : List (Submission J)} {s : Submitters n J C S} (h : (lts cfg hint ok).Reaches tr s) :
    Once tr s := by
  induction h with
  | init h =>
    obtain rfl := h
    constructor
    · exact fun _ _ => by simp [init, Submit.job?]
    · exact fun _ _ _ h => by cases h
    · exact fun _ _ h => by cases h
    · exact fun _ _ h => by cases h
    · exact fun _ h => by cases h
    · exact fun _ => by simp
  | @step s s' e tr r h ih =>
    obtain ⟨cmd, -, hstep⟩ := h
    cases step_trans hstep with
    | @pool cmd p hd hp =>
      have hacc := accepted_step hp
      rw [Option.toList_none, List.append_nil]
      exact ⟨fun j hj => ih.fresh j fun hin => hj (hacc hin), ih.alone, ih.pushing, ih.pushed,
        ih.returned, ih.once⟩
    | submit hd hu hj => exact ih.submitted hu hj
    | @next u r p sh hr hs =>
      cases hu : s.submit u with
      | out | panicked =>
        rw [hu] at hr
        cases hr
      | push j =>
        rw [hu] at hr
        cases hr
        cases hs
        exact ih.published hu _
      | load j =>
        rw [hu] at hr
        cases hr
        cases hs
        show Once (tr ++ (none : Option (Submission J)).toList) _
        rw [Option.toList_none, List.append_nil]
        refine ih.set ?_ ?_
        · intro j' hj'
          rw [hu]
          dsimp only at hj'
          split at hj' <;> exact hj'
        · intro j'
          dsimp only
          split <;> simp
      | claim c j =>
        rw [hu] at hr
        cases hr
        cases hs
        show Once (tr ++ (none : Option (Submission J)).toList) _
        rw [Option.toList_none, List.append_nil]
        refine ih.set ?_ ?_
        · intro j' hj'
          rw [hu]
          dsimp only at hj'
          split at hj' <;> exact hj'
        · intro j'
          dsimp only
          split <;> simp
      | unpark c j =>
        have hpub : Published (s.submit u) = some j := by rw [hu]; rfl
        rw [hu] at hr
        cases hr
        cases hs
        exact (ih.ended hpub (.inl rfl)).set (fun _ h => by cases h) (by simp)
      | fallback j =>
        have hpub : Published (s.submit u) = some j := by rw [hu]; rfl
        rw [hu, Submit.next] at hr
        rw [Submit.event]
        split_ifs at hr with hlt
        · cases hr
          cases hs
          rw [if_pos hlt]
          exact (ih.ended hpub (.inl rfl)).set (fun _ h => by cases h) (by simp)
        · cases hr
          cases hs
          rw [if_neg hlt]
          refine (ih.ended hpub (.inr rfl)).set ?_ (by simp)
          rintro j' ⟨⟩
          exact hpub

/-! ### A call that is heeded comes to an end -/

/-- No call has come to a bad end, or is about to. -/
structure Safe (hint : J → ℕ) (s : Submitters n J C S) : Prop where
  fallback : ∀ u j, s.submit u = .fallback j → hint j < n
  panicked : ∀ u j, s.submit u ≠ .panicked j

section
variable {cfg : Config n} {hint : J → ℕ} {s : Submitters n J C S} {u : S} {j : J}

omit [DecidableEq J] [DecidableEq C] [Fintype C] [Fintype S]

lemma Safe.set (h : Safe hint s) {p : Submit n J} {sh : Shared n J}
    (hfall : ∀ j, p = .fallback j → hint j < n) (hpanic : ∀ j, p ≠ .panicked j) :
    Safe hint (s.set u p sh) := by
  constructor
  · intro v j hv
    by_cases hvu : v = u
    · subst hvu
      exact hfall j (by simpa [Submitters.set] using hv)
    · exact h.fallback v j (by simpa [Submitters.set, hvu] using hv)
  · intro v j hv
    by_cases hvu : v = u
    · subst hvu
      exact hpanic j (by simpa [Submitters.set] using hv)
    · exact h.panicked v j (by simpa [Submitters.set, hvu] using hv)

end

/-- The submitter, left alone, comes to the end of its call. -/
def Ends (cfg : Config n) (hint : J → ℕ) (s : Submitters n J C S) (u : S) : Prop :=
  ∃ tr s', (lts cfg hint (Heeded hint)).Steps s tr s' ∧ s'.submit u = .out

section
variable {cfg : Config n} {hint : J → ℕ} {s : Submitters n J C S} {u : S} {j : J}

lemma next_step (cfg : Config n) (hint : J → ℕ)
    {ok : Cmd n J C S → Submitters n J C S → Prop} (hok : ok (.next u) s)
    {r : Req n J (Submit n J)} {p : Submit n J} {sh : Shared n J}
    (hr : (s.submit u).next hint = some r)
    (hs : serve cfg.cap false s.pool.shared r = some (p, sh)) :
    (lts cfg hint ok).step s ((s.submit u).event hint) (s.set u p sh) :=
  ⟨.next u, hok, by simp [step, hr, hs]⟩

lemma Ends.head {r : Req n J (Submit n J)} {p : Submit n J} {sh : Shared n J}
    (hok : Heeded hint (.next u) s) (hr : (s.submit u).next hint = some r)
    (hs : serve cfg.cap false s.pool.shared r = some (p, sh))
    (h : p = .out ∨ Ends cfg hint (s.set u p sh) u) : Ends cfg hint s u := by
  have hstep := next_step cfg hint hok hr hs
  rcases h with rfl | ⟨tr, s', hsteps, hout⟩
  · exact ⟨_, _, .one hstep, by simp [Submitters.set]⟩
  · exact ⟨_, s', .head hstep hsteps, hout⟩

end

/-! ### The number does not matter -/

/-- The same state, with other permits. -/
def withPermits (s : Submitters n J C S) (p : Fin n → Bool) : Submitters n J C S :=
  { s with pool := s.pool.withPermits p }

lemma exists_reaches (cfg : Config n) (hint : J → ℕ)
    (ok : Cmd n J C S → Submitters n J C S → Prop) [∀ cmd s, Decidable (ok cmd s)]
    (script : List (Cmd n J C S)) {β : Type*} (f : List (Submission J) × Submitters n J C S → β)
    {v : β} (h : (Lts.runs (step cfg hint) ok script init).map f = some v) :
    ∃ tr s, (lts cfg hint ok).Reaches tr s ∧ f (tr, s) = v :=
  Lts.exists_reaches_of_runs f rfl h

end Submitters

end St3.Pool
