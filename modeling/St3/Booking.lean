import St3.Estimates
import Mathlib.Logic.Relation

/-!
Who has booked items of a queue, and what the errors of `book_items` say.

A booking is outstanding while an agent has it, and for ever once it is lost with a leaked
`Drain`. Of both kinds together there is at most one at a time, and there is one exactly while
the two head positions of the queue differ. From this the errors are justified: `Busy` says
that a booking was outstanding at some moment of the call, `Empty` that there was nothing to
take, and a call that fails has changed nothing.
-/

namespace St3.Lts

variable {σ ε : Type*}

/-- Some run leads from the one state to the other, and `P` holds in all of its states. -/
inductive During (L : Lts σ ε) (P : σ → Prop) : σ → σ → Prop
  | refl {s : σ} (h : P s) : During L P s s
  | step {s s' s'' : σ} {l : Option ε} (r : During L P s s') (h : L.step s' l s'') (hp : P s'') :
      During L P s s''

variable {L : Lts σ ε} {P : σ → Prop} {s s' s'' : σ}

lemma During.last (h : L.During P s s') : P s' := by
  cases h with
  | refl h => exact h
  | step _ _ hp => exact hp

lemma During.reaches {tr : List ε} (h : L.During P s s') (r : L.Reaches tr s) :
    ∃ tr', L.Reaches tr' s' := by
  induction h with
  | refl => exact ⟨tr, r⟩
  | step _ hs _ ih =>
    obtain ⟨tr', r'⟩ := ih
    exact ⟨_, r'.step hs⟩

lemma During.head {l : Option ε} (hp : P s) (hs : L.step s l s') (h : L.During P s' s'') :
    L.During P s s'' := by
  induction h with
  | refl h => exact .step (.refl hp) hs h
  | step _ hs' hp' ih => exact ih.step hs' hp'

/-- An executable run with a test of `P` before every command. -/
lemma During.of_runs {κ : Type*} {init : σ → Prop} {next : κ → σ → Option (σ × Option ε)}
    {ok : κ → σ → Prop} [∀ c s, Decidable (ok c s)] [DecidablePred P] {cs : List κ}
    {tr : List ε} (h : runs next (fun c s => ok c s ∧ P s) cs s = some (tr, s')) (hp : P s') :
    (ofStep init next ok).During P s s' := by
  induction cs generalizing s tr with
  | nil =>
    simp only [runs, Option.some.injEq, Prod.mk.injEq] at h
    obtain ⟨-, rfl⟩ := h
    exact .refl hp
  | cons c cs ih =>
    simp only [runs, Option.ite_none_right_eq_some, Option.bind_eq_some_iff,
      Option.map_eq_some_iff, Prod.mk.injEq] at h
    obtain ⟨⟨hok, hp₀⟩, ⟨s₁, l⟩, hs, ⟨tr', s₂⟩, hr, -, rfl⟩ := h
    exact .head hp₀ ⟨c, hok, hs⟩ (ih hr)

end St3.Lts

namespace St3.Deque

variable {σ T A : Type*}

/-- A `Drain` was leaked while it had the booking of the queue. -/
def Leaked (L : Lts σ (Event T A)) (holds : σ → A → Prop) (s : σ) : Prop :=
  ∃ tr s₁ s₂ tr' y, L.Reaches tr s₁ ∧ holds s₁ y ∧ L.step s₁ (some (.forget y)) s₂ ∧
    L.Steps s₂ tr' s

def Outstanding (L : Lts σ (Event T A)) (holds : σ → A → Prop) (s : σ) : Prop :=
  (∃ y, holds s y) ∨ Leaked L holds s

variable [DecidableEq A] {fl : Flavour} {cap : ℕ} {a a' : St T A} {l : Option (Event T A)}

/-- A lost booking stays lost. -/
lemma Step.lost (h : Step fl cap a l a') (hl : a.holder = .lost) : a'.holder = .lost := by
  cases h with
  | drain _ _ hb => rw [hl] at hb; cases hb
  | book _ hb => rw [hl] at hb; cases hb
  | release _ hb => rw [hl] at hb; cases hb
  | releaseLast _ hb => rw [hl] at hb; cases hb
  | leak => rfl
  | _ => exact hl

/-- A booking is lost when its `Drain` is leaked. -/
lemma Step.loses (h : Step fl cap a l a') (hn : a.holder ≠ .lost) (hl : a'.holder = .lost) :
    ∃ y, l = some (.forget y) := by
  cases h with
  | leak => exact ⟨_, rfl⟩
  | drain => cases hl
  | book => cases hl
  | release => cases hl
  | releaseLast => cases hl
  | _ => exact absurd hl hn

lemma lost_of_steps {tr : List (Event T A)} (h : (lts fl cap).Steps a tr a')
    (hl : a.holder = .lost) : a'.holder = .lost := by
  have hs : ∀ {a : St T A} {l : Option (Event T A)} {a' : St T A},
      a.holder = .lost → (lts fl cap).step a l a' → a'.holder = .lost := fun hl h => Step.lost h hl
  exact h.invariant hs hl

lemma loses_of_steps {tr : List (Event T A)} (h : (lts fl cap).Steps a tr a')
    (hn : a.holder ≠ .lost) (hl : a'.holder = .lost) : ∃ y, .forget y ∈ tr := by
  induction h with
  | refl => exact absurd hl hn
  | @head a a₁ a₂ l tr hs _ ih =>
    by_cases h₁ : a₁.holder = .lost
    · obtain ⟨y, rfl⟩ := Step.loses hs hn h₁
      exact ⟨y, by simp⟩
    · obtain ⟨y, hy⟩ := ih h₁ hl
      exact ⟨y, List.mem_append_right _ hy⟩

lemma bookCount_eq_zero {w want : ℕ} {maxCount itemCount : BitVec w} (h : itemCount ≠ 0)
    (hc : bookCount want maxCount itemCount = 0) : want = 0 ∨ maxCount = 0 := by
  have h1 := itemCount.isLt
  have h2 : itemCount.toNat ≠ 0 := fun e => h (BitVec.eq_of_toNat_eq (by simpa using e))
  have h3 := congrArg BitVec.toNat hc
  rw [bookCount, BitVec.toNat_ofNat, Nat.mod_eq_of_lt (by omega)] at h3
  have h4 : (0 : BitVec w).toNat = 0 := by simp
  rw [h4] at h3
  have h5 : want = 0 ∨ maxCount.toNat = 0 := by omega
  exact h5.imp_right fun e => BitVec.eq_of_toNat_eq (by simpa using e)

/-- What a system that the deque simulates says about its bookings: who holds one, and whether
its two head positions differ. -/
structure Bookings (fl : Flavour) (L : Lts σ (Event T A)) (Rel : ℕ → σ → St T A → Prop)
    (holds : σ → A → Prop) (Split : σ → Prop) : Prop where
  init : ∀ {s}, L.init s → ∃ k a, Rel k s a ∧ a.holder = .free
  step : ∀ {k s a l s'}, Rel k s a → L.step s l s' →
    ∃ a', (lts fl (2 ^ k)).Steps a l.toList a' ∧ Rel k s' a'
  holds_iff : ∀ {k s a y}, Rel k s a → (holds s y ↔ a.holder = .agent y)
  split_iff : ∀ {k s a}, Rel k s a → (Split s ↔ a.holder ≠ .free)
  forget : ∀ {s y s'}, L.step s (some (.forget y)) s' →
    (Split s' ↔ Split s) ∧ ¬ holds s' y ∧ ∀ z, z ≠ y → (holds s' z ↔ holds s z)

namespace Bookings

variable {L : Lts σ (Event T A)} {Rel : ℕ → σ → St T A → Prop} {holds : σ → A → Prop}
  {Split : σ → Prop} {s s' : σ} {k : ℕ} {y z : A} {tr : List (Event T A)}

lemma steps (B : Bookings fl L Rel holds Split) (h : Rel k s a) (hs : L.Steps s tr s') :
    ∃ a', (lts fl (2 ^ k)).Steps a tr a' ∧ Rel k s' a' := by
  induction hs generalizing a with
  | refl => exact ⟨a, .refl a, h⟩
  | head hs _ ih =>
    obtain ⟨a₁, h₁, hr₁⟩ := B.step h hs
    obtain ⟨a₂, h₂, hr₂⟩ := ih hr₁
    exact ⟨a₂, h₁.trans h₂, hr₂⟩

/-- The one step that loses a booking. -/
lemma loses (B : Bookings fl L Rel holds Split) (h : Rel k s a) (hs : L.step s l s')
    (h' : Rel k s' a') (hst : (lts fl (2 ^ k)).Steps a l.toList a') (hn : a.holder ≠ .lost)
    (hl : a'.holder = .lost) : ∃ y, l = some (.forget y) ∧ holds s y := by
  obtain ⟨y, hy⟩ := loses_of_steps hst hn hl
  have hly : l = some (.forget y) := by
    cases l with
    | none => simp at hy
    | some e => simpa [eq_comm] using hy
  subst hly
  obtain ⟨hsp, -, hz⟩ := B.forget hs
  have hsplit : Split s := hsp.mp ((B.split_iff h').mpr (by rw [hl]; exact nofun))
  rcases ha : a.holder with _ | z | _
  · exact absurd ha ((B.split_iff h).mp hsplit)
  · have hzs := (B.holds_iff h).mpr ha
    by_cases he : z = y
    · exact ⟨y, rfl, he ▸ hzs⟩
    · have := (B.holds_iff h').mp ((hz z he).mpr hzs)
      rw [hl] at this
      cases this
  · exact absurd ha hn

lemma reaches (B : Bookings fl L Rel holds Split) (h : L.Reaches tr s) :
    ∃ k a, Rel k s a ∧ (a.holder = .lost → Leaked L holds s) := by
  induction h with
  | init h =>
    obtain ⟨k, a, hr, hf⟩ := B.init h
    exact ⟨k, a, hr, fun hl => by rw [hf] at hl; cases hl⟩
  | @step s s' l tr r hs ih =>
    obtain ⟨k, a, hr, hl⟩ := ih
    obtain ⟨a', hst, hr'⟩ := B.step hr hs
    refine ⟨k, a', hr', fun hl' => ?_⟩
    by_cases hn : a.holder = .lost
    · obtain ⟨tr₁, s₁, s₂, tr', y, h₁, hy, h₂, h₃⟩ := hl hn
      exact ⟨tr₁, s₁, s₂, _, y, h₁, hy, h₂, h₃.trans (.one hs)⟩
    · obtain ⟨y, rfl, hy⟩ := B.loses hr hs hr' hst hn hl'
      exact ⟨tr, s, s', [], y, r, hy, hs, .refl s'⟩

/-- A leaked booking is lost. -/
lemma lost (B : Bookings fl L Rel holds Split) (h : Leaked L holds s) :
    ∃ k a, Rel k s a ∧ a.holder = .lost := by
  obtain ⟨tr, s₁, s₂, tr', y, h₁, hy, h₂, h₃⟩ := h
  obtain ⟨k, a₁, hr₁, -⟩ := B.reaches h₁
  obtain ⟨a₂, -, hr₂⟩ := B.step hr₁ h₂
  obtain ⟨hsp, hny, hz⟩ := B.forget h₂
  have hy' := (B.holds_iff hr₁).mp hy
  have hsplit : Split s₂ := hsp.mpr ((B.split_iff hr₁).mpr (by rw [hy']; exact nofun))
  have hl : a₂.holder = .lost := by
    rcases ha : a₂.holder with _ | z | _
    · exact absurd ha ((B.split_iff hr₂).mp hsplit)
    · have hzs := (B.holds_iff hr₂).mpr ha
      by_cases he : z = y
      · exact absurd (he ▸ hzs) hny
      · have := (B.holds_iff hr₁).mp ((hz z he).mp hzs)
        rw [hy'] at this
        exact absurd (Holder.agent.inj this).symm he
    · rfl
  obtain ⟨a, hst, hr⟩ := B.steps hr₂ h₃
  exact ⟨k, a, hr, lost_of_steps hst hl⟩

/-- A booking is outstanding exactly while the heads differ. -/
lemma outstanding_iff (B : Bookings fl L Rel holds Split) (h : L.Reaches tr s) :
    Outstanding L holds s ↔ Split s := by
  obtain ⟨k, a, hr, hl⟩ := B.reaches h
  constructor
  · rintro (⟨y, hy⟩ | hk)
    · rw [B.split_iff hr, (B.holds_iff hr).mp hy]
      exact nofun
    · obtain ⟨k', a', hr', hl'⟩ := B.lost hk
      rw [B.split_iff hr', hl']
      exact nofun
  · intro hsp
    rcases ha : a.holder with _ | y | _
    · exact absurd ha ((B.split_iff hr).mp hsp)
    · exact .inl ⟨y, (B.holds_iff hr).mpr ha⟩
    · exact .inr (hl ha)

/-- There is one booking at a time. -/
lemma exclusive (B : Bookings fl L Rel holds Split) (h : L.Reaches tr s) (hy : holds s y) :
    ¬ Leaked L holds s ∧ ∀ z, holds s z → z = y := by
  obtain ⟨k, a, hr, -⟩ := B.reaches h
  have ha := (B.holds_iff hr).mp hy
  refine ⟨fun hk => ?_, fun z hz => ?_⟩
  · obtain ⟨k', a', hr', hl'⟩ := B.lost hk
    rw [B.holds_iff hr', hl'] at hy
    cases hy
  · rw [B.holds_iff hr, ha] at hz
    exact (Holder.agent.inj hz).symm

end Bookings

/-- A queue as its callers of `book_items` see it: stealers, and its owner (`none`). -/
structure Clients (σ Q T A : Type*) where
  L : Lts σ (Event T A)
  /-- The position words and the slots. -/
  queue : σ → Q
  holds : σ → A → Prop
  /-- The two head positions differ. -/
  Split : σ → Prop
  /-- The call is at its first access. -/
  Start : Option A → σ → Prop
  Booking : Option A → σ → Prop
  Failed : StealError → Option A → σ → Prop
  /-- The next access of the call. -/
  own : Choice T A → Option A → σ → σ → Prop
  noItem : σ → Prop
  noRoom : Option A → σ → Prop
  /-- Less than a full turn, the stored items included, has passed since the load that the item
  count of the call builds on. -/
  inTurn : Option A → σ → Prop

/-- Bookings are exclusive and the errors of `book_items` are justified. -/
structure Justified {σ Q : Type*} (C : Clients σ Q T A) : Prop where
  exclusive : ∀ {tr s y}, C.L.Reaches tr s → C.holds s y →
    ¬ Leaked C.L C.holds s ∧ ∀ z, C.holds s z → z = y
  heads : ∀ {tr s}, C.L.Reaches tr s → ¬ Outstanding C.L C.holds s → ¬ C.Split s
  busy : ∀ {tr s₀ s₁ l s₂ c}, C.L.Reaches tr s₀ → C.Start c s₀ →
    C.L.During (C.Booking c) s₀ s₁ → C.L.step s₁ l s₂ → C.Failed .busy c s₂ →
    ∃ u, C.L.During (C.Booking c) s₀ u ∧ C.L.During (C.Booking c) u s₁ ∧
      Outstanding C.L C.holds u
  alone : ∀ {tr s₀ s₁ ch s₂ c}, C.L.Reaches tr s₀ → ¬ Outstanding C.L C.holds s₀ →
    C.Start c s₀ →
    Relation.ReflTransGen (fun s s' => ∃ ch, C.own ch c s s' ∧ C.Booking c s') s₀ s₁ →
    C.own ch c s₁ s₂ → ¬ C.Failed .busy c s₂
  empty : ∀ {tr s ch s' c}, C.L.Reaches tr s → C.Booking c s → C.inTurn c s → C.own ch c s s' →
    C.Failed .empty c s' → C.noItem s ∨ ch.want = 0 ∨ C.noRoom c s
  unchanged : ∀ {s ch s' c}, C.Booking c s → C.own ch c s s' →
    (C.Booking c s' ∨ ∃ e, C.Failed e c s') → C.queue s' = C.queue s

end St3.Deque

/-! ### LIFO -/

namespace St3.Lifo

open Words Slots Deque

variable {w k : ℕ} {T A : Type*}

/-- The agent has booked items and not given their slots back. -/
def AgentPc.Holds : AgentPc w T → Prop
  | .move .. | .storeHead .. | .nextStore .. => True
  | .drain current fin _ | .next _ current fin _ | .nextDone _ _ current fin _ => current ≠ fin
  | _ => False

/-- The two head positions differ. -/
def St.Split (s : St w T A) : Prop := s.queue.head ≠ s.snap.head

section
variable {s s' : St w T A} {a : Deque.St T A}

lemma Rel.split_iff (hk : k < w) (h : Rel k s a) : s.Split ↔ a.holder ≠ .free := by
  obtain ⟨extra, hm, -⟩ := h
  have h1 := hm.held
  have h2 := hm.held_lt hk
  have hs : s.snap.head = word w s.stolen := hm.snap_ok.head
  unfold St.Split
  rw [hm.head, hs, ne_eq, ne_eq, hm.free, eq_comm, word_inj (by omega) (by omega)]
  omega

lemma DrainRel.ne_iff {g : Gauge} {mine : Prop} {lent : List T} {current fin : BitVec w}
    {booked : ℕ} (h : DrainRel g mine lent current fin booked) (h1 : lent.length ≤ g.stolen)
    (h2 : lent.length < 2 ^ w) : current ≠ fin ↔ mine := by
  rcases h with ⟨hn, rfl⟩ | ⟨hm, hl, rfl, rfl, -⟩
  · exact ⟨fun h => absurd rfl h, fun h => absurd h hn⟩
  · refine ⟨fun _ => hm, fun _ e => hl ?_⟩
    rw [eq_comm, word_inj (by omega) (by omega)] at e
    exact List.eq_nil_of_length_eq_zero (by omega)

lemma Rel.holds_iff (hk : k < w) (h : Rel k s a) {y : A} :
    (s.agent y).Holds ↔ a.holder = .agent y := by
  obtain ⟨extra, hm, -, hag⟩ := h
  have h0 := hm.lent
  have h1 := hm.held
  have h2 := hm.held_lt hk
  have hd : ∀ {current fin : BitVec w} {booked : ℕ},
      DrainRel (gauge s a) (a.holder = .agent y) a.lent current fin booked →
        (current ≠ fin ↔ a.holder = .agent y) :=
    fun h => h.ne_iff (h0.trans h1) (by omega)
  have hy := hag y
  generalize s.agent y = p at hy
  generalize a.agent y = q at hy
  cases hy with
  | drain _ _ _ h => exact hd h
  | next _ _ _ _ h => exact hd h
  | nextDone _ _ _ _ _ h => exact hd h
  | idle hn => exact ⟨False.elim, fun h => hn h⟩
  | done _ hn => exact ⟨False.elim, fun h => hn h⟩
  | book _ _ _ _ hn => exact ⟨False.elim, fun h => hn h⟩
  | move _ _ _ hm => exact ⟨fun _ => hm, fun _ => trivial⟩
  | storeHead _ hm => exact ⟨fun _ => hm, fun _ => trivial⟩
  | nextStore _ _ _ hm => exact ⟨fun _ => hm, fun _ => trivial⟩

end

variable [DecidableEq A] {s s' : St w T A} {l : Option (Event T A)}

/-- What a read or a step of `book_items` leaves alone. -/
structure SameThreads (s s' : St w T A) : Prop where
  owner : s'.owner = s.owner
  agent : s'.agent = s.agent
  head : s'.queue.head = s.queue.head

omit [DecidableEq A] in
lemma readAt_same (s : St w T A) (pos : BitVec w) : SameThreads s (s.readAt pos).2 := by
  unfold St.readAt
  split <;> exact ⟨rfl, rfl, rfl⟩

omit [DecidableEq A] in
lemma bookStep_same (c : Choice T A) (maxCount : BitVec w) (s : St w T A) (b : BookPc w) :
    SameThreads s (bookStep c maxCount s b).2 := by
  cases b with
  | loadWord => exact ⟨rfl, rfl, rfl⟩
  | loadHead sn => exact ⟨rfl, rfl, rfl⟩
  | loadCount sn oldHead =>
    simp only [bookStep]
    split_ifs <;> exact ⟨rfl, rfl, rfl⟩
  | cas sn oldHead count =>
    simp only [bookStep]
    split_ifs <;> exact ⟨rfl, rfl, rfl⟩

lemma ownerStep_frame {c : Choice T A} (h : ownerStep c s = some (s', l)) :
    (∀ y, l ≠ some (.forget y)) ∧ s'.queue.head = s.queue.head ∧
      ∀ x, s'.agent x = s.agent x ∨ s.agent x = .idle := by
  cases ho : s.owner with
  | popRead tail =>
    have hs := readAt_same s (tail - 1)
    simp only [ownerStep, ho, Option.some.injEq, Prod.mk.injEq] at h
    obtain ⟨rfl, rfl⟩ := h
    exact ⟨by simp, hs.head, fun x => .inl (congrFun hs.agent x)⟩
  | drainBook b =>
    have hs := bookStep_same c (-1) s b
    simp only [ownerStep, ho] at h
    generalize bookStep c (-1) s b = r at h hs
    obtain ⟨out, s₁⟩ := r
    cases out with
    | go b' =>
      simp only [Option.some.injEq, Prod.mk.injEq] at h
      obtain ⟨rfl, rfl⟩ := h
      exact ⟨by simp, hs.head, fun x => .inl (congrFun hs.agent x)⟩
    | err e =>
      simp only [Option.some.injEq, Prod.mk.injEq] at h
      obtain ⟨rfl, rfl⟩ := h
      exact ⟨by simp, hs.head, fun x => .inl (congrFun hs.agent x)⟩
    | ok head newHead count =>
      simp only at h
      split at h
      · rename_i hidle
        simp only [Option.some.injEq, Prod.mk.injEq] at h
        obtain ⟨rfl, rfl⟩ := h
        refine ⟨by simp, hs.head, fun x => ?_⟩
        by_cases hx : x = c.drain
        · exact .inr (hx ▸ hidle)
        · exact .inl ((Function.update_of_ne hx _ _).trans (congrFun hs.agent x))
      · cases h
  | recvWrite pushCount tail done n =>
    simp only [ownerStep, ho] at h
    split at h
    · simp only [Option.bind_eq_some_iff, Option.some.injEq, Prod.mk.injEq] at h
      obtain ⟨x, -, rfl, rfl⟩ := h
      exact ⟨by simp, rfl, fun _ => .inl rfl⟩
    · cases h
      exact ⟨by simp, rfl, fun _ => .inl rfl⟩
  | idle => simp only [ownerStep, ho, reduceCtorEq] at h
  | recvBook m pushCount tail free =>
    simp only [ownerStep, ho] at h
    (repeat' split at h) <;> cases h <;> exact ⟨by simp, rfl, fun _ => .inl rfl⟩
  | pushLoadHead x pushCount tail =>
    simp only [ownerStep, ho] at h
    split at h <;> cases h <;> exact ⟨by simp, rfl, fun _ => .inl rfl⟩
  | popCas sn tail newPopCount =>
    simp only [ownerStep, ho] at h
    split at h <;> cases h <;> exact ⟨by simp, rfl, fun _ => .inl rfl⟩
  | _ =>
    simp only [ownerStep, ho, Option.some.injEq, Prod.mk.injEq] at h
    obtain ⟨rfl, rfl⟩ := h
    exact ⟨by simp, rfl, fun _ => .inl rfl⟩

lemma agentStep_frame {c : Choice T A} {x : A} (h : agentStep c x s = some (s', l)) :
    (∀ y, l ≠ some (.forget y)) ∧ s'.owner = s.owner ∧ (∀ y, y ≠ x → s'.agent y = s.agent y) ∧
      (s'.queue.head = s.queue.head ∨ (s.agent x).Holds) := by
  have moved : ∀ {s₁ : St w T A} (p : AgentPc w T), SameThreads s s₁ →
      (s₁.setAgent x p).owner = s.owner ∧ (∀ y, y ≠ x → (s₁.setAgent x p).agent y = s.agent y) ∧
        ((s₁.setAgent x p).queue.head = s.queue.head ∨ (s.agent x).Holds) :=
    fun p hs => ⟨hs.owner, fun y hy => (Function.update_of_ne hy _ _).trans (congrFun hs.agent y),
      .inl hs.head⟩
  have still : SameThreads s s := ⟨rfl, rfl, rfl⟩
  cases hx : s.agent x with
  | idle => simp only [agentStep, hx, reduceCtorEq] at h
  | drain => simp only [agentStep, hx, reduceCtorEq] at h
  | done r =>
    simp only [agentStep, hx, Option.some.injEq, Prod.mk.injEq] at h
    obtain ⟨rfl, rfl⟩ := h
    exact ⟨by simp, hx ▸ moved _ still⟩
  | book m maxCount b =>
    have hs := bookStep_same c maxCount s b
    simp only [agentStep, hx] at h
    generalize bookStep c maxCount s b = r at h hs
    obtain ⟨out, s₁⟩ := r
    cases out <;> cases h <;> exact ⟨by simp, hx ▸ moved _ hs⟩
  | move m oldHead newHead done count =>
    have hs := readAt_same s (oldHead + BitVec.ofNat w done)
    simp only [agentStep, hx] at h
    generalize s.readAt (oldHead + BitVec.ofNat w done) = r at h hs
    obtain ⟨o, s₁⟩ := r
    (repeat' split at h) <;> cases h <;> rename_i he <;>
      first
      | exact ⟨by simp, hx ▸ moved _ still⟩
      | (cases he; exact ⟨by simp, hx ▸ moved _ hs⟩)
      | (cases he; exact ⟨by simp, hs.owner, fun y _ => congrFun hs.agent y, .inl hs.head⟩)
  | storeHead newHead r =>
    simp only [agentStep, hx, Option.some.injEq, Prod.mk.injEq] at h
    obtain ⟨rfl, rfl⟩ := h
    exact ⟨by simp, rfl, fun y hy => Function.update_of_ne hy _ _, .inr trivial⟩
  | next d current fin booked =>
    have hs := readAt_same s current
    simp only [agentStep, hx] at h
    generalize s.readAt current = r at h hs
    obtain ⟨o, s₁⟩ := r
    split at h
    · cases h
      exact ⟨by simp, hx ▸ moved _ still⟩
    · cases o with
      | none =>
        cases h
        exact ⟨by simp, hs.owner, fun y _ => congrFun hs.agent y, .inl hs.head⟩
      | some y =>
        simp only at h
        split at h <;> cases h <;> exact ⟨by simp, hx ▸ moved _ hs⟩
  | nextStore d y fin booked =>
    simp only [agentStep, hx, Option.some.injEq, Prod.mk.injEq] at h
    obtain ⟨rfl, rfl⟩ := h
    exact ⟨by simp, rfl, fun y hy => Function.update_of_ne hy _ _, .inr trivial⟩
  | nextDone d o current fin booked =>
    cases d <;> cases o <;> simp only [agentStep, hx, Option.some.injEq, Prod.mk.injEq] at h <;>
      obtain ⟨rfl, rfl⟩ := h <;> exact ⟨by simp, hx ▸ moved _ still⟩

lemma forget_frame {y : A} (h : (lts w T A).step s (some (.forget y)) s') :
    s'.queue = s.queue ∧ s'.agent = Function.update s.agent y .idle := by
  obtain ⟨cmd, -, h⟩ := h
  cases cmd with
  | call op =>
    simp only [step] at h
    split at h <;> simp at h
  | owner c => exact absurd rfl ((ownerStep_frame h).1 y)
  | start x t free =>
    simp only [step, agentStart] at h
    split at h <;> simp at h
  | agent x c => exact absurd rfl ((agentStep_frame h).1 y)
  | forget x =>
    simp only [step, agentForget] at h
    split at h <;> simp only [Option.some.injEq, Prod.mk.injEq, Event.forget.injEq,
      reduceCtorEq] at h
    all_goals
      obtain ⟨rfl, rfl⟩ := h
      exact ⟨rfl, rfl⟩

/-- What the LIFO queue says about its bookings. -/
lemma bookings (hw : 0 < w) : Bookings .lifo (lts w T A) (fun k s a => k < w ∧ Rel k s a)
    (fun s y => (s.agent y).Holds) St.Split where
  init h := by
    obtain ⟨k, hk, hr⟩ := init_rel hw h
    exact ⟨k, _, ⟨hk, hr⟩, rfl⟩
  step := by
    rintro k s a l s' ⟨hk, hr⟩ hs
    obtain ⟨a', hst, hr'⟩ := step_sim hk hr hs
    exact ⟨a', hst, hk, hr'⟩
  holds_iff h := h.2.holds_iff h.1
  split_iff h := h.2.split_iff h.1
  forget := by
    intro s y s' h
    obtain ⟨hq, ha⟩ := forget_frame h
    refine ⟨?_, ?_, fun z hz => ?_⟩
    · unfold St.Split St.snap
      rw [hq]
      rfl
    · rw [ha, Function.update_self]
      exact id
    · rw [ha, Function.update_of_ne hz]

/-! The calls of `book_items`, by a stealer or by the owner. -/

/-- Where a caller stands in `book_items`. -/
def St.booking (s : St w T A) : Option A → Option (BookPc w)
  | none =>
    match s.owner with
    | .drainBook b => some b
    | _ => none
  | some x =>
    match s.agent x with
    | .book _ _ b => some b
    | _ => none

/-- The call of `book_items` has ended with an error, which the caller returns. -/
def St.Failed (s : St w T A) (e : StealError) : Option A → Prop
  | none => s.owner = .ret (.drainErr e)
  | some x => s.agent x = .done (.stealErr e)

/-- The most items that the caller may book. -/
def St.maxCount (s : St w T A) : Option A → BitVec w
  | none => -1
  | some x =>
    match s.agent x with
    | .book _ maxCount _ => maxCount
    | _ => 0

/-- The next access of a caller. -/
def access (c : Choice T A) : Option A → Cmd w T A
  | none => .owner c
  | some x => .agent x c

/-- A call of `book_items` is under way. -/
def St.Booking (c : Option A) (s : St w T A) : Prop := (s.booking c).isSome

instance (c : Option A) (s : St w T A) : Decidable (s.Booking c) :=
  inferInstanceAs (Decidable ((s.booking c).isSome = true))

variable {c : Option A} {b : BookPc w}

omit [DecidableEq A] in
lemma not_failed_of_booking {e : StealError} (hb : s.booking c = some b) : ¬ s.Failed e c := by
  intro hf
  cases c with
  | none => simp [St.booking, show s.owner = .ret (.drainErr e) from hf] at hb
  | some x => simp [St.booking, show s.agent x = .done (.stealErr e) from hf] at hb

omit [DecidableEq A] in
lemma failed_unique {e e' : StealError} (h : s.Failed e c) (h' : s.Failed e' c) : e = e' := by
  cases c with
  | none => simpa using (show s.owner = .ret (.drainErr e) from h).symm.trans h'
  | some x => simpa using (show s.agent x = .done (.stealErr e) from h).symm.trans h'

omit [DecidableEq A] in
lemma bookStep_queue {ch : Choice T A} {m : BitVec w} {out : BookOut w} {s₁ : St w T A}
    (h : bookStep ch m s b = (out, s₁)) (hout : ∀ x y z, out ≠ .ok x y z) : s₁ = s := by
  cases b with
  | loadWord => cases h; rfl
  | loadHead sn => cases h; rfl
  | loadCount sn oldHead =>
    simp only [bookStep] at h
    split_ifs at h <;> cases h <;> rfl
  | cas sn oldHead count =>
    simp only [bookStep] at h
    split_ifs at h
    · cases h
      exact absurd rfl (hout _ _ _)
    · cases h
      rfl

/-- The caller makes an access of `book_items`: it goes on, fails, or books. -/
lemma own_step {ch : Choice T A} (hb : s.booking c = some b)
    (h : step (access ch c) s = some (s', l)) :
    (∃ b', (bookStep ch (s.maxCount c) s b).1 = .go b' ∧ s'.booking c = some b' ∧
        s'.queue = s.queue) ∨
      (∃ e, (bookStep ch (s.maxCount c) s b).1 = .err e ∧ s'.Failed e c ∧ s'.booking c = none ∧
        s'.queue = s.queue) ∨
      (s'.booking c = none ∧ ∀ e, ¬ s'.Failed e c) := by
  cases c with
  | none =>
    cases ho : s.owner <;> simp only [St.booking, ho, reduceCtorEq, Option.some.injEq] at hb
    subst hb
    simp only [access, step, ownerStep, ho] at h
    generalize hr : bookStep ch (-1) s _ = r at h
    obtain ⟨out, s₁⟩ := r
    simp only [St.maxCount, hr]
    cases out with
    | go b' =>
      obtain rfl := bookStep_queue hr (by simp)
      cases h
      exact .inl ⟨b', rfl, rfl, rfl⟩
    | err e =>
      obtain rfl := bookStep_queue hr (by simp)
      cases h
      exact .inr (.inl ⟨e, rfl, rfl, rfl, rfl⟩)
    | ok head newHead count =>
      simp only at h
      split at h
      · cases h
        exact .inr (.inr ⟨rfl, by simp [St.Failed]⟩)
      · cases h
  | some x =>
    cases hx : s.agent x <;> simp only [St.booking, hx, reduceCtorEq, Option.some.injEq] at hb
    subst hb
    simp only [access, step, agentStep, hx] at h
    generalize hr : bookStep ch _ s _ = r at h
    obtain ⟨out, s₁⟩ := r
    simp only [St.maxCount, hx, hr]
    cases out with
    | go b' =>
      obtain rfl := bookStep_queue hr (by simp)
      cases h
      exact .inl ⟨b', rfl, by simp [St.booking, St.setAgent], rfl⟩
    | err e =>
      obtain rfl := bookStep_queue hr (by simp)
      cases h
      exact .inr (.inl ⟨e, rfl, by simp [St.Failed, St.setAgent], by simp [St.booking, St.setAgent],
        rfl⟩)
    | ok head newHead count =>
      cases h
      exact .inr (.inr ⟨by simp [St.booking, St.setAgent], by simp [St.Failed, St.setAgent]⟩)

/-- Another thread makes a step. -/
lemma other_step {cmd : Cmd w T A} (hb : s.booking c = some b) (h : step cmd s = some (s', l))
    (hne : ∀ ch, cmd ≠ access ch c) :
    s'.booking c = some b ∧ (s'.queue.head = s.queue.head ∨ ∃ y, (s.agent y).Holds) := by
  have of_owner : c = none → s'.owner = s.owner → s'.booking c = some b := by
    rintro rfl ho
    rwa [St.booking, ho]
  have of_agent : ∀ x, c = some x → s'.agent x = s.agent x → s'.booking c = some b := by
    rintro x rfl hx
    rwa [St.booking, hx]
  have not_idle : ∀ x, c = some x → s.agent x ≠ .idle := by
    rintro x rfl hx
    simp [St.booking, hx] at hb
  cases cmd with
  | call op =>
    simp only [step] at h
    split at h
    · rename_i ho
      cases h
      refine ⟨?_, .inl rfl⟩
      cases c with
      | none => simp [St.booking, ho] at hb
      | some x => exact of_agent x rfl rfl
    · cases h
  | owner ch =>
    obtain ⟨-, hh, ha⟩ := ownerStep_frame h
    refine ⟨?_, .inl hh⟩
    cases c with
    | none => exact absurd rfl (hne ch)
    | some x => exact of_agent x rfl ((ha x).resolve_right (not_idle x rfl))
  | start y t free =>
    simp only [step, agentStart] at h
    have hy : c ≠ some y := by
      rintro rfl
      cases hp : s.agent y <;> simp only [St.booking, hp, reduceCtorEq] at hb
      simp only [hp] at h
      cases t <;> cases h
    split at h <;> cases h
    all_goals
      refine ⟨?_, .inl rfl⟩
      cases c with
      | none => exact hb
      | some x =>
        exact of_agent x rfl (Function.update_of_ne (fun e => hy (by rw [e])) _ _)
  | agent y ch =>
    obtain ⟨-, ho, ha, hh⟩ := agentStep_frame h
    refine ⟨?_, hh.imp_right fun h => ⟨y, h⟩⟩
    cases c with
    | none => exact of_owner rfl ho
    | some x =>
      refine of_agent x rfl (ha x ?_)
      rintro rfl
      exact hne ch rfl
  | forget y =>
    have hy : c ≠ some y := by
      rintro rfl
      cases hp : s.agent y <;> simp only [St.booking, hp, reduceCtorEq] at hb
      simp only [step, agentForget, hp, reduceCtorEq] at h
    simp only [step, agentForget] at h
    split at h <;> cases h
    all_goals
      refine ⟨?_, .inl rfl⟩
      cases c with
      | none => exact hb
      | some x =>
        exact of_agent x rfl (Function.update_of_ne (fun e => hy (by rw [e])) _ _)

/-- What the caller has seen of the head is still so. -/
def Known (head : BitVec w) : BookPc w → Prop
  | .loadWord => True
  | .loadHead sn => sn.head = head
  | .loadCount _ oldHead => oldHead = head
  | .cas _ oldHead _ => oldHead = head

omit [DecidableEq A] in
/-- While no booking is outstanding, the caller meets equal heads. -/
lemma Known.bookStep (h : Known s.queue.head b) (hq : ¬ s.Split) (ch : Choice T A) (m : BitVec w) :
    (∀ b', (bookStep ch m s b).1 = .go b' → Known s.queue.head b') ∧
      (bookStep ch m s b).1 ≠ .err .busy := by
  have hheads : s.snap.head = s.queue.head := (not_not.mp hq).symm
  have hcheck : ∀ {sn : Snap w} {oldHead : BitVec w}, oldHead = s.queue.head →
      sn.head = s.queue.head → (∀ b', checkHeads sn oldHead = .go b' → Known s.queue.head b') ∧
        checkHeads sn oldHead ≠ .err .busy := by
    rintro sn oldHead rfl hsn
    rw [checkHeads, if_neg (by rw [hsn]; exact not_not.mpr rfl)]
    refine ⟨fun b' e => ?_, by simp⟩
    cases e
    rfl
  cases b with
  | loadWord =>
    refine ⟨fun b' e => ?_, by simp [Lifo.bookStep]⟩
    cases e
    exact hheads
  | loadHead sn => exact hcheck rfl h
  | loadCount sn oldHead =>
    simp only [Lifo.bookStep]
    split_ifs
    · exact ⟨by simp, by simp⟩
    · exact ⟨by simp, by simp⟩
    · refine ⟨fun b' e => ?_, by simp⟩
      cases e
      exact h
  | cas sn oldHead count =>
    simp only [Lifo.bookStep]
    split_ifs
    · exact ⟨by simp, by simp⟩
    · exact hcheck h hheads

/-- The number of the items that are available. -/
def St.items (s : St w T A) : ℕ := (s.queue.pushCount - s.snap.popCount - s.snap.head).toNat

/-- The caller's call in `book_items` builds on a load since which fewer items have left than
would make, with those available now, a full turn. -/
def St.InTurn (s : St w T A) (c : Option A) : Prop :=
  ∀ sn oldHead, s.booking c = some (.loadCount sn oldHead) →
    s.pops + s.stolen + s.items < sn.pops + sn.stolen + 2 ^ w

omit [DecidableEq A] in
lemma MemRel.items_eq (hk : k < w) {a : Deque.St T A} {extra : List T}
    (hm : MemRel k s a extra) : s.items = a.stored.length := by
  have hcap := hm.cap
  have hlt := two_pow_lt hk
  rw [St.items, hm.itemCount hm.snap_ok]
  show (word w (a.stored.length + (s.pops - s.pops) + (s.stolen - s.stolen))).toNat = _
  rw [Nat.sub_self, Nat.sub_self, Nat.add_zero, toNat_word (by omega)]

/-- The LIFO queue as its callers see it. -/
def clients (w : ℕ) (T A : Type*) [DecidableEq A] : Clients (St w T A) (Queue w T) T A where
  L := lts w T A
  queue := St.queue
  holds s y := (s.agent y).Holds
  Split := St.Split
  Start c s := s.booking c = some .loadWord
  Booking := St.Booking
  Failed e c s := s.Failed e c
  own ch c s s' := ∃ l, step (access ch c) s = some (s', l)
  noItem s := s.queue.pushCount - s.snap.popCount - s.snap.head = 0
  noRoom c s := s.maxCount c = 0
  inTurn c s := s.InTurn c

omit [DecidableEq A] in
lemma Rel.booking_ok {a : Deque.St T A} (h : Rel k s a) (hb : s.booking c = some b) :
    b.Ok (gauge s a) := by
  obtain ⟨extra, -, hown, hag⟩ := h
  cases c with
  | none =>
    cases ho : s.owner <;> simp only [St.booking, ho, reduceCtorEq, Option.some.injEq] at hb
    subst hb
    rw [ho] at hown
    generalize a.owner = o at hown
    cases hown with
    | drainBook _ h => exact h
  | some x =>
    have hx := hag x
    cases hp : s.agent x <;> simp only [St.booking, hp, reduceCtorEq, Option.some.injEq] at hb
    subst hb
    rw [hp] at hx
    generalize a.agent x = q at hx
    cases hx with
    | book _ _ _ h => exact h

omit [DecidableEq A] in
/-- `book_items` finds nothing only where it counts the items. -/
lemma bookStep_empty {ch : Choice T A} {m : BitVec w} (h : (bookStep ch m s b).1 = .err .empty) :
    ∃ sn oldHead, b = .loadCount sn oldHead ∧ (s.queue.pushCount - sn.popCount - sn.head = 0 ∨
      ch.want = 0 ∨ m = 0) := by
  have hcheck : ∀ sn (oldHead : BitVec w), checkHeads sn oldHead ≠ .err .empty := by
    intro sn oldHead
    unfold checkHeads
    split_ifs <;> exact nofun
  cases b with
  | loadWord => cases h
  | loadHead sn => exact absurd h (hcheck sn _)
  | loadCount sn oldHead =>
    refine ⟨sn, oldHead, rfl, ?_⟩
    simp only [bookStep] at h
    split_ifs at h with h1 h2
    · exact .inl h1
    · exact .inr (bookCount_eq_zero h1 h2)
  | cas sn oldHead count =>
    simp only [bookStep] at h
    split_ifs at h
    exact absurd h (hcheck _ _)

/-- **The errors of the LIFO queue are justified.** -/
theorem justified (hw : 0 < w) : Justified (clients w T A) where
  exclusive r hy := (bookings hw).exclusive r hy
  heads r hn := mt ((bookings hw).outstanding_iff r).mpr hn
  busy := by
    intro tr s₀ s₁ l s₂ c r h0 hd hs hf
    have key : ∀ {s₁}, (lts w T A).During (St.Booking c) s₀ s₁ →
        (∃ u, (lts w T A).During (St.Booking c) s₀ u ∧ (lts w T A).During (St.Booking c) u s₁ ∧
          Outstanding (lts w T A) (fun s y => (s.agent y).Holds) u) ∨
        ¬ s₁.Split ∧ (∀ y, ¬ (s₁.agent y).Holds) ∧
          ∃ b, s₁.booking c = some b ∧ Known s₁.queue.head b := by
      intro s₁ hd
      have split : ∀ {s}, (lts w T A).During (St.Booking c) s₀ s →
          ¬ Outstanding (lts w T A) (fun s y => (s.agent y).Holds) s →
          ¬ s.Split ∧ ∀ y, ¬ (s.agent y).Holds := by
        intro s hs hn
        obtain ⟨tr', r'⟩ := hs.reaches r
        exact ⟨mt ((bookings hw).outstanding_iff r').mpr hn, fun y hy => hn (.inl ⟨y, hy⟩)⟩
      induction hd with
      | refl hp =>
        by_cases ho : Outstanding (lts w T A) (fun s y => (s.agent y).Holds) s₀
        · exact .inl ⟨s₀, .refl hp, .refl hp, ho⟩
        · obtain ⟨h1, h2⟩ := split (.refl hp) ho
          exact .inr ⟨h1, h2, _, h0, trivial⟩
      | @step s s' l hd hs hp ih =>
        rcases ih with ⟨u, h1, h2, h3⟩ | ⟨hq, hh, b, hb, hk⟩
        · exact .inl ⟨u, h1, h2.step hs hp, h3⟩
        by_cases ho : Outstanding (lts w T A) (fun s y => (s.agent y).Holds) s'
        · exact .inl ⟨s', hd.step hs hp, .refl hp, ho⟩
        obtain ⟨h1, h2⟩ := split (hd.step hs hp) ho
        refine .inr ⟨h1, h2, ?_⟩
        obtain ⟨b', hb'⟩ := Option.isSome_iff_exists.mp hp
        refine ⟨b', hb', ?_⟩
        obtain ⟨cmd, -, hs⟩ := hs
        by_cases hc : ∃ ch, cmd = access ch c
        · obtain ⟨ch, rfl⟩ := hc
          rcases own_step hb hs with ⟨b₁, e, hb₁, hq'⟩ | ⟨e, -, -, hn, -⟩ | ⟨hn, -⟩
          · rw [hb'] at hb₁
            obtain rfl := Option.some.inj hb₁
            rw [hq']
            exact (hk.bookStep hq ch _).1 _ e
          · rw [hb'] at hn
            cases hn
          · rw [hb'] at hn
            cases hn
        · obtain ⟨hb₁, hhead⟩ := other_step hb hs fun ch e => hc ⟨ch, e⟩
          rw [hb'] at hb₁
          obtain rfl := Option.some.inj hb₁
          rwa [hhead.resolve_right fun ⟨y, hy⟩ => hh y hy]
    rcases key hd with h | ⟨hq, -, b, hb, hk⟩
    · exact h
    · obtain ⟨cmd, -, hs⟩ := hs
      by_cases hc : ∃ ch, cmd = access ch c
      · obtain ⟨ch, rfl⟩ := hc
        rcases own_step hb hs with ⟨b₁, -, hb₁, -⟩ | ⟨e, he, hf', -⟩ | ⟨-, hn⟩
        · exact absurd hf (not_failed_of_booking hb₁)
        · obtain rfl := failed_unique hf hf'
          exact absurd he (hk.bookStep hq ch _).2
        · exact absurd hf (hn _)
      · exact absurd hf (not_failed_of_booking (other_step hb hs fun ch e => hc ⟨ch, e⟩).1)
  alone := by
    intro tr s₀ s₁ ch s₂ c r hn h0 hrun hlast hf
    have hq₀ : ¬ s₀.Split := mt ((bookings hw).outstanding_iff r).mpr hn
    have key : ¬ s₁.Split ∧ ∃ b, s₁.booking c = some b ∧ Known s₁.queue.head b := by
      clear hlast
      induction hrun with
      | refl => exact ⟨hq₀, _, h0, trivial⟩
      | @tail s s' _ hs ih =>
        obtain ⟨hq, b, hb, hk⟩ := ih
        obtain ⟨ch, ⟨l, hs⟩, hp⟩ := hs
        obtain ⟨b', hb'⟩ := Option.isSome_iff_exists.mp hp
        rcases own_step hb hs with ⟨b₁, e, hb₁, hq'⟩ | ⟨e, -, -, hn, -⟩ | ⟨hn, -⟩
        · refine ⟨?_, b₁, hb₁, ?_⟩
          · unfold St.Split St.snap
            rw [hq']
            exact hq
          · rw [hq']
            exact (hk.bookStep hq ch _).1 _ e
        · rw [hb'] at hn
          cases hn
        · rw [hb'] at hn
          cases hn
    obtain ⟨hq, b, hb, hk⟩ := key
    obtain ⟨l, hs⟩ := hlast
    rcases own_step hb hs with ⟨b₁, -, hb₁, -⟩ | ⟨e, he, hf', -⟩ | ⟨-, hn⟩
    · exact not_failed_of_booking hb₁ hf
    · obtain rfl := failed_unique hf hf'
      exact (hk.bookStep hq ch _).2 he
    · exact hn _ hf
  empty := by
    intro tr s ch s' c r hb hturn hs hf
    obtain ⟨b, hb⟩ := Option.isSome_iff_exists.mp hb
    obtain ⟨l, hs⟩ := hs
    rcases own_step hb hs with ⟨b₁, -, hb₁, -⟩ | ⟨e, he, hf', -⟩ | ⟨-, hn⟩
    · exact absurd hf (not_failed_of_booking hb₁)
    · obtain rfl := failed_unique hf hf'
      obtain ⟨sn, oldHead, rfl, h⟩ := bookStep_empty he
      refine h.imp_left fun h0 => ?_
      obtain ⟨k, hk, a, -, hr⟩ := reaches_sim hw r
      have ok : sn.Ok (gauge s a) := (hr.booking_ok hb).1
      obtain ⟨extra, hm, -⟩ := hr
      have hlt := hturn sn oldHead hb
      have h1 : sn.pops ≤ s.pops := ok.pops
      have h2 : sn.stolen ≤ s.stolen := ok.stolen
      have hitems := hm.items_eq hk
      rw [hm.itemCount ok] at h0
      have hz := (word_inj (b := 0) (Nat.zero_le _) (by omega)).mp h0
      have hnone : s.items = 0 := by omega
      exact BitVec.eq_of_toNat_eq (hnone.trans BitVec.toNat_zero.symm)
    · exact absurd hf (hn _)
  unchanged := by
    intro s ch s' c hb hs h
    obtain ⟨b, hb⟩ := Option.isSome_iff_exists.mp hb
    obtain ⟨l, hs⟩ := hs
    rcases own_step hb hs with ⟨b₁, -, -, hq⟩ | ⟨e, -, -, -, hq⟩ | ⟨hn, hf⟩
    · exact hq
    · exact hq
    · rcases h with h | ⟨e, h⟩
      · obtain ⟨b', hb'⟩ := Option.isSome_iff_exists.mp h
        rw [hb'] at hn
        cases hn
      · exact absurd h (hf e)

end St3.Lifo

/-! ### FIFO -/

namespace St3.Fifo

open Words Slots Deque

variable {w k : ℕ} {T A : Type*}

/-- The agent has booked items and not given their slots back. -/
def AgentPc.Holds : AgentPc w T → Prop
  | .move .. | .endLoad .. | .endCas .. | .nextLoad .. | .nextCas .. => True
  | .drain head _ toHead | .next _ head _ toHead | .nextDone _ _ head _ toHead => head ≠ toHead
  | _ => False

/-- The two head positions differ. -/
def St.Split (s : St w T A) : Prop := s.snap.stealerHead ≠ s.snap.workerHead

section
variable {s s' : St w T A} {a : Deque.St T A}

lemma Rel.split_iff (hk : k < w) (h : Rel k s a) : s.Split ↔ a.holder ≠ .free := by
  obtain ⟨fin, extra, pend, hm, -⟩ := h
  have h1 := hm.held
  have hs : s.snap.stealerHead = s.snap.workerHead ↔ s.sh = s.wh := (hm.snap_ok hk).heads_eq
  unfold St.Split
  rw [ne_eq, ne_eq, hs, hm.free]
  omega

lemma DrainRel.ne_iff {g : Gauge} {mine : Prop} {lent : List T} {head fromHead toHead : BitVec w}
    (h : DrainRel g mine lent head fromHead toHead) (h1 : lent.length ≤ g.fin)
    (h2 : lent.length < 2 ^ w) : head ≠ toHead ↔ mine := by
  rcases h with ⟨hn, rfl⟩ | ⟨hm, hl, rfl, -, rfl⟩
  · exact ⟨fun h => absurd rfl h, fun h => absurd h hn⟩
  · refine ⟨fun _ => hm, fun _ e => hl ?_⟩
    rw [eq_comm, word_inj (by omega) (by omega)] at e
    exact List.eq_nil_of_length_eq_zero (by omega)

lemma Rel.holds_iff (hk : k < w) (h : Rel k s a) {y : A} :
    (s.agent y).Holds ↔ a.holder = .agent y := by
  obtain ⟨fin, extra, pend, hm, -, hag⟩ := h
  have h0 := hm.lent
  have h1 := hm.held
  have h2 := hm.fin_le
  have h3 := hm.cap
  have h4 := two_pow_lt hk
  have hd : ∀ {head fromHead toHead : BitVec w},
      DrainRel (gauge s a fin) (a.holder = .agent y) a.lent head fromHead toHead →
        (head ≠ toHead ↔ a.holder = .agent y) :=
    fun h => h.ne_iff (show a.lent.length ≤ fin by omega) (by omega)
  have hy := hag y
  generalize s.agent y = p at hy
  generalize a.agent y = q at hy
  cases hy with
  | drain _ _ _ h => exact hd h
  | next _ _ _ _ h => exact hd h
  | nextDone _ _ _ _ _ h => exact hd h
  | idle hn => exact ⟨False.elim, fun h => hn h⟩
  | done _ hn => exact ⟨False.elim, fun h => hn h⟩
  | book _ _ _ _ hn => exact ⟨False.elim, fun h => hn h⟩
  | move _ _ hm => exact ⟨fun _ => hm, fun _ => trivial⟩
  | endLoad _ hm => exact ⟨fun _ => hm, fun _ => trivial⟩
  | endCas _ _ hm => exact ⟨fun _ => hm, fun _ => trivial⟩
  | nextLoad _ _ _ hm => exact ⟨fun _ => hm, fun _ => trivial⟩
  | nextCas _ _ _ _ hm => exact ⟨fun _ => hm, fun _ => trivial⟩

end

variable [DecidableEq A] {s s' : St w T A} {l : Option (Event T A)}

/-- What a read or a step of `book_items` leaves alone. -/
structure SameThreads (s s' : St w T A) : Prop where
  owner : s'.owner = s.owner
  agent : s'.agent = s.agent

omit [DecidableEq A] in
lemma readAt_same (s : St w T A) (pos : BitVec w) : SameThreads s (s.readAt pos).2 := by
  unfold St.readAt
  split <;> exact ⟨rfl, rfl⟩

omit [DecidableEq A] in
lemma bookStep_same (c : Choice T A) (maxCount : BitVec w) (s : St w T A) (b : BookPc w) :
    SameThreads s (bookStep c maxCount s b).2 := by
  cases b with
  | loadHeads => exact ⟨rfl, rfl⟩
  | loadTail sn =>
    simp only [bookStep]
    split_ifs <;> exact ⟨rfl, rfl⟩
  | cas sn count =>
    simp only [bookStep]
    split_ifs <;> exact ⟨rfl, rfl⟩

lemma ownerStep_frame {c : Choice T A} (h : ownerStep c s = some (s', l)) :
    (∀ y, l ≠ some (.forget y)) ∧ ∀ x, s'.agent x = s.agent x ∨ s.agent x = .idle := by
  cases ho : s.owner with
  | popRead pos =>
    have hs := readAt_same s pos
    simp only [ownerStep, ho, Option.some.injEq, Prod.mk.injEq] at h
    obtain ⟨rfl, rfl⟩ := h
    exact ⟨by simp, fun x => .inl (congrFun hs.agent x)⟩
  | drainBook b =>
    have hs := bookStep_same c (-1) s b
    simp only [ownerStep, ho] at h
    generalize bookStep c (-1) s b = r at h hs
    obtain ⟨out, s₁⟩ := r
    cases out with
    | go b' =>
      cases h
      exact ⟨by simp, fun x => .inl (congrFun hs.agent x)⟩
    | err e =>
      cases h
      exact ⟨by simp, fun x => .inl (congrFun hs.agent x)⟩
    | ok head toHead count =>
      simp only at h
      split at h
      · rename_i hidle
        cases h
        refine ⟨by simp, fun x => ?_⟩
        by_cases hx : x = c.drain
        · exact .inr (hx ▸ hidle)
        · exact .inl ((Function.update_of_ne hx _ _).trans (congrFun hs.agent x))
      · cases h
  | recvWrite tail done n =>
    simp only [ownerStep, ho] at h
    split at h
    · simp only [Option.bind_eq_some_iff, Option.some.injEq, Prod.mk.injEq] at h
      obtain ⟨x, -, rfl, rfl⟩ := h
      exact ⟨by simp, fun _ => .inl rfl⟩
    · cases h
      exact ⟨by simp, fun _ => .inl rfl⟩
  | idle => simp only [ownerStep, ho, reduceCtorEq] at h
  | recvBook m tail free =>
    simp only [ownerStep, ho] at h
    (repeat' split at h) <;> cases h <;> exact ⟨by simp, fun _ => .inl rfl⟩
  | pushLoadTail x stealerHead =>
    simp only [ownerStep, ho] at h
    split at h <;> cases h <;> exact ⟨by simp, fun _ => .inl rfl⟩
  | popLoadTail sn =>
    simp only [ownerStep, ho] at h
    split at h <;> cases h <;> exact ⟨by simp, fun _ => .inl rfl⟩
  | popCas sn =>
    simp only [ownerStep, ho] at h
    split at h <;> cases h <;> exact ⟨by simp, fun _ => .inl rfl⟩
  | _ =>
    simp only [ownerStep, ho, Option.some.injEq, Prod.mk.injEq] at h
    obtain ⟨rfl, rfl⟩ := h
    exact ⟨by simp, fun _ => .inl rfl⟩

lemma agentStep_frame {c : Choice T A} {x : A} (h : agentStep c x s = some (s', l)) :
    (∀ y, l ≠ some (.forget y)) ∧ s'.owner = s.owner ∧ ∀ y, y ≠ x → s'.agent y = s.agent y := by
  have moved : ∀ {s₁ : St w T A} (p : AgentPc w T), SameThreads s s₁ →
      (s₁.setAgent x p).owner = s.owner ∧ ∀ y, y ≠ x → (s₁.setAgent x p).agent y = s.agent y :=
    fun p hs => ⟨hs.owner, fun y hy => (Function.update_of_ne hy _ _).trans (congrFun hs.agent y)⟩
  have still : SameThreads s s := ⟨rfl, rfl⟩
  cases hx : s.agent x with
  | idle => simp only [agentStep, hx, reduceCtorEq] at h
  | drain => simp only [agentStep, hx, reduceCtorEq] at h
  | done r =>
    simp only [agentStep, hx, Option.some.injEq, Prod.mk.injEq] at h
    obtain ⟨rfl, rfl⟩ := h
    exact ⟨by simp, moved _ still⟩
  | book m maxCount b =>
    have hs := bookStep_same c maxCount s b
    simp only [agentStep, hx] at h
    generalize bookStep c maxCount s b = r at h hs
    obtain ⟨out, s₁⟩ := r
    cases out <;> cases h <;> exact ⟨by simp, moved _ hs⟩
  | move m stealerHead done count =>
    have hs := readAt_same s (stealerHead + BitVec.ofNat w done)
    simp only [agentStep, hx] at h
    generalize s.readAt (stealerHead + BitVec.ofNat w done) = r at h hs
    obtain ⟨o, s₁⟩ := r
    (repeat' split at h) <;> cases h <;> rename_i he <;>
      first
      | exact ⟨by simp, moved _ still⟩
      | (cases he; exact ⟨by simp, moved _ hs⟩)
      | (cases he; exact ⟨by simp, hs.owner, fun y _ => congrFun hs.agent y⟩)
  | endLoad stealerHead r =>
    simp only [agentStep, hx, Option.some.injEq, Prod.mk.injEq] at h
    obtain ⟨rfl, rfl⟩ := h
    exact ⟨by simp, moved _ ⟨rfl, rfl⟩⟩
  | endCas stealerHead sn r =>
    simp only [agentStep, hx, endStep] at h
    split_ifs at h <;> cases h <;> exact ⟨by simp, moved _ ⟨rfl, rfl⟩⟩
  | next d head fromHead toHead =>
    have hs := readAt_same s head
    simp only [agentStep, hx] at h
    generalize s.readAt head = r at h hs
    obtain ⟨o, s₁⟩ := r
    split at h
    · cases h
      exact ⟨by simp, moved _ still⟩
    · cases o with
      | none =>
        cases h
        exact ⟨by simp, hs.owner, fun y _ => congrFun hs.agent y⟩
      | some y =>
        simp only at h
        split at h <;> cases h <;> exact ⟨by simp, moved _ hs⟩
  | nextLoad d y fromHead toHead =>
    simp only [agentStep, hx, Option.some.injEq, Prod.mk.injEq] at h
    obtain ⟨rfl, rfl⟩ := h
    exact ⟨by simp, moved _ ⟨rfl, rfl⟩⟩
  | nextCas d y fromHead toHead sn =>
    simp only [agentStep, hx, endStep] at h
    split_ifs at h <;> cases h <;> exact ⟨by simp, moved _ ⟨rfl, rfl⟩⟩
  | nextDone d o head fromHead toHead =>
    cases d <;> cases o <;> simp only [agentStep, hx, Option.some.injEq, Prod.mk.injEq] at h <;>
      obtain ⟨rfl, rfl⟩ := h <;> exact ⟨by simp, moved _ still⟩

lemma forget_frame {y : A} (h : (lts w T A).step s (some (.forget y)) s') :
    s'.queue = s.queue ∧ s'.agent = Function.update s.agent y .idle := by
  obtain ⟨cmd, -, h⟩ := h
  cases cmd with
  | call op =>
    simp only [step] at h
    split at h <;> simp at h
  | owner c => exact absurd rfl ((ownerStep_frame h).1 y)
  | start x t free =>
    simp only [step, agentStart] at h
    split at h <;> simp at h
  | agent x c => exact absurd rfl ((agentStep_frame h).1 y)
  | forget x =>
    simp only [step, agentForget] at h
    split at h <;> simp only [Option.some.injEq, Prod.mk.injEq, Event.forget.injEq,
      reduceCtorEq] at h
    all_goals
      obtain ⟨rfl, rfl⟩ := h
      exact ⟨rfl, rfl⟩

/-- What the FIFO queue says about its bookings. -/
lemma bookings (hw : 0 < w) : Bookings .fifo (lts w T A) (fun k s a => k < w ∧ Rel k s a)
    (fun s y => (s.agent y).Holds) St.Split where
  init h := by
    obtain ⟨k, hk, hr⟩ := init_rel hw h
    exact ⟨k, _, ⟨hk, hr⟩, rfl⟩
  step := by
    rintro k s a l s' ⟨hk, hr⟩ hs
    obtain ⟨a', hst, hr'⟩ := step_sim hk hr hs
    exact ⟨a', hst, hk, hr'⟩
  holds_iff h := h.2.holds_iff h.1
  split_iff h := h.2.split_iff h.1
  forget := by
    intro s y s' h
    obtain ⟨hq, ha⟩ := forget_frame h
    refine ⟨?_, ?_, fun z hz => ?_⟩
    · unfold St.Split St.snap
      rw [hq]
      rfl
    · rw [ha, Function.update_self]
      exact id
    · rw [ha, Function.update_of_ne hz]

/-! The calls of `book_items`, by a stealer or by the owner. -/

/-- Where a caller stands in `book_items`. -/
def St.booking (s : St w T A) : Option A → Option (BookPc w)
  | none =>
    match s.owner with
    | .drainBook b => some b
    | _ => none
  | some x =>
    match s.agent x with
    | .book _ _ b => some b
    | _ => none

/-- The call of `book_items` has ended with an error, which the caller returns. -/
def St.Failed (s : St w T A) (e : StealError) : Option A → Prop
  | none => s.owner = .ret (.drainErr e)
  | some x => s.agent x = .done (.stealErr e)

/-- The most items that the caller may book. -/
def St.maxCount (s : St w T A) : Option A → BitVec w
  | none => -1
  | some x =>
    match s.agent x with
    | .book _ maxCount _ => maxCount
    | _ => 0

/-- The next access of a caller. -/
def access (c : Choice T A) : Option A → Cmd w T A
  | none => .owner c
  | some x => .agent x c

/-- A call of `book_items` is under way. -/
def St.Booking (c : Option A) (s : St w T A) : Prop := (s.booking c).isSome

instance (c : Option A) (s : St w T A) : Decidable (s.Booking c) :=
  inferInstanceAs (Decidable ((s.booking c).isSome = true))

variable {c : Option A} {b : BookPc w}

omit [DecidableEq A] in
lemma not_failed_of_booking {e : StealError} (hb : s.booking c = some b) : ¬ s.Failed e c := by
  intro hf
  cases c with
  | none => simp [St.booking, show s.owner = .ret (.drainErr e) from hf] at hb
  | some x => simp [St.booking, show s.agent x = .done (.stealErr e) from hf] at hb

omit [DecidableEq A] in
lemma failed_unique {e e' : StealError} (h : s.Failed e c) (h' : s.Failed e' c) : e = e' := by
  cases c with
  | none => simpa using (show s.owner = .ret (.drainErr e) from h).symm.trans h'
  | some x => simpa using (show s.agent x = .done (.stealErr e) from h).symm.trans h'

omit [DecidableEq A] in
lemma bookStep_queue {ch : Choice T A} {m : BitVec w} {out : BookOut w} {s₁ : St w T A}
    (h : bookStep ch m s b = (out, s₁)) (hout : ∀ x y z, out ≠ .ok x y z) : s₁ = s := by
  cases b with
  | loadHeads => cases h; rfl
  | loadTail sn =>
    simp only [bookStep] at h
    split_ifs at h <;> cases h <;> rfl
  | cas sn count =>
    simp only [bookStep] at h
    split_ifs at h
    · cases h
      exact absurd rfl (hout _ _ _)
    · cases h
      rfl

/-- The caller makes an access of `book_items`: it goes on, fails, or books. -/
lemma own_step {ch : Choice T A} (hb : s.booking c = some b)
    (h : step (access ch c) s = some (s', l)) :
    (∃ b', (bookStep ch (s.maxCount c) s b).1 = .go b' ∧ s'.booking c = some b' ∧
        s'.queue = s.queue) ∨
      (∃ e, (bookStep ch (s.maxCount c) s b).1 = .err e ∧ s'.Failed e c ∧ s'.booking c = none ∧
        s'.queue = s.queue) ∨
      (s'.booking c = none ∧ ∀ e, ¬ s'.Failed e c) := by
  cases c with
  | none =>
    cases ho : s.owner <;> simp only [St.booking, ho, reduceCtorEq, Option.some.injEq] at hb
    subst hb
    simp only [access, step, ownerStep, ho] at h
    generalize hr : bookStep ch (-1) s _ = r at h
    obtain ⟨out, s₁⟩ := r
    simp only [St.maxCount, hr]
    cases out with
    | go b' =>
      obtain rfl := bookStep_queue hr (by simp)
      cases h
      exact .inl ⟨b', rfl, rfl, rfl⟩
    | err e =>
      obtain rfl := bookStep_queue hr (by simp)
      cases h
      exact .inr (.inl ⟨e, rfl, rfl, rfl, rfl⟩)
    | ok head toHead count =>
      simp only at h
      split at h
      · cases h
        exact .inr (.inr ⟨rfl, by simp [St.Failed]⟩)
      · cases h
  | some x =>
    cases hx : s.agent x <;> simp only [St.booking, hx, reduceCtorEq, Option.some.injEq] at hb
    subst hb
    simp only [access, step, agentStep, hx] at h
    generalize hr : bookStep ch _ s _ = r at h
    obtain ⟨out, s₁⟩ := r
    simp only [St.maxCount, hx, hr]
    cases out with
    | go b' =>
      obtain rfl := bookStep_queue hr (by simp)
      cases h
      exact .inl ⟨b', rfl, by simp [St.booking, St.setAgent], rfl⟩
    | err e =>
      obtain rfl := bookStep_queue hr (by simp)
      cases h
      exact .inr (.inl ⟨e, rfl, by simp [St.Failed, St.setAgent], by simp [St.booking, St.setAgent],
        rfl⟩)
    | ok stealerHead workerHead count =>
      cases h
      exact .inr (.inr ⟨by simp [St.booking, St.setAgent], by simp [St.Failed, St.setAgent]⟩)

/-- Another thread makes a step. -/
lemma other_step {cmd : Cmd w T A} (hb : s.booking c = some b) (h : step cmd s = some (s', l))
    (hne : ∀ ch, cmd ≠ access ch c) : s'.booking c = some b := by
  have of_owner : c = none → s'.owner = s.owner → s'.booking c = some b := by
    rintro rfl ho
    rwa [St.booking, ho]
  have of_agent : ∀ x, c = some x → s'.agent x = s.agent x → s'.booking c = some b := by
    rintro x rfl hx
    rwa [St.booking, hx]
  have not_idle : ∀ x, c = some x → s.agent x ≠ .idle := by
    rintro x rfl hx
    simp [St.booking, hx] at hb
  cases cmd with
  | call op =>
    simp only [step] at h
    split at h
    · rename_i ho
      cases h
      cases c with
      | none => simp [St.booking, ho] at hb
      | some x => exact of_agent x rfl rfl
    · cases h
  | owner ch =>
    obtain ⟨-, ha⟩ := ownerStep_frame h
    cases c with
    | none => exact absurd rfl (hne ch)
    | some x => exact of_agent x rfl ((ha x).resolve_right (not_idle x rfl))
  | start y t free =>
    simp only [step, agentStart] at h
    have hy : c ≠ some y := by
      rintro rfl
      cases hp : s.agent y <;> simp only [St.booking, hp, reduceCtorEq] at hb
      simp only [hp] at h
      cases t <;> cases h
    split at h <;> cases h
    all_goals
      cases c with
      | none => exact hb
      | some x =>
        exact of_agent x rfl (Function.update_of_ne (fun e => hy (by rw [e])) _ _)
  | agent y ch =>
    obtain ⟨-, ho, ha⟩ := agentStep_frame h
    cases c with
    | none => exact of_owner rfl ho
    | some x =>
      refine of_agent x rfl (ha x ?_)
      rintro rfl
      exact hne ch rfl
  | forget y =>
    have hy : c ≠ some y := by
      rintro rfl
      cases hp : s.agent y <;> simp only [St.booking, hp, reduceCtorEq] at hb
      simp only [step, agentForget, hp, reduceCtorEq] at h
    simp only [step, agentForget] at h
    split at h <;> cases h
    all_goals
      cases c with
      | none => exact hb
      | some x =>
        exact of_agent x rfl (Function.update_of_ne (fun e => hy (by rw [e])) _ _)

omit [DecidableEq A] in
/-- `book_items` meets a booking only where it has just loaded the heads. -/
lemma bookStep_busy {ch : Choice T A} {m : BitVec w} (h : (bookStep ch m s b).1 = .err .busy) :
    s.Split := by
  have hcheck : checkHeads s.snap = .err .busy → s.Split := by
    unfold checkHeads
    split_ifs with hne
    · exact fun _ => hne
    · exact nofun
  cases b with
  | loadHeads => exact hcheck h
  | loadTail sn =>
    simp only [bookStep] at h
    split_ifs at h <;> cases h
  | cas sn count =>
    simp only [bookStep] at h
    split_ifs at h
    exact hcheck h

omit [DecidableEq A] in
/-- `book_items` finds nothing only where it counts the items. -/
lemma bookStep_empty {ch : Choice T A} {m : BitVec w} (h : (bookStep ch m s b).1 = .err .empty) :
    ∃ sn, b = .loadTail sn ∧ (s.queue.tail - sn.workerHead = 0 ∨ ch.want = 0 ∨ m = 0) := by
  have hcheck : ∀ sn : Snap w, checkHeads sn ≠ .err .empty := by
    intro sn
    unfold checkHeads
    split_ifs <;> exact nofun
  cases b with
  | loadHeads => exact absurd h (hcheck _)
  | loadTail sn =>
    refine ⟨sn, rfl, ?_⟩
    simp only [bookStep] at h
    split_ifs at h with h1 h2
    · exact .inl h1
    · exact .inr (bookCount_eq_zero h1 h2)
  | cas sn count =>
    simp only [bookStep] at h
    split_ifs at h
    exact absurd h (hcheck _)

/-- The number of the items that are available. -/
def St.items (s : St w T A) : ℕ := (s.queue.tail - s.snap.workerHead).toNat

/-- The caller's call in `book_items` builds on a load since which fewer items have left than
would make, with those available now, a full turn. -/
def St.InTurn (s : St w T A) (c : Option A) : Prop :=
  ∀ sn, s.booking c = some (.loadTail sn) → s.wh + s.items < sn.wh + 2 ^ w

omit [DecidableEq A] in
lemma MemRel.items_eq (hk : k < w) {a : Deque.St T A} {fin : ℕ} {extra : List T}
    {pend : Option (ℕ × T)} (hm : MemRel k s a fin extra pend) : s.items = a.stored.length := by
  have hcap := hm.cap
  have hlt := two_pow_lt hk
  have hwh : s.snap.workerHead = word w s.wh := (hm.snap_ok hk).workerHead
  rw [St.items, hm.tail, hwh, toNat_word_sub (by omega) (by omega)]
  omega

/-- The FIFO queue as its callers see it. -/
def clients (w : ℕ) (T A : Type*) [DecidableEq A] : Clients (St w T A) (Queue w T) T A where
  L := lts w T A
  queue := St.queue
  holds s y := (s.agent y).Holds
  Split := St.Split
  Start c s := s.booking c = some .loadHeads
  Booking := St.Booking
  Failed e c s := s.Failed e c
  own ch c s s' := ∃ l, step (access ch c) s = some (s', l)
  noItem s := s.queue.tail - s.snap.workerHead = 0
  noRoom c s := s.maxCount c = 0
  inTurn c s := s.InTurn c

omit [DecidableEq A] in
lemma Rel.booking_ok {a : Deque.St T A} (h : Rel k s a) (hb : s.booking c = some b) :
    ∃ fin extra pend, MemRel k s a fin extra pend ∧ b.Ok (gauge s a fin) := by
  obtain ⟨fin, extra, pend, hm, hown, hag⟩ := h
  refine ⟨fin, extra, pend, hm, ?_⟩
  cases c with
  | none =>
    cases ho : s.owner <;> simp only [St.booking, ho, reduceCtorEq, Option.some.injEq] at hb
    subst hb
    rw [ho] at hown
    generalize a.owner = o at hown
    cases hown with
    | drainBook _ h => exact h
  | some x =>
    have hx := hag x
    cases hp : s.agent x <;> simp only [St.booking, hp, reduceCtorEq, Option.some.injEq] at hb
    subst hb
    rw [hp] at hx
    generalize a.agent x = q at hx
    cases hx with
    | book _ _ _ h => exact h

/-- **The errors of the FIFO queue are justified.** -/
theorem justified (hw : 0 < w) : Justified (clients w T A) where
  exclusive r hy := (bookings hw).exclusive r hy
  heads r hn := mt ((bookings hw).outstanding_iff r).mpr hn
  busy := by
    intro tr s₀ s₁ l s₂ c r h0 hd hs hf
    -- the heads were loaded in the last access, and a booking was outstanding then
    refine ⟨s₁, hd, .refl hd.last, ?_⟩
    obtain ⟨tr', r'⟩ := hd.reaches r
    refine ((bookings hw).outstanding_iff r').mpr ?_
    obtain ⟨b, hb⟩ := Option.isSome_iff_exists.mp hd.last
    obtain ⟨cmd, -, hs⟩ := hs
    by_cases hc : ∃ ch, cmd = access ch c
    · obtain ⟨ch, rfl⟩ := hc
      rcases own_step hb hs with ⟨b₁, -, hb₁, -⟩ | ⟨e, he, hf', -⟩ | ⟨-, hn⟩
      · exact absurd hf (not_failed_of_booking hb₁)
      · obtain rfl := failed_unique hf hf'
        exact bookStep_busy he
      · exact absurd hf (hn _)
    · exact absurd hf (not_failed_of_booking (other_step hb hs fun ch e => hc ⟨ch, e⟩))
  alone := by
    intro tr s₀ s₁ ch s₂ c r hn h0 hrun hlast hf
    have hq₀ : ¬ s₀.Split := mt ((bookings hw).outstanding_iff r).mpr hn
    have key : ¬ s₁.Split ∧ ∃ b, s₁.booking c = some b := by
      clear hlast
      induction hrun with
      | refl => exact ⟨hq₀, _, h0⟩
      | @tail s s' _ hs ih =>
        obtain ⟨hq, b, hb⟩ := ih
        obtain ⟨ch, ⟨l, hs⟩, hp⟩ := hs
        obtain ⟨b', hb'⟩ := Option.isSome_iff_exists.mp hp
        rcases own_step hb hs with ⟨b₁, e, hb₁, hq'⟩ | ⟨e, -, -, hn, -⟩ | ⟨hn, -⟩
        · refine ⟨?_, b₁, hb₁⟩
          unfold St.Split St.snap
          rw [hq']
          exact hq
        · rw [hb'] at hn
          cases hn
        · rw [hb'] at hn
          cases hn
    obtain ⟨hq, b, hb⟩ := key
    obtain ⟨l, hs⟩ := hlast
    rcases own_step hb hs with ⟨b₁, -, hb₁, -⟩ | ⟨e, he, hf', -⟩ | ⟨-, hn⟩
    · exact not_failed_of_booking hb₁ hf
    · obtain rfl := failed_unique hf hf'
      exact hq (bookStep_busy he)
    · exact hn _ hf
  empty := by
    intro tr s ch s' c r hb hturn hs hf
    obtain ⟨b, hb⟩ := Option.isSome_iff_exists.mp hb
    obtain ⟨l, hs⟩ := hs
    rcases own_step hb hs with ⟨b₁, -, hb₁, -⟩ | ⟨e, he, hf', -⟩ | ⟨-, hn⟩
    · exact absurd hf (not_failed_of_booking hb₁)
    · obtain rfl := failed_unique hf hf'
      obtain ⟨sn, rfl, h⟩ := bookStep_empty he
      refine h.imp_left fun h0 => ?_
      obtain ⟨k, hk, a, -, hr⟩ := reaches_sim hw r
      obtain ⟨fin, extra, pend, hm, hok⟩ := hr.booking_ok hb
      have ok : sn.Ok (gauge s a fin) := hok.1
      have hlt := hturn sn hb
      have h1 : sn.wh ≤ s.wh := ok.wh
      have hitems := hm.items_eq hk
      rw [hm.tail, ok.workerHead, word_sub (by omega)] at h0
      have hz := (word_inj (b := 0) (Nat.zero_le _) (by omega)).mp h0
      have hnone : s.items = 0 := by omega
      exact BitVec.eq_of_toNat_eq (hnone.trans BitVec.toNat_zero.symm)
    · exact absurd hf (hn _)
  unchanged := by
    intro s ch s' c hb hs h
    obtain ⟨b, hb⟩ := Option.isSome_iff_exists.mp hb
    obtain ⟨l, hs⟩ := hs
    rcases own_step hb hs with ⟨b₁, -, -, hq⟩ | ⟨e, -, -, -, hq⟩ | ⟨hn, hf⟩
    · exact hq
    · exact hq
    · rcases h with h | ⟨e, h⟩
      · obtain ⟨b', hb'⟩ := Option.isSome_iff_exists.mp h
        rw [hb'] at hn
        cases hn
      · exact absurd h (hf e)

end St3.Fifo

namespace St3

open Deque Words

variable {w : ℕ} {T A : Type*} [DecidableEq A]

/-- **Booking is exclusive and its errors are justified**, for both flavours. -/
theorem booking_justified (hw : 0 < w) :
    Justified (Lifo.clients w T A) ∧ Justified (Fifo.clients w T A) :=
  ⟨Lifo.justified hw, Fifo.justified hw⟩

/-- A new LIFO queue of capacity 2, and two thieves. -/
def Lifo.twoThieves : Lifo.St 4 ℕ Bool where
  queue := ⟨0, 0, 0, [.uninit, .uninit], 1⟩
  owner := .idle
  agent := fun _ => .idle
  fault := false
  pops := 0
  stolen := 0
  abandoned := []

lemma Lifo.twoThieves_init : Lifo.Init Lifo.twoThieves :=
  ⟨⟨2, by decide⟩, rfl, fun _ => rfl, rfl, rfl, rfl, rfl⟩

def Lifo.keen : Choice ℕ Bool := ⟨false, 9, none, .error .empty, true⟩

/-- One thief has booked the only item, and the other one has called `steal`. -/
def Lifo.beaten : List (Cmd 4 ℕ Bool) :=
  Cmd.call (.push 7) :: List.replicate 6 (Cmd.owner Lifo.keen) ++
    Cmd.start true (.steal false) 2 :: List.replicate 4 (Cmd.agent true Lifo.keen) ++
    [Cmd.start false (.steal false) 2]

/-- The first thief has moved the item, and the other one, who got `Busy`, calls again. -/
def Lifo.tooLate : List (Cmd 4 ℕ Bool) :=
  Lifo.beaten ++ List.replicate 3 (Cmd.agent false Lifo.keen) ++
    List.replicate 4 (Cmd.agent true Lifo.keen) ++
    Cmd.start false (.steal false) 2 :: List.replicate 2 (Cmd.agent false Lifo.keen)

/-- `Busy` while the other thief has the item, and `Empty` once it is gone. -/
theorem booking_justified_thieves :
    (∃ s₀ s₁ s₂ : Lifo.St 4 ℕ Bool, (Lifo.lts 4 ℕ Bool).step s₁ none s₂ ∧
      s₂.Failed .busy (some false) ∧
      ∃ u, (Lifo.lts 4 ℕ Bool).During (Lifo.St.Booking (some false)) s₀ u ∧
        (Lifo.lts 4 ℕ Bool).During (Lifo.St.Booking (some false)) u s₁ ∧
        Outstanding (Lifo.lts 4 ℕ Bool) (fun s y => (s.agent y).Holds) u) ∧
      ∃ s s' : Lifo.St 4 ℕ Bool, (Lifo.lts 4 ℕ Bool).step s none s' ∧
        s'.Failed .empty (some false) ∧
        s.queue.pushCount - s.snap.popCount - s.snap.head = 0 := by
  have hbusy : ∃ r ∈ Lts.runs Lifo.step Lifo.Timely Lifo.beaten Lifo.twoThieves,
      ∃ q ∈ Lts.runs Lifo.step (fun c s => Lifo.Timely c s ∧ s.Booking (some false))
        [.agent false Lifo.keen] r.2,
      ∃ t ∈ Lifo.step (.agent false Lifo.keen) q.2,
        r.2.booking (some false) = some .loadWord ∧ q.2.Booking (some false) ∧
          Lifo.Timely (.agent false Lifo.keen) q.2 ∧ t.2 = none ∧
          t.1.agent false = .done (.stealErr .busy) := by decide
  have hempty : ∃ q ∈ Lts.runs Lifo.step Lifo.Timely Lifo.tooLate Lifo.twoThieves,
      ∃ t ∈ Lifo.step (.agent false Lifo.keen) q.2,
        q.2.booking (some false) = some (.loadCount ⟨pack 0 1, 0, 1⟩ 1) ∧ q.2.items = 0 ∧
          q.2.pops = 0 ∧ q.2.stolen = 1 ∧ q.2.maxCount (some false) = 2 ∧
          Lifo.Timely (.agent false Lifo.keen) q.2 ∧ t.2 = none ∧
          t.1.agent false = .done (.stealErr .empty) := by decide
  constructor
  · obtain ⟨⟨tr, s₀⟩, hr, ⟨_, s₁⟩, hq, ⟨s₂, _⟩, ht, h0, h1, htimely, rfl, hend⟩ := hbusy
    have hreach := Lts.reaches_of_runs Lifo.twoThieves_init hr
    have hcall : (Lifo.lts 4 ℕ Bool).During (Lifo.St.Booking (some false)) s₀ s₁ :=
      .of_runs hq h1
    have hlast : (Lifo.lts 4 ℕ Bool).step s₁ none s₂ := ⟨_, htimely, ht⟩
    exact ⟨s₀, s₁, s₂, hlast, hend,
      (booking_justified (by decide)).1.busy hreach h0 hcall hlast hend⟩
  · obtain ⟨⟨tr, s⟩, hr, ⟨s', _⟩, ht, h1, hitems, hpops, hstolen, hroom, htimely, rfl, hend⟩ :=
      hempty
    dsimp only at h1 hitems hpops hstolen hroom
    have hreach := Lts.reaches_of_runs Lifo.twoThieves_init hr
    refine ⟨s, s', ⟨_, htimely, ht⟩, hend, ?_⟩
    have hwhy : _ ∨ Lifo.keen.want = 0 ∨ s.maxCount (some false) = 0 :=
      (booking_justified (by decide)).1.empty hreach (Option.isSome_of_eq_some h1)
        (fun sn oldHead hb => ?_) ⟨none, ht⟩ hend
    · rw [hroom] at hwhy
      exact hwhy.resolve_right (by decide)
    · cases h1.symm.trans hb
      dsimp only
      omega

/-! ### A call that counts a full turn -/

/-- A stealer loads the heads, and then 15 items leave and others enter, so that there is always
one: with the one that is there now they are a full turn, and the stealer counts none. -/
theorem empty_with_items :
    (¬ ∀ (tr : List (Event ℕ Unit)) (s₀ s₁ s₂ : Lifo.St 4 ℕ Unit) (ch : Choice ℕ Unit)
      (c : Option Unit), (Lifo.lts 4 ℕ Unit).Reaches tr s₀ → s₀.booking c = some .loadWord →
      (Lifo.lts 4 ℕ Unit).During (fun s => s.Booking c ∧ 0 < s.items) s₀ s₁ →
      (∀ sn oldHead, s₁.booking c = some (.loadCount sn oldHead) →
        s₁.pops + s₁.stolen < sn.pops + sn.stolen + 2 ^ 4) →
      (∃ l, Lifo.step (Lifo.access ch c) s₁ = some (s₂, l)) → s₂.Failed .empty c →
      ch.want = 0 ∨ s₁.maxCount c = 0) ∧
    ¬ ∀ (tr : List (Event ℕ Unit)) (s₀ s₁ s₂ : Fifo.St 4 ℕ Unit) (ch : Choice ℕ Unit)
      (c : Option Unit), (Fifo.lts 4 ℕ Unit).Reaches tr s₀ → s₀.booking c = some .loadHeads →
      (Fifo.lts 4 ℕ Unit).During (fun s => s.Booking c ∧ 0 < s.items) s₀ s₁ →
      (∀ sn, s₁.booking c = some (.loadTail sn) → s₁.wh < sn.wh + 2 ^ 4) →
      (∃ l, Fifo.step (Fifo.access ch c) s₁ = some (s₂, l)) → s₂.Failed .empty c →
      ch.want = 0 ∨ s₁.maxCount c = 0 := by
  have hlifo : ∃ r ∈ Lts.runs Lifo.step Lifo.Timely (Lifo.pushCmds 7 ++ Lifo.pushCmds 7 ++
        [Cmd.start () (.steal false) 2]) Lifo.twoSlots,
      ∃ q ∈ Lts.runs Lifo.step
        (fun c s => Lifo.Timely c s ∧ s.Booking (some ()) ∧ 0 < s.items)
        (List.replicate 2 (Cmd.agent () Lifo.greedy) ++ Lifo.popCmds ++ Lifo.churn) r.2,
      ∃ t ∈ Lifo.step (.agent () Lifo.greedy) q.2,
        r.2.booking (some ()) = some .loadWord ∧
          q.2.booking (some ()) = some (.loadCount ⟨0, 0, 0⟩ 0) ∧ q.2.items = 1 ∧
          q.2.pops = 15 ∧ q.2.stolen = 0 ∧ q.2.maxCount (some ()) = 2 ∧
          t.1.agent () = .done (.stealErr .empty) := by decide +kernel
  have hfifo : ∃ r ∈ Lts.runs Fifo.step Fifo.Timely (Fifo.pushCmds 7 ++ Fifo.pushCmds 7 ++
        [Cmd.start () (.steal false) 2]) Fifo.twoSlots,
      ∃ q ∈ Lts.runs Fifo.step
        (fun c s => Fifo.Timely c s ∧ s.Booking (some ()) ∧ 0 < s.items)
        (Cmd.agent () Fifo.modest :: Fifo.popCmds ++ Fifo.churn) r.2,
      ∃ t ∈ Fifo.step (.agent () Fifo.modest) q.2,
        r.2.booking (some ()) = some .loadHeads ∧
          q.2.booking (some ()) = some (.loadTail ⟨0, 0, 0⟩) ∧ q.2.items = 1 ∧
          q.2.wh = 15 ∧ q.2.maxCount (some ()) = 2 ∧
          t.1.agent () = .done (.stealErr .empty) := by decide +kernel
  constructor
  · intro hall
    obtain ⟨⟨tr, s₀⟩, hr, ⟨_, s₁⟩, hq, ⟨s₂, l⟩, ht, h0, h1, hitems, hpops, hstolen, hroom, hend⟩ :=
      hlifo
    dsimp only at h0 h1 hitems hpops hstolen hroom ht
    have hlate : Lifo.greedy.want = 0 ∨ s₁.maxCount (some ()) = 0 := by
      refine hall tr s₀ s₁ s₂ Lifo.greedy (some ()) (Lts.reaches_of_runs Lifo.twoSlots_init hr) h0
        (.of_runs hq ⟨Option.isSome_of_eq_some h1, by omega⟩) (fun sn oldHead hb => ?_) ⟨l, ht⟩ hend
      cases h1.symm.trans hb
      dsimp only
      omega
    rw [hroom] at hlate
    exact absurd hlate (by decide)
  · intro hall
    obtain ⟨⟨tr, s₀⟩, hr, ⟨_, s₁⟩, hq, ⟨s₂, l⟩, ht, h0, h1, hitems, hwh, hroom, hend⟩ := hfifo
    dsimp only at h0 h1 hitems hwh hroom ht
    have hlate : Fifo.modest.want = 0 ∨ s₁.maxCount (some ()) = 0 := by
      refine hall tr s₀ s₁ s₂ Fifo.modest (some ()) (Lts.reaches_of_runs Fifo.twoSlots_init hr) h0
        (.of_runs hq ⟨Option.isSome_of_eq_some h1, by omega⟩) (fun sn hb => ?_) ⟨l, ht⟩ hend
      cases h1.symm.trans hb
      dsimp only
      omega
    rw [hroom] at hlate
    exact absurd hlate (by decide)

end St3
