import St3.Pool
import Mathlib.Tactic.SplitIfs

/-!
Thieves in the pool: at most one of them has booked jobs of a deque, and what is booked is
copied before the booking ends.
-/

namespace St3.Pool

variable {n : ℕ} {J C L L' : Type*}

/-! ### What a thread goes on with -/

/-- Whatever the answer, the thread goes on with what has property `P`. -/
def Req.All (P : L → Prop) : Req n J L → Prop
  | .load k => ∀ s, P (k s)
  | .takeSlot _ k | .popInbox _ k | .popInjector _ k | .popDeque _ k | .replaceSlot _ _ k =>
    (∀ i, P (k (some i))) ∧ P (k none)
  | .pushDeque _ _ k | .claim _ _ k | .putQueue _ k => P (k true) ∧ P (k false)
  | .book _ _ _ k => (∀ word, P (k (some word))) ∧ P (k none)
  | .transfer _ k => ∀ js, P (k js)
  | .addSearching k => ∀ m, P (k m)
  | .pushInbox _ _ k | .pushInjector _ k | .handle _ _ k | .append _ _ k | .release _ k
  | .setBit _ k | .clearBit _ k | .unpark _ k | .park _ k | .stop k | .subSearching k
  | .complete _ k => P k

lemma Req.All.map {f : L → L'} {P : L' → Prop} {r : Req n J L} (h : r.All fun l => P (f l)) :
    (r.map f).All P := by
  cases r <;> exact h

lemma Req.All.mono {P Q : L → Prop} {r : Req n J L} (h : r.All P) (hpq : ∀ l, P l → Q l) :
    r.All Q := by
  cases r <;> simp only [Req.All] at h ⊢ <;> grind

lemma Req.all_of_forall {P : L → Prop} (h : ∀ l, P l) (r : Req n J L) : r.All P := by
  cases r <;> simp [Req.All, h]

lemma Req.All.serve {P : L → Prop} {r : Req n J L} (h : r.All P) {cap : ℕ} {spurious : Bool}
    {s s' : Shared n J} {l : L} (hs : serve cap spurious s r = some (l, s')) : P l := by
  have opt : ∀ {k : Option J → L}, (∀ i, P (k (some i))) ∧ P (k none) → ∀ o, P (k o) :=
    fun h o => by cases o <;> [exact h.2; exact h.1 _]
  have bool : ∀ {k : Bool → L}, P (k true) ∧ P (k false) → ∀ b, P (k b) :=
    fun h b => by cases b <;> [exact h.2; exact h.1]
  cases r <;> simp only [Pool.serve] at hs
  case takeSlot | popInbox | popInjector | replaceSlot => cases hs; exact opt h _
  case popDeque => split at hs <;> cases hs <;> exact opt h _
  case claim => cases hs; exact bool h _
  case pushDeque | putQueue => split at hs <;> cases hs <;> exact bool h _
  case book => split at hs <;> cases hs <;> [exact h.2; exact h.1 _]
  case park => split at hs <;> (try split at hs) <;> cases hs <;> exact h
  case load | transfer | addSearching => cases hs; exact h _
  all_goals cases hs; exact h

/-! ### Thieves -/

/-- An access that books nothing, copies nothing booked and ends no booking. -/
def Req.Quiet : Req n J L → Prop
  | .book .. => False
  | .transfer .. => False
  | .release .. => False
  | _ => True

lemma Req.Quiet.map {f : L → L'} {r : Req n J L} (h : r.Quiet) : (r.map f).Quiet := by
  cases r <;> exact h

/-- The bookings of two deques are the same. -/
structure Sharing.SameBooking (d d' : Sharing J) : Prop where
  lent : d'.lent = d.lent
  held : d'.held = d.held
  bookedHead : d'.bookedHead = d.bookedHead

lemma Sharing.SameBooking.refl (d : Sharing J) : d.SameBooking d := ⟨rfl, rfl, rfl⟩

lemma Sharing.SameBooking.head {d d' : Sharing J} (h : d.SameBooking d') : d'.head = d.head := by
  rw [Sharing.head, Sharing.head, h.held, h.bookedHead]

lemma serve_quiet {r : Req n J L} (hr : r.Quiet) {cap : ℕ} {spurious : Bool} {s s' : Shared n J}
    {l : L} (hs : serve cap spurious s r = some (l, s')) (v : Fin n) :
    (s.deque v).SameBooking (s'.deque v) := by
  have hset : ∀ {u : Fin n} {d : Sharing J}, (s.deque u).SameBooking d →
      (s.deque v).SameBooking ((s.setDeque u d).deque v) := by
    intro u d hd
    by_cases hu : v = u
    · subst hu
      simpa [Shared.setDeque] using hd
    · simpa [Shared.setDeque, hu] using Sharing.SameBooking.refl _
  cases r <;> simp only [serve] at hs
  case book | transfer | release => exact hr.elim
  case popDeque | pushDeque | putQueue =>
    split at hs <;> cases hs <;> first | exact .refl _ | exact hset ⟨rfl, rfl, rfl⟩
  case park => split at hs <;> (try split at hs) <;> cases hs <;> exact .refl _
  case claim => cases hs; split <;> exact .refl _
  case append => cases hs; exact hset ⟨rfl, rfl, rfl⟩
  all_goals cases hs; exact .refl _

lemma Notify.next_quiet {p : Notify n} {r : Req n J (Notify n)} (h : p.next = some r) :
    r.Quiet := by
  cases p <;> simp only [Notify.next, Option.some.injEq, reduceCtorEq] at h <;> subst h <;> trivial

lemma Call.next_quiet {cfg : Config n} {c : Call n J} {r : Req n J (Call n J)}
    (h : c.next cfg = some r) : r.Quiet := by
  cases c with
  | notify p =>
    simp only [Call.next, Option.map_eq_some_iff] at h
    obtain ⟨r, hr, rfl⟩ := h
    exact (Notify.next_quiet hr).map
  | idle => cases h
  | _ =>
    simp only [Call.next, Option.some.injEq] at h
    subst h
    trivial

/-- The points of the code at which a thread relies on what it has seen of the deque of its
victim, or has booked some of its jobs. -/
def Pc.plain : Pc n J → Bool
  | .stealCount .. => false
  | .stealBook .. => false
  | .transfer .. => false
  | .append .. => false
  | .release .. => false
  | _ => true

lemma Worker.resume_plain (t : Tuning) (l : Worker n J) (a : After J) :
    (l.resume t a).pc.plain := by
  unfold resume goto
  split <;> (try split) <;> rfl

lemma Worker.popMine_plain (t : Tuning) (l : Worker n J) : (l.popMine t).pc.plain := by
  unfold popMine goto
  split
  · dsimp only
    split <;> rfl
  · split <;> rfl

attribute [local grind =] Req.All Req.Quiet Worker.goto Worker.found Worker.again
attribute [local grind] Pc.plain

lemma Worker.next_plain {cfg : Config n} {w : Fin n} {l : Worker n J} {r : Req n J (Worker n J)}
    (h : l.next cfg w = some r) (hpc : l.pc.plain)
    (hh : ∀ p free word, l.pc ≠ .stealHead p free word) :
    r.Quiet ∧ r.All fun l => l.pc.plain := by
  obtain ⟨mine, u, sp, rng, lr, e, pc⟩ := l
  cases pc
  case run c wakes =>
    simp only [next, Option.map_eq_some_iff] at h
    obtain ⟨r, hr, rfl⟩ := h
    exact ⟨(Call.next_quiet hr).map, (Req.all_of_forall (fun _ => rfl) r).map⟩
  case nudge p after =>
    simp only [next] at h
    split at h <;> cases h
    · exact ⟨trivial, fun _ => resume_plain _ _ _⟩
    · exact ⟨(Notify.next_quiet ‹_›).map, (Req.all_of_forall (fun _ => rfl) _).map⟩
  case stealCall prep c =>
    simp only [next] at h
    split at h <;> cases h
    · exact ⟨trivial, fun _ => resume_plain _ _ _⟩
    · exact ⟨(Call.next_quiet ‹_›).map, (Req.all_of_forall (fun _ => rfl) _).map⟩
  all_goals simp only [next, Option.some.injEq, reduceCtorEq] at h
  all_goals try subst h
  all_goals grind [resume_plain, popMine_plain]

/-- Whose deque a worker has booked jobs of. -/
def Pc.robs : Pc n J → Option (Fin n)
  | .transfer _ v => some v
  | .append _ v _ => some v
  | .release _ v _ => some v
  | _ => none

/-- What a worker knows of the deque of its victim. -/
def Pc.Robbing (cfg : Config n) (s : Shared n J) : Pc n J → Prop
  | .stealCount p _ word oldHead => word.2 = oldHead ∧ oldHead ≤ (s.deque (cfg.victim p)).head
  | .stealBook p _ word oldHead count =>
    (word.2 = oldHead ∧ oldHead ≤ (s.deque (cfg.victim p)).head) ∧ 0 < count
  | .transfer _ v => 0 < (s.deque v).held
  | .append _ v _ => 0 < (s.deque v).held ∧ (s.deque v).lent = []
  | .release _ v _ => 0 < (s.deque v).held ∧ (s.deque v).lent = []
  | _ => True

structure Sharing.Ok (d : Sharing J) : Prop where
  held : d.held ≤ d.bookedHead
  lent : d.held = 0 → d.lent = []

/-- At most one thief has booked jobs of a deque. -/
structure Thieves (cfg : Config n) (s : St n J C) : Prop where
  deque : ∀ v, (s.shared.deque v).Ok
  robbing : ∀ w, (s.worker w).pc.Robbing cfg s.shared
  exclusive : ∀ u w v, (s.worker u).pc.robs = some v → (s.worker w).pc.robs = some v → u = w

lemma Pc.robbing_of_plain {cfg : Config n} {s : Shared n J} {pc : Pc n J} (h : pc.plain) :
    pc.Robbing cfg s := by
  cases pc <;> trivial

lemma Pc.robs_of_plain {pc : Pc n J} (h : pc.plain) : pc.robs = none := by
  cases pc <;> first | rfl | cases h

lemma Pc.Robbing.of_same {cfg : Config n} {s s' : Shared n J} {pc : Pc n J}
    (h : pc.Robbing cfg s) (hs : ∀ v, (s.deque v).SameBooking (s'.deque v)) :
    pc.Robbing cfg s' := by
  cases pc <;> simp only [Robbing] at h ⊢ <;> simpa [(hs _).head, (hs _).held, (hs _).lent] using h

lemma Sharing.Ok.of_same {d d' : Sharing J} (h : d.Ok) (hs : d.SameBooking d') : d'.Ok :=
  ⟨by rw [hs.held, hs.bookedHead]; exact h.held, by rw [hs.held, hs.lent]; exact h.lent⟩

section
variable [DecidableEq C] {cfg : Config n} {s : St n J C} {w : Fin n} {l : Worker n J}
  {sh : Shared n J}

omit [DecidableEq C] in
/-- A step that leaves the bookings alone, and ends where the worker has booked nothing. -/
lemma Thieves.quiet (h : Thieves cfg s) (hs : ∀ v, (s.shared.deque v).SameBooking (sh.deque v))
    (hl : l.pc.Robbing cfg sh) (hr : ∀ v, l.pc.robs = some v → (s.worker w).pc.robs = some v) :
    Thieves cfg ({ s with shared := sh }.setWorker w l) where
  deque v := (h.deque v).of_same (hs v)
  robbing u := by
    by_cases hu : u = w
    · subst hu
      simpa [St.setWorker] using hl
    · simpa [St.setWorker, hu] using (h.robbing u).of_same hs
  exclusive := by
    have hold : ∀ u v, (({ s with shared := sh }.setWorker w l).worker u).pc.robs = some v →
        (s.worker u).pc.robs = some v := by
      intro u v hv
      by_cases hu : u = w
      · subst hu
        exact hr v (by simpa [St.setWorker] using hv)
      · simpa [St.setWorker, hu] using hv
    exact fun u u' v hu hu' => h.exclusive u u' v (hold u v hu) (hold u' v hu')

omit [DecidableEq C] in
/-- A step that changes the booking of deque `v`, which nobody else has booked jobs of. -/
lemma Thieves.change (h : Thieves cfg s) {v : Fin n} {d : Sharing J} (hd : d.Ok)
    (hhead : (s.shared.deque v).head ≤ d.head)
    (hv : ∀ u, u ≠ w → (s.worker u).pc.robs ≠ some v)
    (hl : l.pc.Robbing cfg (s.shared.setDeque v d))
    (hr : ∀ u, l.pc.robs = some u → u = v) :
    Thieves cfg ({ s with shared := s.shared.setDeque v d }.setWorker w l) where
  deque u := by
    by_cases hu : u = v
    · subst hu
      simpa [St.setWorker, Shared.setDeque] using hd
    · simpa [St.setWorker, Shared.setDeque, hu] using h.deque u
  robbing u := by
    by_cases hu : u = w
    · subst hu
      simpa [St.setWorker] using hl
    · have hold := h.robbing u
      have hne := hv u hu
      have hdeq : ∀ x, x ≠ v → (s.shared.setDeque v d).deque x = s.shared.deque x :=
        fun x hx => by simp [Shared.setDeque, hx]
      have hle : ∀ x, (s.shared.deque x).head ≤ ((s.shared.setDeque v d).deque x).head := by
        intro x
        by_cases hx : x = v
        · subst hx
          simpa [Shared.setDeque] using hhead
        · rw [hdeq x hx]
      simp only [St.setWorker, Function.update_of_ne hu]
      cases hpc : (s.worker u).pc <;> rw [hpc] at hold hne <;> simp only [Pc.Robbing] at hold ⊢
      case stealCount p free word oldHead => exact ⟨hold.1, hold.2.trans (hle _)⟩
      case stealBook p free word oldHead count =>
        exact ⟨⟨hold.1.1, hold.1.2.trans (hle _)⟩, hold.2⟩
      case transfer p x => rwa [hdeq x fun hx => hne (by rw [hx]; rfl)]
      case append p x js => rwa [hdeq x fun hx => hne (by rw [hx]; rfl)]
      case release p x got => rwa [hdeq x fun hx => hne (by rw [hx]; rfl)]
  exclusive := by
    intro u u' x hu hu'
    by_cases hx : x = v
    · subst hx
      have key : ∀ y,
          (({ s with shared := s.shared.setDeque x d }.setWorker w l).worker y).pc.robs =
            some x → y = w := by
        intro y hy
        by_contra hne
        exact hv y hne (by simpa [St.setWorker, hne] using hy)
      rw [key u hu, key u' hu']
    · have key : ∀ y,
          (({ s with shared := s.shared.setDeque v d }.setWorker w l).worker y).pc.robs =
            some x → (s.worker y).pc.robs = some x := by
        intro y hy
        by_cases hyw : y = w
        · subst hyw
          exact absurd (hr x (by simpa [St.setWorker] using hy)) hx
        · simpa [St.setWorker, hyw] using hy
      exact h.exclusive u u' x (key u hu) (key u' hu')

omit [DecidableEq C] in
/-- The step of a worker. -/
lemma Thieves.worker (h : Thieves cfg s) {spurious : Bool} {r : Req n J (Worker n J)}
    (hr : (s.worker w).next cfg w = some r)
    (hs : serve cfg.cap spurious s.shared r = some (l, sh)) :
    Thieves cfg ({ s with shared := sh }.setWorker w l) := by
  have hrob := h.robbing w
  cases hpc : (s.worker w).pc
  case stealHead p free word =>
    simp only [Worker.next, hpc, Option.some.injEq] at hr
    subst hr
    cases hs
    refine h.quiet (fun v => .refl _) ?_ ?_
    · dsimp only [Worker.goto]
      split_ifs with hb
      · trivial
      · exact ⟨(not_not.mp hb).symm, le_rfl⟩
    · dsimp only [Worker.goto]
      split_ifs <;> simp [Pc.robs]
  case stealCount p free word oldHead =>
    rw [hpc] at hrob
    simp only [Worker.next, hpc, Option.some.injEq] at hr
    subst hr
    cases hs
    refine h.quiet (fun v => .refl _) ?_ ?_
    · dsimp only [Worker.goto]
      split_ifs with hc
      · trivial
      · exact ⟨hrob, Nat.pos_of_ne_zero hc⟩
    · dsimp only [Worker.goto]
      split_ifs <;> simp [Pc.robs]
  case stealBook p free word oldHead count =>
    rw [hpc] at hrob
    obtain ⟨⟨hword, hhead⟩, hcount⟩ := hrob
    simp only [Worker.next, hpc, Option.some.injEq] at hr
    subst hr
    simp only [serve] at hs
    by_cases hcas : spurious = false ∧ (s.shared.deque (cfg.victim p)).word = word
    · rw [if_pos hcas] at hs
      cases hs
      -- an unchanged word means that no booking is under way
      have hok := h.deque (cfg.victim p)
      have hheld : (s.shared.deque (cfg.victim p)).held = 0 := by
        have h1 := congrArg Prod.snd hcas.2
        have h2 := hok.held
        simp only [Sharing.word, Sharing.head] at h1 hhead
        omega
      have hnobody : ∀ u, (s.worker u).pc.robs ≠ some (cfg.victim p) := by
        intro u hu
        have hold := h.robbing u
        cases hpu : (s.worker u).pc <;> rw [hpu] at hu hold <;> simp only [Pc.robs, reduceCtorEq,
          Option.some.injEq] at hu <;> subst hu <;> simp only [Pc.Robbing, hheld] at hold <;> omega
      refine h.change ⟨?_, ?_⟩ ?_ (fun u _ => hnobody u) ?_ ?_
      · simp only [Sharing.book]
        omega
      · simp only [Sharing.book]
        omega
      · simp only [Sharing.book, Sharing.head]
        omega
      · simpa [Worker.goto, Pc.Robbing, Shared.setDeque, Sharing.book] using hcount
      · simp [Worker.goto, Pc.robs, eq_comm]
    · rw [if_neg hcas] at hs
      cases hs
      refine h.quiet (fun v => .refl _) ?_ ?_
      · dsimp only [Worker.goto]
        split_ifs with hb
        · trivial
        · exact ⟨(not_not.mp hb).symm, hhead⟩
      · dsimp only [Worker.goto]
        split_ifs <;> simp [Pc.robs]
  case transfer prep v =>
    rw [hpc] at hrob
    simp only [Worker.next, hpc, Option.some.injEq] at hr
    subst hr
    cases hs
    refine h.change ⟨(h.deque v).held, fun _ => rfl⟩ le_rfl (fun u hu hu' => ?_) ?_ ?_
    · exact hu (h.exclusive u w v hu' (by rw [hpc]; rfl))
    · simpa [Worker.goto, Pc.Robbing, Shared.setDeque] using hrob
    · simp [Worker.goto, Pc.robs, eq_comm]
  case append prep v js =>
    rw [hpc] at hrob
    simp only [Worker.next, hpc, Option.some.injEq] at hr
    subst hr
    have hsame := serve_quiet (r := .append w js _) trivial hs
    cases hs
    refine h.quiet hsame ?_ ?_
    · simpa [Worker.goto, Pc.Robbing, (hsame v).held, (hsame v).lent] using hrob
    · simp [Worker.goto, hpc, Pc.robs]
  case release prep v got =>
    rw [hpc] at hrob
    simp only [Worker.next, hpc, Option.some.injEq] at hr
    subst hr
    cases hs
    have hplain : (if 1 < got then (s.worker w).goto (.nudge (nudge (some w)) (.stole prep got))
        else (s.worker w).resume cfg.tuning (.stole prep got)).pc.plain := by
      split_ifs
      · rfl
      · exact Worker.resume_plain _ _ _
    refine h.change ⟨Nat.zero_le _, fun _ => hrob.2⟩ ?_ (fun u hu hu' => ?_)
      (Pc.robbing_of_plain hplain) ?_
    · simp only [Sharing.head]
      omega
    · exact hu (h.exclusive u w v hu' (by rw [hpc]; rfl))
    · simp [Pc.robs_of_plain hplain]
  all_goals
    obtain ⟨hquiet, hall⟩ := Worker.next_plain hr (by rw [hpc]; rfl) (by simp [hpc])
    have hplain := hall.serve hs
    exact h.quiet (serve_quiet hquiet hs) (Pc.robbing_of_plain hplain)
      (by simp [Pc.robs_of_plain hplain])

end

/-- At most one thief has booked jobs of a deque, in every run. -/
theorem thieves [DecidableEq J] [DecidableEq C] [Fintype C] {cfg : Config n}
    {ok : Cmd n J C → St n J C → Prop} {tr : List Empty} {s : St n J C}
    (h : (ltsWhen cfg ok).Reaches tr s) : Thieves cfg s := by
  refine invariant (Thieves cfg) ?_ ?_ h
  · exact ⟨fun _ => ⟨le_rfl, fun _ => rfl⟩, fun _ => trivial, by simp [init, Worker.init, Pc.robs]⟩
  · intro _ cmd s s' _ hs _ _ ht
    cases ht with
    | run hq => exact hs.quiet (fun v => .refl _) trivial (by simp [Worker.start, Pc.robs])
    | refused => exact hs
    | worker hr hserve => exact hs.worker hr hserve
    | @jobCall w op =>
      have hacc : Thieves cfg { s with accepted := s.accepted ++ op.job?.toList } :=
        ⟨hs.deque, hs.robbing, hs.exclusive⟩
      exact hacc.quiet (fun v => .refl _) trivial (by simp [Worker.goto, Pc.robs])
    | jobDone => exact hs.quiet (fun v => .refl _) trivial (by simp [Worker.goto, Pc.robs])
    | call => exact ⟨hs.deque, hs.robbing, hs.exclusive⟩
    | caller hr hserve =>
      have hsame := serve_quiet (Call.next_quiet hr) hserve
      exact ⟨fun v => (hs.deque v).of_same (hsame v), fun w => (hs.robbing w).of_same hsame,
        hs.exclusive⟩
    | drop hw hc =>
      have hout : ∀ w, (s.worker w).pc = .out := by
        intro w
        have := hw w
        cases hpc : (s.worker w).pc <;> rw [hpc] at this <;> first | rfl | cases this
      exact ⟨fun v => ⟨(hs.deque v).held, fun _ => rfl⟩, fun w => by rw [hout w]; trivial,
        hs.exclusive⟩

end St3.Pool
