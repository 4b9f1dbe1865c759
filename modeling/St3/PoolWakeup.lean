import St3.PoolSearch
import St3.Wakeup

/-!
No wakeup of the pool is lost. The slot and the inbox of a worker are read by that worker, the
injector by all of them; whoever fills one of these places looks at the bits afterwards, and a
worker that parks looked at all of them after it had set its bit.
-/

namespace St3.Pool

variable {n : ℕ} {J C L : Type*}

/-! ### The places -/

/-- Where a job can wait for a worker that sleeps. -/
inductive Place (n : ℕ)
  | injector
  | inbox (w : Fin n)
  | slot (w : Fin n)
  deriving DecidableEq

def Place.readBy (p : Place n) (w : Fin n) : Prop :=
  match p with
  | .injector => True
  | .inbox u => u = w
  | .slot u => u = w

/-- `prepare_to_park` looks at the injector first, then at the inbox, then at the slot. -/
def Place.turn : Place n → ℕ
  | .injector => 1
  | .inbox _ => 2
  | .slot _ => 3

def Shared.full (s : Shared n J) : Place n → Prop
  | .injector => s.injector ≠ []
  | .inbox w => s.inbox w ≠ []
  | .slot w => s.slot w ≠ none

/-! ### What a thread has seen, and what it owes -/

/-- How far a worker has come since it set its bit: it has looked at the places whose turn is
lower. -/
def Pc.looked : Pc n J → ℕ
  | .checkInjector => 1
  | .checkInbox => 2
  | .checkSlot => 3
  | .recheckRunning | .park => 4
  | pc => if pc.stealing = some true then 4 else 0

/-- A wake about the injector is under way. -/
def Notify.owes (p : Notify n) (q : Place n) : Prop :=
  match p with
  | .load true none _ _ => q = .injector
  | .claim _ true none _ _ => q = .injector
  | _ => False

/-- A bit was taken, and its worker not been unparked. -/
def Notify.unparks (p : Notify n) (w : Fin n) : Prop :=
  match p with
  | .unpark u _ _ _ => u = w
  | _ => False

/-- `submit_local` fills the slot, and maybe the inbox or the injector, before it looks whether
its worker sleeps. -/
def Call.owes (c : Call n J) (q : Place n) : Prop :=
  match c with
  | .notify p => p.owes q
  | .inboxEmpty w _ | .overflow w _ | .displace w _ => q = .slot w
  | .wakeLoad w _ | .wakeClaim w _ => q = .slot w ∨ q = .inbox w ∨ q = .injector
  | _ => False

def Call.unparks (c : Call n J) (w : Fin n) : Prop :=
  match c with
  | .notify p => p.unparks w
  | .wakeUnpark u _ => u = w
  | _ => False

def Pc.owes (pc : Pc n J) (q : Place n) : Prop :=
  match pc with
  | .nudge p _ => p.owes q
  | .run call _ => call.owes q
  | .stealCall _ call => call.owes q
  | _ => False

def Pc.unparks (pc : Pc n J) (w : Fin n) : Prop :=
  match pc with
  | .nudge p _ => p.unparks w
  | .run call _ => call.unparks w
  | .stealCall _ call => call.unparks w
  | _ => False

/-! ### What an access hands over -/

/-- What one access of a thread does to the handshake; `o` and `k` are what the thread owes and
whom it unparks, and `own` is the worker itself, if it is one and is not announced any more. -/
structure Handover (own : Fin n → Prop) (s s' : Shared n J) (o o' : Place n → Prop)
    (k k' : Fin n → Prop) : Prop where
  bit : ∀ w, s.sleeping w → s'.sleeping w ∨ k' w ∨ own w
  permit : ∀ w, s.permit w → s'.permit w ∨ own w
  unparks : ∀ w, k w → k' w ∨ s'.permit w
  fill : ∀ p, s'.full p → s.full p ∨ o' p ∨ ∃ w, p.readBy w ∧ own w
  owes : ∀ p, o p → o' p ∨ ∃ w, p.readBy w ∧ (s.sleeping w = false ∨ k' w ∨ s'.permit w)

/-- No bit, no permit and no place is written, but that a place may be emptied. -/
def Req.restful : Req n J L → Bool
  | .replaceSlot .. | .pushInbox .. | .pushInjector .. => false
  | .setBit .. | .clearBit .. | .claim .. | .unpark .. | .park .. => false
  | _ => true

structure Shared.Rests (s s' : Shared n J) : Prop where
  sleeping : s'.sleeping = s.sleeping
  permit : s'.permit = s.permit
  full : ∀ p, s'.full p → s.full p

lemma Shared.Rests.refl (s : Shared n J) : s.Rests s := ⟨rfl, rfl, fun _ h => h⟩

/-- A slot is emptied. -/
lemma Shared.rests_slot (s : Shared n J) (w : Fin n) : s.Rests (s.setSlot w none) := by
  refine ⟨rfl, rfl, fun p hp => ?_⟩
  cases p with
  | slot u =>
    by_cases hu : u = w
    · subst hu
      simp [full, setSlot] at hp
    · simpa [full, setSlot, hu] using hp
  | _ => exact hp

/-- A job is taken out of an inbox. -/
lemma Shared.rests_inbox (s : Shared n J) (w : Fin n) :
    s.Rests (s.setInbox w (s.inbox w).tail) := by
  refine ⟨rfl, rfl, fun p hp => ?_⟩
  cases p with
  | inbox u =>
    by_cases hu : u = w
    · subst hu
      rintro hnil
      simp [full, setInbox, hnil] at hp
    · simpa [full, setInbox, hu] using hp
  | _ => exact hp

lemma serve_rests {r : Req n J L} (hr : r.restful) {cap : ℕ} {spurious : Bool} {s s' : Shared n J}
    {l : L} (hs : serve cap spurious s r = some (l, s')) : s.Rests s' := by
  cases r <;> simp only [serve] at hs
  case replaceSlot | pushInbox | pushInjector | setBit | clearBit | claim | unpark | park =>
    cases hr
  case takeSlot w k => cases hs; exact s.rests_slot w
  case popInbox w k => cases hs; exact s.rests_inbox w
  case popInjector w k =>
    cases hs
    refine ⟨rfl, rfl, fun p hp => ?_⟩
    cases p with
    | injector =>
      rintro hnil
      simp [Shared.full, hnil] at hp
    | _ => exact hp
  case popDeque | pushDeque | book | putQueue =>
    split at hs <;> cases hs <;> exact ⟨rfl, rfl, fun p hp => by cases p <;> exact hp⟩
  all_goals
    cases hs
    exact ⟨rfl, rfl, fun p hp => by cases p <;> exact hp⟩

section
variable {own : Fin n → Prop} {s s' : Shared n J} {o o' : Place n → Prop} {k k' : Fin n → Prop}

/-- A restful access of a thread that unparks nobody. -/
lemma Shared.Rests.handover (h : s.Rests s') (hk : ∀ w, ¬ k w)
    (ho : ∀ p, o p → o' p ∨ ∃ w, p.readBy w ∧ s.sleeping w = false) :
    Handover own s s' o o' k k' where
  bit w hw := .inl (by rw [h.sleeping]; exact hw)
  permit w hw := .inl (by rw [h.permit]; exact hw)
  unparks w hw := absurd hw (hk w)
  fill p hp := .inl (h.full p hp)
  owes p hp := by
    rcases ho p hp with ho | ⟨w, hw, hs⟩
    · exact .inl ho
    · exact .inr ⟨w, hw, .inl hs⟩

/-- A place is filled, and the thread owes it a look from then on. -/
lemma handover_fill (hbits : s'.sleeping = s.sleeping) (hpermit : s'.permit = s.permit)
    (hfull : ∀ p, s'.full p → s.full p ∨ o' p) (hk : ∀ w, ¬ k w) (ho : ∀ p, o p → o' p) :
    Handover own s s' o o' k k' where
  bit w hw := .inl (by rw [hbits]; exact hw)
  permit w hw := .inl (by rw [hpermit]; exact hw)
  unparks w hw := absurd hw (hk w)
  fill p hp := (hfull p hp).imp_right .inl
  owes p hp := .inl (ho p hp)

/-- The bit of `c` is cleared; if it was set, the thread is to unpark `c`. -/
lemma handover_claim {c : Fin n} (note : Bool) (hk : ∀ w, ¬ k w) (hk' : s.sleeping c → k' c)
    (ho : ∀ p, o p → o' p ∨ p.readBy c) :
    Handover own s ((if note && s.sleeping c then s.setOwed c true else s).setSleeping c false)
      o o' k k' where
  bit w hw := by
    by_cases hc : w = c
    · subst hc
      exact .inr (.inl (hk' hw))
    · refine .inl ?_
      split <;> simpa [Shared.setSleeping, Shared.setOwed, hc] using hw
  permit w hw := by
    refine .inl ?_
    split <;> exact hw
  unparks w hw := absurd hw (hk w)
  fill p hp := by
    refine .inl ?_
    split at hp <;> cases p <;> exact hp
  owes p hp := by
    rcases ho p hp with ho | hc
    · exact .inl ho
    · cases hbit : s.sleeping c with
      | true => exact .inr ⟨c, hc, .inr (.inl (hk' hbit))⟩
      | false => exact .inr ⟨c, hc, .inl hbit⟩

lemma handover_unpark {c : Fin n} (hk : ∀ w, k w → w = c) (ho : ∀ p, ¬ o p) :
    Handover own s (s.setPermit c true) o o' k k' where
  bit w hw := .inl hw
  permit w hw := by
    by_cases hc : w = c <;> simp [Shared.setPermit, hc, hw]
  unparks w hw := by
    rw [hk w hw]
    simp [Shared.setPermit]
  fill p hp := .inl (by cases p <;> exact hp)
  owes p hp := absurd hp (ho p)

end

/-! ### Wakes and calls -/

lemma Notify.handover (hn : 0 < n) {p p' : Notify n} {r : Req n J (Notify n)} (h : p.next = some r)
    {cap : ℕ} {spurious : Bool} {s s' : Shared n J} (hs : serve cap spurious s r = some (p', s'))
    (own : Fin n → Prop) : Handover own s s' p.owes p'.owes p.unparks p'.unparks := by
  cases p with
  | load note blocked left hint =>
    simp only [next, Option.some.injEq] at h
    subst h
    cases hs
    refine (Shared.Rests.refl s).handover (fun w hw => hw) fun q hq => ?_
    cases hc : candidate s.sleeping blocked with
    | some c =>
      left
      simp only [hc]
      cases note <;> cases blocked <;> exact hq
    | none =>
      right
      cases note <;> cases blocked <;> simp only [owes] at hq
      subst hq
      refine ⟨⟨0, hn⟩, trivial, ?_⟩
      by_contra hw
      cases candidate_none hc (by simpa using hw : s.sleeping ⟨0, hn⟩ = true)
  | claim c note blocked left hint =>
    simp only [next, Option.some.injEq] at h
    subst h
    cases hs
    refine handover_claim note (fun w hw => hw) (fun hc => by simp [hc, unparks]) fun q hq => ?_
    right
    cases note <;> cases blocked <;> simp only [owes] at hq
    subst hq
    trivial
  | unpark c note blocked left =>
    simp only [next, Option.some.injEq] at h
    subst h
    cases hs
    exact handover_unpark (fun w hw => hw.symm) fun q hq => hq
  | done => cases h

lemma Call.ofNotify_owes (p : Notify n) (q : Place n) :
    (Call.ofNotify p : Call n J).owes q ↔ p.owes q := by
  cases p <;> rfl

lemma Call.ofNotify_unparks (p : Notify n) (w : Fin n) :
    (Call.ofNotify p : Call n J).unparks w ↔ p.unparks w := by
  cases p <;> rfl

lemma Call.handover {cfg : Config n} {c c' : Call n J} {r : Req n J (Call n J)}
    (h : c.next cfg = some r) {cap : ℕ} {spurious : Bool} {s s' : Shared n J}
    (hs : serve cap spurious s r = some (c', s')) (own : Fin n → Prop) :
    Handover own s s' c.owes c'.owes c.unparks c'.unparks := by
  cases c with
  | idle => cases h
  | notify p =>
    simp only [next, Option.map_eq_some_iff] at h
    obtain ⟨r, hr, rfl⟩ := h
    rw [serve_map, Option.map_eq_some_iff] at hs
    obtain ⟨⟨p', sh⟩, hs, he⟩ := hs
    cases he
    have hp := Notify.handover cfg.pos hr hs own
    rwa [← funext fun q => propext (ofNotify_owes (J := J) p' q),
      ← funext fun w => propext (ofNotify_unparks (J := J) p' w)] at hp
  | push hint j =>
    simp only [next, Option.some.injEq] at h
    subst h
    cases hs
    refine handover_fill rfl rfl (fun q hq => ?_) (fun w hw => hw) fun q hq => hq.elim
    cases q with
    | injector => exact .inr rfl
    | _ => exact .inl hq
  | replace w j =>
    simp only [next, Option.some.injEq] at h
    subst h
    cases hs
    refine handover_fill rfl rfl (fun q hq => ?_) (fun w hw => hw) fun q hq => hq.elim
    cases q with
    | slot u =>
      by_cases hu : u = w
      · subst hu
        right
        cases s.slot u with
        | none => exact .inl rfl
        | some d => dsimp only; split <;> rfl
      · exact .inl (by simpa [Shared.full, Shared.setSlot, hu] using hq)
    | _ => exact .inl hq
  | inboxEmpty w d =>
    simp only [next, Option.some.injEq] at h
    subst h
    cases hs
    refine (Shared.Rests.refl s).handover (fun w hw => hw) fun q hq => .inl ?_
    dsimp only
    split <;> exact hq
  | overflow w d =>
    simp only [next, Option.some.injEq] at h
    subst h
    cases hs
    refine handover_fill rfl rfl (fun q hq => ?_) (fun w hw => hw) fun q hq => .inl hq
    cases q with
    | injector => exact .inr (.inr (.inr rfl))
    | _ => exact .inl hq
  | displace w d =>
    simp only [next, Option.some.injEq] at h
    subst h
    cases hs
    refine handover_fill rfl rfl (fun q hq => ?_) (fun w hw => hw) fun q hq => .inl hq
    cases q with
    | inbox u =>
      by_cases hu : u = w
      · subst hu
        exact .inr (.inr (.inl rfl))
      · exact .inl (by simpa [Shared.full, Shared.setInbox, hu] using hq)
    | _ => exact .inl hq
  | wakeLoad w b =>
    simp only [next, Option.some.injEq] at h
    subst h
    cases hs
    refine (Shared.Rests.refl s).handover (fun w hw => hw) fun q hq => ?_
    cases hw : s.sleeping w with
    | true =>
      left
      simp only [hw, if_true]
      exact hq
    | false =>
      refine .inr ⟨w, ?_, hw⟩
      rcases hq with rfl | rfl | rfl <;> first | rfl | trivial
  | wakeClaim w b =>
    simp only [next, Option.some.injEq] at h
    subst h
    cases hs
    refine handover_claim false (fun w hw => hw) (fun hw => by simp [hw, unparks]) fun q hq => ?_
    right
    rcases hq with rfl | rfl | rfl <;> first | rfl | trivial
  | wakeUnpark w b =>
    simp only [next, Option.some.injEq] at h
    subst h
    cases hs
    exact handover_unpark (fun u hu => hu.symm) fun q hq => hq
  | stop =>
    simp only [next, Option.some.injEq] at h
    subst h
    cases hs
    exact handover_fill rfl rfl (fun q hq => .inl (by cases q <;> exact hq)) (fun w hw => hw)
      fun q hq => hq.elim
  | unparkAll i =>
    simp only [next, Option.some.injEq] at h
    subst h
    cases hs
    exact handover_unpark (fun u hu => hu.elim) fun q hq => hq

/-! ### Workers -/

/-- The worker neither makes a call nor touches a bit or a permit, looks at no place while it is
announced, and fills none. -/
def Pc.restful : Pc n J → Bool
  | .run .. | .nudge .. | .stealCall .. => false
  | .announce | .cancel | .woken | .leave | .park => false
  | .checkInjector | .checkInbox | .checkSlot => false
  | .capPush .. | .exit => false
  | _ => true

lemma Pc.restful_owes {pc : Pc n J} (h : pc.restful) (q : Place n) : ¬ pc.owes q := by
  cases pc <;> first | exact fun hq => hq | cases h

lemma Pc.restful_unparks {pc : Pc n J} (h : pc.restful) (w : Fin n) : ¬ pc.unparks w := by
  cases pc <;> first | exact fun hq => hq | cases h

lemma Worker.resume_looked (t : Tuning) (l : Worker n J) (a : After J) :
    (l.resume t a).pc.looked ≤ (Pc.nudge (n := n) .done a).looked := by
  unfold resume goto
  cases a with
  | took boundary taken =>
    cases boundary <;> (try (dsimp only; split)) <;> exact Nat.zero_le _
  | stole prep got =>
    cases prep <;> (try (dsimp only; split)) <;> first | exact Nat.zero_le _ | exact le_rfl
  | _ => exact Nat.zero_le _

lemma Worker.popMine_looked (t : Tuning) (l : Worker n J) : (l.popMine t).pc.looked = 0 := by
  unfold popMine goto
  split
  · dsimp only
    split <;> rfl
  · split <;> rfl

/-- `share` is called by a worker that is not announced. -/
lemma Worker.resume_shares (t : Tuning) (l : Worker n J) {a : After J} (h : a.shares) :
    (l.resume t a).pc.looked = 0 := by
  cases a <;> first | rfl | cases h

lemma Worker.next_restful {cfg : Config n} {w : Fin n} {l : Worker n J}
    {r : Req n J (Worker n J)} (h : l.next cfg w = some r) (hpush : l.pc.pushes)
    (hpc : l.pc.restful) : r.restful ∧ r.All fun l' => l'.pc.looked ≤ l.pc.looked := by
  obtain ⟨mine, u, sp, rng, lr, e, pc⟩ := l
  cases pc
  case run | nudge | stealCall | announce | cancel | woken | leave | park | checkInjector |
    checkInbox | checkSlot | capPush | exit => cases hpc
  all_goals simp only [next, Option.some.injEq, reduceCtorEq] at h
  all_goals try subst h
  case popMine => exact ⟨rfl, fun _ => (popMine_looked _ _).trans_le (Nat.zero_le _)⟩
  case share after =>
    refine ⟨rfl, fun _ => ?_⟩
    dsimp only
    split
    · exact (resume_shares _ _ hpush).trans_le (Nat.zero_le _)
    · exact Nat.zero_le _
  case sharePop left shared after =>
    refine ⟨rfl, fun _ => ?_⟩
    dsimp only
    split
    · exact Nat.zero_le _
    · split
      · cases after <;> first | exact Nat.zero_le _ | cases hpush
      · exact (resume_shares _ _ hpush).trans_le (Nat.zero_le _)
  case endSearching got =>
    split_ifs at h <;> cases h <;>
      first | exact ⟨rfl, Nat.zero_le _⟩ | exact ⟨rfl, fun _ => Nat.zero_le _⟩
  case readySlot =>
    split_ifs at h <;> cases h
    · exact ⟨rfl, fun _ => Nat.zero_le _, Nat.zero_le _⟩
    · exact ⟨rfl, fun _ => Nat.zero_le _⟩
  all_goals
    refine ⟨rfl, ?_⟩
    simp only [Req.All, goto]
    -- one goal for each answer and each way on from it
    repeat' first | intro _ | refine And.intro ?_ ?_ | split
    all_goals first
      | exact Nat.zero_le _
      | exact le_rfl
      | exact resume_looked _ _ _

/-- What one access of a worker does to the handshake, and to its own part in it. -/
structure Worker.Hands (w : Fin n) (l l' : Worker n J) (s s' : Shared n J) : Prop where
  handover : Handover (fun u => u = w ∧ l'.pc.looked = 0) s s' l.pc.owes l'.pc.owes l.pc.unparks
    l'.pc.unparks
  announce : 0 < l'.pc.looked → 0 < l.pc.looked ∨ s'.sleeping w
  check : ∀ p : Place n, p.readBy w → p.turn < l'.pc.looked → p.turn < l.pc.looked ∨ ¬ s'.full p

section
variable {w : Fin n} {l l' : Worker n J} {s s' : Shared n J}

/-- An access that is no look at a place. -/
lemma Worker.Hands.of_looked (h : Handover (fun u => u = w ∧ l'.pc.looked = 0) s s' l.pc.owes
    l'.pc.owes l.pc.unparks l'.pc.unparks) (hl : l'.pc.looked ≤ l.pc.looked) :
    Hands w l l' s s' where
  handover := h
  announce := fun h0 => .inl (h0.trans_le hl)
  check := fun _ _ hp => .inl (hp.trans_le hl)

/-- A look at the place whose turn it is. -/
lemma Worker.Hands.of_look (hl : ∀ q : Place n, ¬ l.pc.owes q) (hk : ∀ u, ¬ l.pc.unparks u)
    (h0 : 0 < l.pc.looked) (hlook : l'.pc.looked ≤ l.pc.looked ∨ l'.pc.looked = l.pc.looked + 1 ∧
      ∀ p : Place n, p.readBy w → p.turn = l.pc.looked → ¬ s.full p) : Hands w l l' s s where
  handover := (Shared.Rests.refl s).handover hk fun q hq => absurd hq (hl q)
  announce := fun _ => .inl h0
  check := by
    intro p hp hturn
    rcases hlook with hle | ⟨he, hempty⟩
    · exact .inl (by omega)
    · by_cases hlt : p.turn < l.pc.looked
      · exact .inl hlt
      · exact .inr (hempty p hp (by omega))

/-- The worker clears its bit, and is not announced any more. -/
lemma Worker.Hands.of_clear (hl : ∀ q : Place n, ¬ l.pc.owes q) (hk : ∀ u, ¬ l.pc.unparks u)
    (h0 : l'.pc.looked = 0) : Hands w l l' s (s.setSleeping w false) := by
  refine .of_looked ⟨fun u hu => ?_, fun u hu => .inl hu, fun u hu => absurd hu (hk u),
    fun q hq => .inl (by cases q <;> exact hq), fun q hq => absurd hq (hl q)⟩ (by omega)
  by_cases hw : u = w
  · exact .inr (.inr ⟨hw, h0⟩)
  · exact .inl (by simpa [Shared.setSleeping, hw] using hu)

end

/-- A wake that is over owes nothing. -/
lemma Notify.over {p : Notify n} (h : p.next (J := J) = none) :
    (∀ q, ¬ p.owes q) ∧ ∀ u, ¬ p.unparks u := by
  cases p with
  | done => exact ⟨fun q hq => hq, fun u hu => hu⟩
  | _ => cases h

lemma Call.over {cfg : Config n} {c : Call n J} (h : c.next cfg = none) :
    (∀ q, ¬ c.owes q) ∧ ∀ u, ¬ c.unparks u := by
  cases c with
  | idle => exact ⟨fun q hq => hq, fun u hu => hu⟩
  | notify p => exact Notify.over (J := J) (Option.map_eq_none_iff.mp h)
  | _ => cases h

/-- **The step of a worker.** -/
lemma Worker.hands {cfg : Config n} {w : Fin n} {l l' : Worker n J} {r : Req n J (Worker n J)}
    (h : l.next cfg w = some r) (hl : l.Idle) {cap : ℕ} {spurious : Bool} {s s' : Shared n J}
    (hs : serve cap spurious s r = some (l', s')) : Hands w l l' s s' := by
  by_cases hpc : l.pc.restful
  · obtain ⟨hr, hall⟩ := next_restful h hl.pushes hpc
    exact .of_looked ((serve_rests hr hs).handover (Pc.restful_unparks hpc)
      fun q hq => absurd hq (Pc.restful_owes hpc q)) (hall.serve hs)
  obtain ⟨mine, u, sp, rng, lr, e, pc⟩ := l
  cases pc
  case run c wakes =>
    simp only [next, Option.map_eq_some_iff] at h
    obtain ⟨r, hr, rfl⟩ := h
    rw [serve_map, Option.map_eq_some_iff] at hs
    obtain ⟨⟨c', sh⟩, hs, he⟩ := hs
    cases he
    exact .of_looked (Call.handover hr hs _) le_rfl
  case nudge p after =>
    simp only [next] at h
    split at h <;> cases h
    · cases hs
      obtain ⟨hq, hu⟩ := Notify.over ‹_›
      refine .of_looked ((Shared.Rests.refl s).handover hu fun q h => absurd h (hq q))
        ((resume_looked _ _ _).trans ?_)
      cases after <;> exact le_rfl
    · rw [serve_map, Option.map_eq_some_iff] at hs
      obtain ⟨⟨p', sh⟩, hs, he⟩ := hs
      cases he
      refine .of_looked (Notify.handover cfg.pos ‹_› hs _) ?_
      cases after <;> exact le_rfl
  case stealCall prep c =>
    simp only [next] at h
    split at h <;> cases h
    · cases hs
      obtain ⟨hq, hu⟩ := Call.over ‹_›
      exact .of_looked ((Shared.Rests.refl s).handover hu fun q h => absurd h (hq q))
        (resume_looked _ _ _)
    · rw [serve_map, Option.map_eq_some_iff] at hs
      obtain ⟨⟨c', sh⟩, hs, he⟩ := hs
      cases he
      exact .of_looked (Call.handover ‹_› hs _) le_rfl
  all_goals first | exact absurd rfl hpc | skip
  all_goals simp only [next, Option.some.injEq] at h
  all_goals try subst h
  case announce =>
    cases hs
    refine ⟨⟨fun u hu => .inl ?_, fun u hu => .inl hu, fun u hu => hu.elim,
      fun q hq => .inl (by cases q <;> exact hq), fun q hq => hq.elim⟩, fun _ => .inr ?_,
      fun q _ hq => ?_⟩
    · by_cases hw : u = w <;> simp [Shared.setSleeping, hw, hu]
    · simp [Shared.setSleeping]
    · cases q <;> simp [Place.turn, goto, Pc.looked] at hq
  case checkInjector =>
    cases hs
    refine .of_look (fun _ h => h) (fun _ h => h) Nat.one_pos ?_
    dsimp only [goto]
    split_ifs with hnil
    · refine .inr ⟨rfl, fun q _ hq => ?_⟩
      cases q <;> cases hq
      simpa [Shared.full] using hnil
    · exact .inl (Nat.zero_le _)
  case checkInbox =>
    cases hs
    refine .of_look (fun _ h => h) (fun _ h => h) Nat.two_pos ?_
    dsimp only [goto]
    split_ifs with hnil
    · refine .inr ⟨rfl, fun q hr hq => ?_⟩
      cases q <;> cases hq
      cases hr
      simpa [Shared.full] using hnil
    · exact .inl (Nat.zero_le _)
  case checkSlot =>
    cases hs
    refine .of_look (fun _ h => h) (fun _ h => h) (Nat.succ_pos 2) ?_
    dsimp only [goto]
    split_ifs with hsome
    · exact .inl (Nat.zero_le _)
    · refine .inr ⟨rfl, fun q hr hq => ?_⟩
      cases q <;> cases hq
      cases hr
      simpa [Shared.full] using hsome
  case cancel | woken | leave =>
    cases hs
    exact .of_clear (fun _ h => h) (fun _ h => h) rfl
  case park =>
    simp only [serve] at hs
    -- the permit of the worker is gone, but it is not asleep any more
    have hwoken : ∀ sh : Shared n J, sh = s ∨ sh = s.setPermit w false →
        Hands w (⟨mine, u, sp, rng, lr, e, .park⟩ : Worker n J)
          ⟨mine, u, sp, rng, lr, e, .woken⟩ s sh := by
      rintro _ (rfl | rfl)
      · exact .of_looked ((Shared.Rests.refl _).handover (fun _ h => h) fun _ h => h.elim)
          (Nat.zero_le _)
      · refine .of_looked ⟨fun v hv => .inl hv, fun v hv => ?_, fun _ h => h.elim,
          fun q hq => .inl (by cases q <;> exact hq), fun _ h => h.elim⟩ (Nat.zero_le _)
        by_cases hw : v = w
        · exact .inr ⟨hw, rfl⟩
        · exact .inl (by simpa [Shared.setPermit, hw] using hv)
    split_ifs at hs <;> cases hs
    · exact hwoken _ (.inl rfl)
    · exact hwoken _ (.inr rfl)
    · exact hwoken _ (.inl rfl)
  case capPush j other =>
    cases hs
    refine .of_looked ⟨fun v hv => .inl hv, fun v hv => .inl hv, fun _ h => h.elim,
      fun q hq => ?_, fun _ h => h.elim⟩ (Nat.zero_le _)
    cases q with
    | inbox v =>
      by_cases hv : v = w
      · exact .inr (.inr ⟨v, rfl, hv, rfl⟩)
      · exact .inl (by simpa [Shared.full, Shared.setInbox, hv] using hq)
    | _ => exact .inl hq
  case exit =>
    have hmine : mine = [] := hl.mine rfl
    subst hmine
    simp only [Option.some.injEq] at h
    subst h
    refine .of_looked ((serve_rests rfl hs).handover (fun _ h => h) fun _ h => h.elim) ?_
    simp only [serve] at hs
    split_ifs at hs <;> cases hs <;> exact Nat.zero_le _

/-! ### The pool -/

/-- The handshake of the pool. -/
def St.wakeup (s : St n J C) : Wakeup (Fin n) (Place n) (Fin n ⊕ C) where
  announced w := 0 < (s.worker w).pc.looked
  bit w := s.shared.sleeping w
  permit w := s.shared.permit w
  checked w p := p.turn < (s.worker w).pc.looked
  full := s.shared.full
  owes t p := t.elim (fun w => (s.worker w).pc.owes p) fun c => (s.caller c).owes p
  unparks t u := t.elim (fun w => (s.worker w).pc.unparks u) fun c => (s.caller c).unparks u

/-- Who reads a place. -/
abbrev reads (w : Fin n) (p : Place n) : Prop := p.readBy w

/-- **The step of one thread** `t`. -/
lemma Handover.step (own : Fin n → Prop) {s s' : St n J C} (t : Fin n ⊕ C)
    (hothers : ∀ t', t' ≠ t → s'.wakeup.owes t' = s.wakeup.owes t' ∧
      s'.wakeup.unparks t' = s.wakeup.unparks t')
    (h : Handover own s.shared s'.shared (s.wakeup.owes t) (s'.wakeup.owes t) (s.wakeup.unparks t)
      (s'.wakeup.unparks t))
    (hown : ∀ w, s'.wakeup.announced w → ¬ own w)
    (hann : ∀ w, s'.wakeup.announced w → s.wakeup.announced w ∨ s'.wakeup.bit w)
    (hcheck : ∀ w (p : Place n), p.readBy w → s'.wakeup.checked w p →
      s.wakeup.checked w p ∨ ¬ s'.shared.full p) :
    Wakeup.Step reads s.wakeup s'.wakeup where
  announce := hann
  bit w ha hb := by
    rcases h.bit w hb with hb | hk | ho
    · exact .inl hb
    · exact .inr (.inr ⟨t, hk⟩)
    · exact absurd ho (hown w ha)
  permit w ha hp := .inl ((h.permit w hp).resolve_right (hown w ha))
  unparks t' w ht := by
    by_cases he : t' = t
    · subst he
      exact (h.unparks w ht).symm.imp id fun hk => ⟨t', hk⟩
    · exact .inr ⟨t', by rw [(hothers t' he).2]; exact ht⟩
  announced w p hc := (Nat.zero_le _).trans_lt hc
  check := hcheck
  fill p hp := by
    rcases h.fill p hp with hf | ho | ⟨w, hw, ho⟩
    · exact .inl hf
    · exact .inr (.inl ⟨t, ho⟩)
    · exact .inr (.inr ⟨w, hw, fun hc => hown w ((Nat.zero_le _).trans_lt hc) ho⟩)
  owes t' p ht := by
    by_cases he : t' = t
    · subst he
      rcases h.owes p ht with ho | ⟨w, hw, hb | hk | hp⟩
      · exact .inl ⟨t', ho⟩
      · exact .inr ⟨w, hw, .inl (by simpa [St.wakeup] using hb)⟩
      · exact .inr ⟨w, hw, .inr (.inr ⟨t', hk⟩)⟩
      · exact .inr ⟨w, hw, .inr (.inl hp)⟩
    · exact .inl ⟨t', by rw [(hothers t' he).1]; exact ht⟩

section
variable {s : St n J C} {sh : Shared n J}

/-- An access of a worker. -/
lemma Worker.Hands.step {w : Fin n} {l : Worker n J} (h : Hands w (s.worker w) l s.shared sh) :
    Wakeup.Step reads s.wakeup ({ s with shared := sh }.setWorker w l : St n J C).wakeup := by
  have hself : ({ s with shared := sh }.setWorker w l : St n J C).worker w = l := by
    simp [St.setWorker]
  have hother : ∀ u, u ≠ w → ({ s with shared := sh }.setWorker w l : St n J C).worker u =
      s.worker u := fun u hu => by simp [St.setWorker, hu]
  refine Handover.step (fun u => u = w ∧ l.pc.looked = 0) (.inl w) ?_ ?_ ?_ ?_ ?_
  · rintro (u | c) ht
    · have hu : u ≠ w := fun hu => ht (by rw [hu])
      simp only [St.wakeup, Sum.elim_inl, hother u hu, and_self]
    · exact ⟨rfl, rfl⟩
  · simp only [St.wakeup, Sum.elim_inl, hself]
    exact h.handover
  · rintro u hu ⟨rfl, h0⟩
    simp [St.wakeup, hself, h0] at hu
  · intro u hu
    by_cases hw : u = w
    · subst hw
      simp only [St.wakeup, hself] at hu ⊢
      exact h.announce hu
    · simp only [St.wakeup, hother u hw] at hu ⊢
      exact .inl hu
  · intro u p hp hc
    by_cases hw : u = w
    · subst hw
      simp only [St.wakeup, hself] at hc ⊢
      exact h.check p hp hc
    · simp only [St.wakeup, hother u hw] at hc ⊢
      exact .inl hc

/-- An access of a caller. -/
lemma Handover.setCaller [DecidableEq C] {c : C} {p : Call n J}
    (h : Handover (fun _ => False) s.shared sh (s.caller c).owes p.owes (s.caller c).unparks
      p.unparks) :
    Wakeup.Step reads s.wakeup ({ s with shared := sh }.setCaller c p : St n J C).wakeup := by
  refine Handover.step (fun _ => False) (.inr c) ?_ ?_ (fun _ _ h => h) (fun _ h => .inl h)
    fun _ _ _ h => .inl h
  · rintro (u | c') ht
    · exact ⟨rfl, rfl⟩
    · have hc : c' ≠ c := fun hc => ht (by rw [hc])
      simp [St.wakeup, St.setCaller, hc]
  · simpa [St.wakeup, St.setCaller] using h

end

/-- A call of `submit`, `submit_fn`, `submit_job` or `submit_local` is under way. -/
def Call.submits : Call n J → Bool
  | .idle | .stop | .unparkAll _ => false
  | _ => true

/-- A thread, or a job that a worker runs, is in one of these calls. -/
def St.submitting (s : St n J C) : Prop :=
  (∃ c, (s.caller c).submits) ∨ ∃ w c wakes, (s.worker w).pc = .run c wakes ∧ c.submits

/-- The worker is blocked in `park`. -/
def St.blocked (s : St n J C) (w : Fin n) : Prop :=
  (s.worker w).pc = .park ∧ s.shared.permit w = false

lemma Notify.owes_injector {p : Notify n} {q : Place n} (h : p.owes q) : q = .injector := by
  cases p with
  | load note blocked left hint => cases note <;> cases blocked <;> first | exact h | exact h.elim
  | claim c note blocked left hint =>
    cases note <;> cases blocked <;> first | exact h | exact h.elim
  | _ => exact h.elim

/-- What `Pool::push` owes is about the injector. -/
lemma Call.owes_injector {c : Call n J} {q : Place n} (hc : c.pushes) (h : c.owes q) :
    q = .injector := by
  cases c with
  | notify p => exact Notify.owes_injector h
  | _ => first | exact h.elim | cases hc

lemma Call.submits_of_owes {c : Call n J} {q : Place n} (h : c.owes q) : c.submits := by
  cases c <;> first | rfl | exact h.elim

lemma Call.submits_of_unparks {c : Call n J} {w : Fin n} (h : c.unparks w) : c.submits := by
  cases c <;> first | rfl | exact h.elim

variable [DecidableEq J] [DecidableEq C] [Fintype C] {cfg : Config n}

lemma wakeup_inv {ok : Cmd n J C → St n J C → Prop} {tr : List Empty} {s : St n J C}
    (h : (ltsWhen cfg ok).Reaches tr s) : Wakeup.Inv reads s.wakeup := by
  refine invariant (fun s => Wakeup.Inv reads s.wakeup) ?_ ?_ h
  · refine ⟨fun w hw => absurd hw (Nat.lt_irrefl 0), fun w p hc => absurd hc (Nat.not_lt_zero _),
      fun p hp _ => ?_⟩
    cases p <;> exact absurd rfl hp
  · intro _ cmd s s' hreach hs _ _ ht
    have hworker : ∀ {w : Fin n} {l : Worker n J} {a : List J} {sh : Shared n J},
        s.shared.Rests sh → (∀ q, ¬ (s.worker w).pc.owes q) → (∀ u, ¬ (s.worker w).pc.unparks u) →
        l.pc.looked = 0 →
        Wakeup.Inv reads ({ s with shared := sh, accepted := a }.setWorker w l).wakeup := by
      intro w l a sh hrest hq hu h0
      have hhands : Worker.Hands w (s.worker w) l s.shared sh :=
        .of_looked (hrest.handover hu fun q h => absurd h (hq q)) (by omega)
      exact hhands.step.inv hs
    cases ht with
    | @run w hq =>
      have hw := homes hreach w
      rw [if_pos hq] at hw
      refine hworker (a := s.accepted) ⟨rfl, rfl, fun p h => by cases p <;> exact h⟩ ?_ ?_ rfl
      · rw [hw.1]; exact fun _ h => h
      · rw [hw.1]; exact fun _ h => h
    | refused => exact hs
    | worker hr hserve =>
      exact (Worker.hands hr ((idle hreach).idle _) hserve).step.inv hs
    | @jobCall w op wakes hpc hj =>
      refine hworker (.refl _) ?_ ?_ rfl
      · rw [hpc]; exact fun _ h => h
      · rw [hpc]; exact fun _ h => h
    | @jobDone w wakes hpc =>
      refine hworker (a := s.accepted) (.refl _) ?_ ?_ rfl
      · rw [hpc]; exact fun _ h => h
      · rw [hpc]; exact fun _ h => h
    | @call c op hc hj =>
      have hhand : Handover (fun _ => False) s.shared s.shared (s.caller c).owes
          (Call.start cfg.tuning op).owes (s.caller c).unparks
          (Call.start cfg.tuning op).unparks := by
        rw [hc]
        exact (Shared.Rests.refl _).handover (fun _ h => h) fun _ h => h.elim
      exact hhand.setCaller.inv hs
    | caller hr hserve => exact (Call.handover hr hserve _).setCaller.inv hs
    | drop hw hc =>
      -- everything is empty, and nobody was about to do anything
      have hrest : s.shared.Rests s.shared.drop :=
        ⟨rfl, rfl, fun p h => by cases p <;> exact absurd rfl h⟩
      have hout : (s.worker ⟨0, cfg.pos⟩).pc = .out := by
        have := hw ⟨0, cfg.pos⟩
        cases hpc : (s.worker ⟨0, cfg.pos⟩).pc <;> simp [hpc, Pc.isOut] at this ⊢
      have hnone : ∀ u, ¬ s.wakeup.unparks (.inl ⟨0, cfg.pos⟩) u := by
        simp only [St.wakeup, Sum.elim_inl, hout]
        exact fun _ h => h
      have hstep : Wakeup.Step reads s.wakeup
          ({ s with shared := s.shared.drop, dropped := true } : St n J C).wakeup :=
        Handover.step (fun _ => False) (.inl ⟨0, cfg.pos⟩) (fun _ _ => ⟨rfl, rfl⟩)
          (hrest.handover hnone fun q h => .inl h) (fun _ _ h => h) (fun _ h => .inl h)
          fun _ _ _ h => .inl h
      exact hstep.inv hs

/-- **No lost wakeup.** In every run, with any number of callers and jobs that submit: while no
such call is under way and no worker is between clearing the bit of a sleeper and its unpark, a
worker that is blocked in `park` has an empty private queue, an empty deque, an empty slot and
an empty inbox; and when all workers are blocked the injector is empty too. -/
theorem no_lost_wakeup {tr : List Empty} {s : St n J C} (h : (lts cfg J C).Reaches tr s)
    (hcalls : ¬ s.submitting) (hunparks : ∀ w u, ¬ (s.worker w).pc.unparks u) :
    (∀ w, s.blocked w → (s.worker w).mine = [] ∧ (s.shared.deque w).stored = [] ∧
      s.shared.slot w = none ∧ s.shared.inbox w = []) ∧
    ((∀ w, s.blocked w) → s.shared.injector = []) := by
  have hinv := wakeup_inv h
  have hidle := idle h
  have hu : ∀ t u, ¬ s.wakeup.unparks t u := by
    rintro (w | c) u ht
    · exact hunparks w u ht
    · exact hcalls (.inl ⟨c, Call.submits_of_unparks ht⟩)
  have hchecked : ∀ w (p : Place n), s.blocked w → s.wakeup.checked w p := by
    intro w p hw
    simp only [St.wakeup, hw.1]
    cases p <;> simp [Place.turn, Pc.looked]
  -- what is owed while nobody submits is about the injector
  have howes : ∀ t p, s.wakeup.owes t p → p = .injector := by
    rintro (w | c) p ht
    · simp only [St.wakeup, Sum.elim_inl] at ht
      have hpush := (hidle.idle w).pushes
      cases hpc : (s.worker w).pc <;> rw [hpc] at ht hpush <;> try exact ht.elim
      case run c wakes => exact absurd (.inr ⟨w, c, wakes, hpc, Call.submits_of_owes ht⟩) hcalls
      case nudge => exact Notify.owes_injector ht
      case stealCall => exact Call.owes_injector hpush ht
    · exact absurd (.inl ⟨c, Call.submits_of_owes ht⟩) hcalls
  have hempty : ∀ w (p : Place n), s.blocked w → p ≠ .injector → (∀ u, p.readBy u → u = w) →
      ¬ s.shared.full p := by
    intro w p hw hp hr
    refine hinv.empty (fun t ht => hp (howes t p ht)) (fun t u _ => hu t u)
      (fun u hu => by rw [hr u hu]; exact hchecked w p hw) fun u hu => ?_
    rw [hr u hu]
    simp [St.wakeup, hw.2]
  refine ⟨fun w hw => ⟨(hidle.idle w).mine (by rw [hw.1]; rfl), hidle.dry w (by rw [hw.1]; rfl),
    ?_, ?_⟩, fun hall => ?_⟩
  · exact not_not.mp (hempty w (.slot w) hw (by simp) fun u hu => hu.symm)
  · exact not_not.mp (hempty w (.inbox w) hw (by simp) fun u hu => hu.symm)
  · refine not_not.mp (hinv.empty (p := .injector) ?_ (fun t u _ => hu t u)
      (fun u _ => hchecked u _ (hall u)) fun u _ => by simp [St.wakeup, (hall u).2])
    rintro (w | c) ht
    · simp only [St.wakeup, Sum.elim_inl, (hall w).1] at ht
      exact ht
    · exact hcalls (.inl ⟨c, Call.submits_of_owes ht⟩)

/-- A job was submitted while both workers slept, one of them ran it, and both sleep again. -/
theorem no_lost_wakeup_asleep : ∃ s : St 2 (Fin 1) (Fin 1),
    s.shared.handled = [(0, .run)] ∧ (∀ w, s.blocked w) ∧
      ((∀ w, s.blocked w → (s.worker w).mine = [] ∧ (s.shared.deque w).stored = [] ∧
        s.shared.slot w = none ∧ s.shared.inbox w = []) ∧
      ((∀ w, s.blocked w) → s.shared.injector = [])) := by
  obtain ⟨tr, s, hr, hv⟩ := exists_reaches (J := Fin 1) (C := Fin 1) twoWorkers
    (fun _ _ => True)
    [(1, .run 0), (37, .worker 0 false), (1, .run 1), (37, .worker 1 false),
      (1, .call 0 (.submit none 0)), (4, .caller 0 false), (31, .worker 0 false), (1, .jobDone 0),
      (38, .worker 0 false)]
    (fun s => (s.shared.handled, s.caller 0, fun w => ((s.worker w).pc, s.shared.permit w)))
    (v := ([(0, .run)], .idle, fun _ => (.park, false))) (by decide +kernel)
  obtain ⟨hh, hc, hpc⟩ : s.shared.handled = [(0, .run)] ∧ s.caller 0 = .idle ∧
      ∀ w, (s.worker w).pc = .park ∧ s.shared.permit w = false := by
    simpa [Prod.ext_iff, funext_iff] using hv
  refine ⟨s, hh, hpc, no_lost_wakeup hr ?_ fun w u => ?_⟩
  · rintro (⟨c, hsub⟩ | ⟨w, c, wakes, hrun, -⟩)
    · rw [Subsingleton.elim c 0, hc] at hsub
      cases hsub
    · rw [(hpc w).1] at hrun
      cases hrun
  · rw [(hpc w).1]
    exact fun h => h

end St3.Pool
