import St3.PoolRuns

/-!
A pool without local wakes: `submit_local` is another `submit`, and the slots stay empty.
-/

namespace St3.Pool

variable {n : ℕ} {J C L L' : Type*}

/-- Not in the part of `submit_local` that puts a job into a slot. -/
def Call.slotless : Call n J → Bool
  | .idle | .push .. | .notify _ | .stop | .unparkAll _ => true
  | _ => false

def Pc.slotless : Pc n J → Bool
  | .run call _ => call.slotless
  | .stealCall _ call => call.slotless
  | _ => true

/-- A worker that has not found anything in its slot. -/
structure Worker.Slotless (l : Worker n J) : Prop where
  pc : l.pc.slotless
  lifoRun : l.lifoRun = 0
  exhausted : l.slotBudgetExhausted = false

/-- An access that fills no slot, and goes on to `P` where all slots are empty. -/
def Req.Slotless (P : L → Prop) : Req n J L → Prop
  | .takeSlot _ k => P (k none)
  | .replaceSlot .. => False
  | r => r.All P

lemma Req.Slotless.map {P : L' → Prop} {f : L → L'} {r : Req n J L}
    (h : r.Slotless fun l => P (f l)) : (r.map f).Slotless P := by
  cases r <;> exact h

lemma Req.Slotless.mono {P Q : L → Prop} {r : Req n J L} (h : r.Slotless P) (hpq : ∀ l, P l → Q l) :
    r.Slotless Q := by
  cases r
  case takeSlot => exact hpq _ h
  case replaceSlot => exact h.elim
  all_goals
    simp only [Req.Slotless] at h ⊢
    exact h.mono hpq

lemma Req.Slotless.serve {P : L → Prop} {r : Req n J L} (h : r.Slotless P) {cap : ℕ}
    {spurious : Bool} {s s' : Shared n J} {l : L} (hslot : ∀ w, s.slot w = none)
    (hs : serve cap spurious s r = some (l, s')) : P l ∧ ∀ w, s'.slot w = none := by
  cases r
  case takeSlot w k =>
    cases hs
    refine ⟨by rw [hslot]; exact h, fun u => ?_⟩
    by_cases hu : u = w
    · simp [Shared.setSlot, hu]
    · simpa [Shared.setSlot, hu] using hslot u
  case replaceSlot => exact h.elim
  all_goals
    simp only [Req.Slotless] at h
    refine ⟨h.serve hs, fun u => ?_⟩
    simp only [Pool.serve] at hs
  case popDeque | pushDeque | book | putQueue => split at hs <;> cases hs <;> exact hslot u
  case park => split at hs <;> (try split at hs) <;> cases hs <;> exact hslot u
  case claim => cases hs; split <;> exact hslot u
  all_goals cases hs; exact hslot u

lemma Notify.next_slotless {P : Call n J → Prop} (hP : ∀ p, P (.ofNotify p)) {p : Notify n}
    {r : Req n J (Notify n)} (h : p.next = some r) : (r.map Call.ofNotify).Slotless P := by
  cases p <;> simp only [next, Option.some.injEq, reduceCtorEq] at h <;> subst h
  case load => exact fun _ => hP _
  case claim => exact ⟨hP _, hP _⟩
  case unpark => exact hP _

lemma Call.next_slotless {cfg : Config n} {c : Call n J} {r : Req n J (Call n J)}
    (h : c.next cfg = some r) (hc : c.slotless) : r.Slotless fun c => c.slotless := by
  cases c with
  | notify p =>
    simp only [next, Option.map_eq_some_iff] at h
    obtain ⟨r, hr, rfl⟩ := h
    exact Notify.next_slotless (fun p => by cases p <;> rfl) hr
  | push hint j =>
    simp only [next, Option.some.injEq] at h
    subst h
    rfl
  | stop =>
    simp only [next, Option.some.injEq] at h
    subst h
    rfl
  | unparkAll i =>
    simp only [next, Option.some.injEq] at h
    subst h
    show (if h : _ then _ else _ : Call n J).slotless
    split <;> rfl
  | idle => cases h
  | _ => cases hc

lemma Worker.resume_slotless (t : Tuning) {l : Worker n J} (a : After J) (hl : l.lifoRun = 0)
    (he : l.slotBudgetExhausted = false) : (l.resume t a).Slotless := by
  unfold resume goto
  cases a with
  | took boundary taken => cases boundary <;> (try (dsimp only; split)) <;> exact ⟨rfl, hl, he⟩
  | stole prep got => cases prep <;> (try (dsimp only; split)) <;> exact ⟨rfl, hl, he⟩
  | _ => exact ⟨rfl, hl, he⟩

lemma Worker.popMine_slotless (t : Tuning) {l : Worker n J} (hl : l.lifoRun = 0)
    (he : l.slotBudgetExhausted = false) : (l.popMine t).Slotless := by
  unfold popMine goto
  split
  · dsimp only
    split <;> exact ⟨rfl, hl, he⟩
  · split <;> exact ⟨rfl, hl, he⟩

attribute [local grind =] Req.All Req.Slotless Worker.goto Worker.found Worker.again
attribute [local grind] Pc.slotless Call.slotless Worker.Slotless

lemma Worker.next_slotless {cfg : Config n} {w : Fin n} {l : Worker n J} {r : Req n J (Worker n J)}
    (h : l.next cfg w = some r) (hl : l.Slotless) : r.Slotless Worker.Slotless := by
  have hlimit := cfg.accepted.limit
  obtain ⟨mine, u, sp, rng, lr, e, pc⟩ := l
  obtain ⟨hpc, hlr, he⟩ := hl
  dsimp only at hlr he
  subst hlr he
  cases pc
  case run c wakes =>
    simp only [next, Option.map_eq_some_iff] at h
    obtain ⟨r, hr, rfl⟩ := h
    exact ((Call.next_slotless hr hpc).mono fun _ hc => ⟨hc, rfl, rfl⟩).map
  case nudge p after =>
    simp only [next] at h
    split at h <;> cases h
    · exact fun _ => resume_slotless _ _ rfl rfl
    · rename_i r hr
      cases p <;> simp only [Notify.next, Option.some.injEq, reduceCtorEq] at hr <;> subst hr
      case load => exact fun _ => ⟨rfl, rfl, rfl⟩
      case claim => exact ⟨⟨rfl, rfl, rfl⟩, ⟨rfl, rfl, rfl⟩⟩
      case unpark => exact ⟨rfl, rfl, rfl⟩
  case stealCall prep c =>
    simp only [next] at h
    split at h <;> cases h
    · exact fun _ => resume_slotless _ _ rfl rfl
    · exact ((Call.next_slotless ‹_› hpc).mono fun _ hc => ⟨hc, rfl, rfl⟩).map
  all_goals simp only [next, Option.some.injEq, reduceCtorEq] at h
  all_goals try subst h
  case popMine => exact fun _ => popMine_slotless _ rfl rfl
  case boundary =>
    intro s
    have hne : decide (0 = cfg.tuning.lifoRunLimit) = false := by simpa using hlimit.ne
    exact ⟨by simp [hne, Pc.slotless], rfl, hne⟩
  case endSearching | readySlot | exit => grind
  all_goals
    simp only [Req.Slotless, Req.All, goto]
    -- one goal for each answer and each way on from it
    repeat' first | intro _ | refine And.intro ?_ ?_ | split
    all_goals first | exact ⟨rfl, rfl, rfl⟩ | exact resume_slotless _ _ rfl rfl

/-- Nothing is ever put into a slot. -/
structure Slotless (s : St n J C) : Prop where
  slot : ∀ w, s.shared.slot w = none
  worker : ∀ w, (s.worker w).Slotless
  caller : ∀ c, (s.caller c).slotless

section
variable {s : St n J C} {sh : Shared n J}

lemma Slotless.setWorker {w : Fin n} {l : Worker n J} (h : Slotless s) (hl : l.Slotless)
    (hs : ∀ w, sh.slot w = none) : Slotless ({ s with shared := sh }.setWorker w l) where
  slot := hs
  worker u := by
    by_cases hu : u = w
    · subst hu
      simpa [St.setWorker] using hl
    · simpa [St.setWorker, hu] using h.worker u
  caller := h.caller

lemma Slotless.setCaller [DecidableEq C] {c : C} {p : Call n J} (h : Slotless s) (hp : p.slotless)
    (hs : ∀ w, sh.slot w = none) : Slotless ({ s with shared := sh }.setCaller c p) where
  slot := hs
  worker := h.worker
  caller u := by
    by_cases hu : u = c
    · subst hu
      simpa [St.setCaller] using hp
    · simpa [St.setCaller, hu] using h.caller u

end

lemma Call.start_slotless {t : Tuning} (ht : t.localWakes = false) (op : Op n J) :
    (Call.start t op).slotless := by
  cases op <;> simp [start, ht, slotless]

lemma slotless [DecidableEq J] [DecidableEq C] [Fintype C] {cfg : Config n}
    (ht : cfg.tuning.localWakes = false) {ok : Cmd n J C → St n J C → Prop} {tr : List Empty}
    {s : St n J C} (h : (ltsWhen cfg ok).Reaches tr s) : Slotless s := by
  refine invariant Slotless ?_ ?_ h
  · exact ⟨fun _ => rfl, fun _ => ⟨rfl, rfl, rfl⟩, fun _ => rfl⟩
  · intro _ cmd s s' _ hs _ _ ht'
    cases ht' with
    | run hq => exact hs.setWorker ⟨rfl, rfl, rfl⟩ hs.slot
    | refused => exact hs
    | @worker w spurious r l sh hr hserve =>
      obtain ⟨hl, hslot⟩ := (Worker.next_slotless hr (hs.worker w)).serve hs.slot hserve
      exact hs.setWorker hl hslot
    | @jobCall w op wakes hpc =>
      obtain ⟨-, hlr, he⟩ := hs.worker w
      have hacc : Slotless { s with accepted := s.accepted ++ op.job?.toList } :=
        ⟨hs.slot, hs.worker, hs.caller⟩
      exact hacc.setWorker ⟨Call.start_slotless ht op, hlr, he⟩ hs.slot
    | @jobDone w wakes hpc =>
      obtain ⟨-, hlr, he⟩ := hs.worker w
      exact hs.setWorker ⟨rfl, hlr, he⟩ hs.slot
    | @call c op hc =>
      have hacc : Slotless { s with accepted := s.accepted ++ op.job?.toList } :=
        ⟨hs.slot, hs.worker, hs.caller⟩
      exact hacc.setCaller (Call.start_slotless ht op) hs.slot
    | @caller c spurious r p sh hr hserve =>
      obtain ⟨hp, hslot⟩ := (Call.next_slotless hr (hs.caller c)).serve hs.slot hserve
      exact hs.setCaller hp hslot
    | drop => exact ⟨fun _ => rfl, hs.worker, hs.caller⟩

end St3.Pool
