import St3.PoolLedger
import St3.PoolRuns

/-!
The cap on the thieves of the pool: `searching` counts the workers that have been let into the
hunt for work, or are being turned away, and the hunt is never more than half of them. The last
look before a worker parks goes through `steal_once` as well, and is not part of the hunt.
-/

namespace St3.Pool

variable {n : ℕ} {J C L L' : Type*}

/-- In `steal_once`, which `prep` says was called by `prepare_to_park`. -/
def Pc.stealing : Pc n J → Option Bool
  | .steal prep => some prep
  | .stealNext p => some p.prep
  | .stealInbox p => some p.prep
  | .stealPush prep _ => some prep
  | .stealCall prep _ => some prep
  | .stealSpare p => some p.prep
  | .stealWord p _ => some p.prep
  | .stealHead p _ _ => some p.prep
  | .stealCount p _ _ _ => some p.prep
  | .stealBook p _ _ _ _ => some p.prep
  | .transfer prep _ => some prep
  | .append prep _ _ => some prep
  | .release prep _ _ => some prep
  | .nudge _ (.stole prep _) => some prep
  | _ => none

/-- In the hunt for work: in the `steal_once` that the worker had to be let into. -/
def Pc.hunting (pc : Pc n J) : Bool := pc.stealing == some false

/-- Between the `fetch_add` on `searching` and the `fetch_sub` that belongs to it. -/
def Pc.counted : Pc n J → Bool
  | .denySearching => true
  | .endSearching _ => true
  | pc => pc.hunting

/-- The workers in `steal_once`. -/
def St.stealers (s : St n J C) : Finset (Fin n) := {w | (s.worker w).pc.stealing.isSome}

def St.hunters (s : St n J C) : Finset (Fin n) := {w | (s.worker w).pc.hunting}

def St.counted (s : St n J C) : Finset (Fin n) := {w | (s.worker w).pc.counted}

lemma Pc.counted_of_hunting {pc : Pc n J} (h : pc.hunting) : pc.counted := by
  cases pc <;> first | rfl | exact h

lemma St.hunters_subset (s : St n J C) : s.hunters ⊆ s.counted := by
  intro w hw
  simp only [hunters, counted, Finset.mem_filter, Finset.mem_univ, true_and] at hw ⊢
  exact Pc.counted_of_hunting hw

/-! ### What an access does to the count -/

/-- An access of a thread that is `counted` before it. It joins the count, leaves it, or keeps
its place, and enters the hunt only from the count of less than half of the workers. -/
def Req.Hunts (counted hunting : Bool) : Req n J (Worker n J) → Prop
  | .addSearching k => counted = false ∧
      ∀ m, (k m).pc.counted ∧ ((k m).pc.hunting → m * 2 < n)
  | .subSearching k => counted ∧ k.pc.counted = false
  | r => r.All fun l => l.pc.counted = counted ∧ (l.pc.hunting → hunting)

/-- What `steal_once` goes on with is in the count if the hunt called it. -/
def After.counted : After J → Bool
  | .stole prep _ => !prep
  | _ => false

lemma Worker.resume_counted (t : Tuning) (l : Worker n J) (a : After J) :
    (l.resume t a).pc.counted = a.counted ∧ (l.resume t a).pc.hunting = false := by
  unfold resume goto
  cases a with
  | took boundary taken => cases boundary <;> (try (dsimp only; split)) <;> exact ⟨rfl, rfl⟩
  | stole prep got => cases prep <;> (try (dsimp only; split)) <;> exact ⟨rfl, rfl⟩
  | _ => exact ⟨rfl, rfl⟩

lemma Worker.popMine_counted (t : Tuning) (l : Worker n J) :
    (l.popMine t).pc.counted = false ∧ (l.popMine t).pc.hunting = false := by
  unfold popMine goto
  split
  · dsimp only
    split <;> exact ⟨rfl, rfl⟩
  · split <;> exact ⟨rfl, rfl⟩

lemma After.not_counted {a : After J} (h : a.shares) : a.counted = false := by
  cases a <;> first | rfl | cases h

/-- A thread in a wake or in a call leaves the count alone. -/
def Req.uncounted : Req n J L → Bool
  | .addSearching _ => false
  | .subSearching _ => false
  | _ => true

lemma Notify.next_uncounted {p : Notify n} {r : Req n J (Notify n)} (h : p.next = some r) :
    r.uncounted := by
  cases p <;> simp only [next, Option.some.injEq, reduceCtorEq] at h <;> subst h <;> rfl

lemma Req.uncounted_map (f : L → L') (r : Req n J L) : (r.map f).uncounted = r.uncounted := by
  cases r <;> rfl

lemma Call.next_uncounted {cfg : Config n} {c : Call n J} {r : Req n J (Call n J)}
    (h : c.next cfg = some r) : r.uncounted := by
  cases c with
  | notify p =>
    simp only [next, Option.map_eq_some_iff] at h
    obtain ⟨r, hr, rfl⟩ := h
    rw [Req.uncounted_map, Notify.next_uncounted hr]
  | idle => cases h
  | _ =>
    simp only [next, Option.some.injEq] at h
    subst h
    rfl

lemma Req.hunts_iff {r : Req n J (Worker n J)} {counted hunting : Bool} (hr : r.uncounted) :
    r.Hunts counted hunting ↔
      r.All fun l => l.pc.counted = counted ∧ (l.pc.hunting → hunting) := by
  cases r <;> first | exact Iff.rfl | cases hr

attribute [local grind =] Req.All Req.Hunts Worker.goto Worker.found Worker.again Probe.succ
attribute [local grind] Pc.counted Pc.hunting Pc.stealing After.counted Pc.pushes After.shares

lemma Worker.next_hunts {cfg : Config n} {w : Fin n} {l : Worker n J} {r : Req n J (Worker n J)}
    (hn : 2 ≤ n) (h : l.next cfg w = some r) (hpush : l.pc.pushes) :
    r.Hunts l.pc.counted l.pc.hunting := by
  obtain ⟨mine, u, sp, rng, lr, e, pc⟩ := l
  cases pc
  case run c wakes =>
    simp only [next, Option.map_eq_some_iff] at h
    obtain ⟨r, hr, rfl⟩ := h
    rw [Req.hunts_iff (by rw [Req.uncounted_map, Call.next_uncounted hr])]
    exact (Req.all_of_forall (fun _ => ⟨rfl, id⟩) r).map
  case nudge p after =>
    simp only [next] at h
    split at h <;> cases h
    · intro _
      obtain ⟨hc, hh⟩ := resume_counted cfg.tuning
        (⟨mine, u, sp, rng, lr, e, .nudge p after⟩ : Worker n J) after
      rw [hc, hh]
      cases after <;> simp [After.counted, Pc.counted, Pc.hunting, Pc.stealing]
    · rw [Req.hunts_iff (by rw [Req.uncounted_map, Notify.next_uncounted ‹_›])]
      refine (Req.all_of_forall (fun _ => ⟨?_, ?_⟩) _).map
      · cases after <;> rfl
      · cases after <;> exact id
  case stealCall prep c =>
    simp only [next] at h
    split at h <;> cases h
    · intro _
      obtain ⟨hc, hh⟩ := resume_counted cfg.tuning
        (⟨mine, u, sp, rng, lr, e, .stealCall prep c⟩ : Worker n J) (.stole prep 1)
      rw [hc, hh]
      cases prep <;> simp [After.counted, Pc.counted, Pc.hunting, Pc.stealing]
    · rw [Req.hunts_iff (by rw [Req.uncounted_map, Call.next_uncounted ‹_›])]
      exact (Req.all_of_forall (fun _ => ⟨rfl, id⟩) _).map
  all_goals simp only [next, Option.some.injEq, reduceCtorEq] at h
  all_goals try subst h
  case share after =>
    have hnot := After.not_counted hpush
    intro _
    dsimp only
    split_ifs
    · rw [(resume_counted _ _ _).1, (resume_counted _ _ _).2, hnot]
      exact ⟨rfl, id⟩
    · exact ⟨rfl, id⟩
  case sharePop left shared after =>
    have hnot := After.not_counted hpush
    intro _
    dsimp only
    split
    · exact ⟨rfl, id⟩
    · split_ifs
      · cases after <;> first | exact ⟨rfl, id⟩ | cases hpush
      · rw [(resume_counted _ _ _).1, (resume_counted _ _ _).2, hnot]
        exact ⟨rfl, id⟩
  case popMine => exact fun _ => ⟨(popMine_counted _ _).1, by simp [popMine_counted]⟩
  case search => exact ⟨rfl, fun m => by grind⟩
  case popDeque => exact ⟨fun j => ⟨rfl, id⟩, by rw [if_neg (by omega)]; exact ⟨rfl, id⟩⟩
  case stealNext p | stealPush prep j | release prep v got => grind [resume_counted]
  case steal prep => exact fun _ => by rw [if_neg (by omega)]; exact ⟨rfl, id⟩
  case pullLen boundary taken =>
    intro s
    dsimp only
    split_ifs
    · exact ⟨rfl, id⟩
    · exact ⟨(resume_counted _ _ _).1, by simp [resume_counted]⟩
  case endSearching | readySlot | exit => grind
  all_goals
    simp only [Req.Hunts, Req.All, goto]
    -- one goal for each answer and each way on from it
    repeat' first | refine And.intro ?_ ?_ | split | intro _
    all_goals first | rfl | assumption

/-! ### The count over a run -/

/-- `searching` counts the workers that are counted, and no more than half of the pool, rounded
up, is in the hunt. -/
structure Hunt (s : St n J C) : Prop where
  count : s.shared.searching = s.counted.card
  cap : s.hunters.card ≤ (n + 1) / 2

lemma serve_searching {r : Req n J L} (hr : r.uncounted) {cap : ℕ} {spurious : Bool}
    {s s' : Shared n J} {l : L} (hs : serve cap spurious s r = some (l, s')) :
    s'.searching = s.searching := by
  cases r <;> simp only [serve] at hs
  case addSearching | subSearching => cases hr
  case popDeque | pushDeque | book | putQueue => split at hs <;> cases hs <;> rfl
  case park => split at hs <;> (try split at hs) <;> cases hs <;> rfl
  case claim => cases hs; split <;> rfl
  all_goals cases hs; rfl

section
variable {s : St n J C} {w : Fin n} {l : Worker n J} {sh : Shared n J}

lemma card_setWorker (s : St n J C) (w : Fin n) (l : Worker n J) (sh : Shared n J)
    (f : Pc n J → Bool) :
    ({v | f (({ s with shared := sh }.setWorker w l).worker v).pc} : Finset (Fin n)).card +
        (f (s.worker w).pc).toNat =
      ({v | f (s.worker v).pc} : Finset (Fin n)).card + (f l.pc).toNat := by
  have h := Sums.sum_fun_update (fun l : Worker n J => if f l.pc = true then 1 else 0) s.worker w l
  have hnat : ∀ b : Bool, (if b = true then 1 else 0) = b.toNat := by decide
  rw [Finset.card_filter, Finset.card_filter]
  rw [hnat, hnat] at h
  exact h

/-- A worker that keeps its place in the count, and enters no hunt. -/
lemma Hunt.setWorker (h : Hunt s) (hs : sh.searching = s.shared.searching)
    (hc : l.pc.counted = (s.worker w).pc.counted) (hh : l.pc.hunting → (s.worker w).pc.hunting) :
    Hunt ({ s with shared := sh }.setWorker w l) where
  count := by
    have hcard := card_setWorker s w l sh Pc.counted
    have hold := h.count
    rw [hc] at hcard
    unfold St.counted at *
    simp only [St.setWorker] at hcard ⊢
    omega
  cap := by
    have hcard := card_setWorker s w l sh Pc.hunting
    have hold := h.cap
    have hle : l.pc.hunting.toNat ≤ (s.worker w).pc.hunting.toNat := Bool.toNat_le_toNat hh
    unfold St.hunters at *
    omega

lemma Hunt.worker {cfg : Config n} (hn : 2 ≤ n) (h : Hunt s) (hpush : (s.worker w).pc.pushes)
    {spurious : Bool} {r : Req n J (Worker n J)} (hr : (s.worker w).next cfg w = some r)
    (hs : serve cfg.cap spurious s.shared r = some (l, sh)) :
    Hunt ({ s with shared := sh }.setWorker w l) := by
  have hhunts := Worker.next_hunts hn hr hpush
  have hcounted := card_setWorker s w l sh Pc.counted
  have hhunters := card_setWorker s w l sh Pc.hunting
  have hcount := h.count
  have hcap := h.cap
  have hsub := Finset.card_le_card s.hunters_subset
  cases r
  case addSearching k =>
    obtain ⟨hout, hin⟩ := hhunts
    cases hs
    obtain ⟨hc, hh⟩ := hin s.shared.searching
    rw [hout, hc] at hcounted
    constructor
    · unfold St.counted at *
      simp only [St.setWorker, Bool.toNat_true, Bool.toNat_false] at hcounted ⊢
      omega
    · -- let in: less than half of the workers were counted
      by_cases hhunt : (k s.shared.searching).pc.hunting
      · have hlt := hh hhunt
        have hle := Bool.toNat_le (k s.shared.searching).pc.hunting
        unfold St.hunters at *
        omega
      · have hzero : (k s.shared.searching).pc.hunting = false := by simpa using hhunt
        rw [hzero] at hhunters
        simp only [Bool.toNat_false] at hhunters
        unfold St.hunters at *
        omega
  case subSearching k =>
    obtain ⟨hin, hout⟩ := hhunts
    cases hs
    have hnot : l.pc.hunting = false := by
      by_contra hh
      rw [Pc.counted_of_hunting (by simpa using hh)] at hout
      cases hout
    rw [hin, hout] at hcounted
    rw [hnot] at hhunters
    constructor
    · unfold St.counted at *
      simp only [St.setWorker, Bool.toNat_true, Bool.toNat_false] at hcounted ⊢
      omega
    · unfold St.hunters at *
      simp only [Bool.toNat_false] at hhunters
      omega
  all_goals
    obtain ⟨hc, hh⟩ := ((Req.hunts_iff rfl).mp hhunts).serve hs
    exact h.setWorker (serve_searching rfl hs) hc hh

end

variable [DecidableEq J] [DecidableEq C] [Fintype C] {cfg : Config n}

lemma hunt (hn : 2 ≤ n) {ok : Cmd n J C → St n J C → Prop} {tr : List Empty} {s : St n J C}
    (h : (ltsWhen cfg ok).Reaches tr s) : Hunt s := by
  refine invariant Hunt ?_ ?_ h
  · constructor
    · simp [init, Shared.init, St.counted, Worker.init, Pc.counted, Pc.hunting, Pc.stealing]
    · simp [init, St.hunters, Worker.init, Pc.hunting, Pc.stealing]
  · intro _ cmd s s' hreach hs _ _ ht
    cases ht with
    | @run w hq =>
      have hw := homes hreach w
      rw [if_pos hq] at hw
      exact hs.setWorker rfl (by rw [hw.1]; rfl) (fun h => by cases h)
    | refused => exact hs
    | worker hr hserve => exact hs.worker hn ((idle hreach).idle _).pushes hr hserve
    | @jobCall w op wakes hpc hj =>
      have hacc : Hunt { s with accepted := s.accepted ++ op.job?.toList } := ⟨hs.count, hs.cap⟩
      exact hacc.setWorker rfl (by simp only [hpc]; rfl) (fun h => by cases h)
    | @jobDone w wakes hpc =>
      exact hs.setWorker rfl (by rw [hpc]; rfl) (fun h => by cases h)
    | call => exact ⟨hs.count, hs.cap⟩
    | caller hr hserve =>
      exact ⟨(serve_searching (Call.next_uncounted hr) hserve).trans hs.count, hs.cap⟩
    | drop hw hc => exact ⟨hs.count, hs.cap⟩

/-- **The hunt is capped at half of the pool.** In every run of a pool of two or more workers,
at most half of them, rounded up, are in a `steal_once` of the hunt for work at any time, and
`searching` counts those between the `fetch_add` and its `fetch_sub`, so that no `fetch_sub`
finds it at zero. The last look of `prepare_to_park` is outside the cap. -/
theorem hunters_capped (hn : 2 ≤ n) {tr : List Empty} {s : St n J C}
    (h : (lts cfg J C).Reaches tr s) :
    s.hunters.card ≤ (n + 1) / 2 ∧ s.shared.searching = s.counted.card ∧
      ∀ w k, (s.worker w).next cfg w = some (.subSearching k) → 0 < s.shared.searching := by
  have hs := hunt hn h
  refine ⟨hs.cap, hs.count, fun w k hr => ?_⟩
  obtain ⟨hin, -⟩ := Worker.next_hunts hn hr ((idle h).idle w).pushes
  rw [hs.count, Finset.card_pos]
  exact ⟨w, by simpa [St.counted] using hin⟩

/-- One worker is in the hunt, and the other is being turned away. -/
theorem hunters_capped_denied : ∃ s : St 2 (Fin 1) (Fin 1),
    s.hunters.card = 1 ∧ s.shared.searching = 2 ∧
      (s.hunters.card ≤ (2 + 1) / 2 ∧ s.shared.searching = s.counted.card ∧
        ∀ w k, (s.worker w).next twoWorkers w = some (.subSearching k) →
          0 < s.shared.searching) := by
  obtain ⟨tr, s, hr, hv⟩ := exists_reaches (J := Fin 1) (C := Fin 1) twoWorkers
    (fun _ _ => True) [(1, .run 0), (9, .worker 0 false), (1, .run 1), (9, .worker 1 false)]
    (fun s => (s.hunters.card, s.shared.searching)) (v := (1, 2)) (by decide)
  obtain ⟨hh, hs⟩ := Prod.mk.inj hv
  exact ⟨s, hh, hs, hunters_capped (by decide) hr⟩

/-- Both workers take their last look before they park at the same time: the cap does not hold
for `steal_once` as such. -/
theorem stealers_not_capped : ¬ ∀ (n : ℕ) (cfg : Config n), 2 ≤ n → ∀ (tr : List Empty)
    (s : St n (Fin 1) (Fin 1)), (lts cfg (Fin 1) (Fin 1)).Reaches tr s →
      s.stealers.card ≤ (n + 1) / 2 := by
  intro h
  obtain ⟨tr, s, hr, hv⟩ := exists_reaches (J := Fin 1) (C := Fin 1) twoWorkers
    (fun _ _ => True) [(1, .run 0), (30, .worker 0 false), (1, .run 1), (30, .worker 1 false)]
    (fun s => s.stealers.card) (v := 2) (by decide)
  have hcap := h 2 twoWorkers (by decide) tr s hr
  omega

end St3.Pool
