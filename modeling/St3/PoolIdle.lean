import St3.PoolSteal

/-!
A worker that goes to sleep has nothing of its own: its private queue and its deque are empty
from the look that found them empty on, until it finds a job elsewhere.
-/

namespace St3.Pool

variable {n : ℕ} {J C L L' : Type*}

/-- `steal_once` and `take_from_injector` find the private queue empty, except at the boundary. -/
def After.bare : After J → Bool
  | .took boundary taken => !boundary && decide (taken = 0)
  | .stole .. => true
  | _ => false

/-- Where the private queue is empty. -/
def Pc.bare : Pc n J → Bool
  | .popInbox | .popDeque | .search | .denySearching => true
  | .moveInbox moved => decide (moved = 0)
  | .steal _ | .stealNext _ | .stealInbox _ | .stealPush .. | .stealCall .. | .stealSpare _ => true
  | .stealWord .. | .stealHead .. | .stealCount .. | .stealBook .. => true
  | .transfer .. | .append .. | .release .. | .endSearching _ => true
  | .nudge _ after => after.bare
  | .pullInjector b taken => !b && decide (taken = 0)
  | .pullLen b taken => !b && decide (taken = 0)
  | .readySlot | .checkRunning | .announce | .checkInjector | .checkInbox | .checkSlot => true
  | .cancel | .recheckRunning | .park | .woken | .leave | .exit => true
  | _ => false

def After.dry : After J → Bool
  | .took boundary taken => !boundary && decide (taken = 0)
  | .stole _ got => decide (got = 0)
  | _ => false

/-- Where the worker's own deque is empty. -/
def Pc.dry : Pc n J → Bool
  | .search | .denySearching => true
  | .steal _ | .stealNext _ | .stealInbox _ | .stealPush .. | .stealSpare _ => true
  | .stealWord .. | .stealHead .. | .stealCount .. | .stealBook .. => true
  | .transfer .. | .append .. => true
  | .release _ _ got => decide (got = 0)
  | .endSearching got => decide (got = 0)
  | .nudge _ after => after.dry
  | .pullInjector b taken => !b && decide (taken = 0)
  | .pullLen b taken => !b && decide (taken = 0)
  | .readySlot | .checkRunning | .announce | .checkInjector | .checkInbox | .checkSlot => true
  | .recheckRunning | .park => true
  | _ => false

/-- A call of `Pool::push`. -/
def Call.pushes : Call n J → Bool
  | .idle | .push .. | .notify _ => true
  | _ => false

/-- The code that calls `share`. -/
def After.shares : After J → Bool
  | .begin _ | .refilled => true
  | _ => false

lemma After.not_bare {a : After J} (h : a.shares) : a.bare = false ∧ a.dry = false := by
  cases a <;> first | exact ⟨rfl, rfl⟩ | cases h

/-- `steal_once` hands a job back through `Pool::push`; `share` is called before a job and after
a refill. -/
def Pc.pushes : Pc n J → Bool
  | .stealCall _ call => call.pushes
  | .share after => after.shares
  | .sharePop _ _ after => after.shares
  | .sharePush _ _ _ after => after.shares
  | _ => true

/-- What a worker at rest has: nothing of its own. -/
structure Worker.Idle (l : Worker n J) : Prop where
  mine : l.pc.bare → l.mine = []
  pushes : l.pc.pushes

@[simp] lemma Worker.resume_mine (t : Tuning) (l : Worker n J) (a : After J) :
    (l.resume t a).mine = l.mine := by
  unfold resume goto
  split <;> (try split) <;> rfl

lemma Worker.resume_bare (t : Tuning) (l : Worker n J) (a : After J)
    (h : (l.resume t a).pc.bare) : a.bare := by
  unfold resume goto at h
  cases a with
  | took boundary taken =>
    cases boundary with
    | true => cases h
    | false =>
      dsimp only at h
      split_ifs at h with ht
      · cases h
      · simpa [After.bare] using ht
  | stole prep got => rfl
  | _ => cases h

lemma Worker.resume_dry (t : Tuning) (l : Worker n J) (a : After J)
    (h : (l.resume t a).pc.dry) : a.dry := by
  unfold resume goto at h
  cases a with
  | took boundary taken =>
    cases boundary with
    | true => cases h
    | false =>
      dsimp only at h
      split_ifs at h with ht
      · cases h
      · simpa [After.dry] using ht
  | stole prep got =>
    cases prep with
    | true =>
      dsimp only at h
      split_ifs at h with ht
      · cases h
      · simpa [After.dry] using ht
    | false => simpa [After.dry, Pc.dry] using h
  | _ => cases h

lemma Worker.resume_pushes (t : Tuning) (l : Worker n J) (a : After J) :
    (l.resume t a).pc.pushes := by
  unfold resume goto
  split <;> (try split) <;> rfl

lemma Worker.resume_idle {t : Tuning} {l : Worker n J} {a : After J} (h : a.bare → l.mine = []) :
    (l.resume t a).Idle :=
  ⟨fun hb => by rw [resume_mine]; exact h (resume_bare _ _ _ hb), resume_pushes _ _ _⟩

lemma Worker.popMine_idle (t : Tuning) (l : Worker n J) : (l.popMine t).Idle := by
  unfold popMine goto
  split
  · dsimp only
    split <;> exact ⟨(fun h => by cases h), rfl⟩
  · rename_i hmine
    have hnil : l.mine = [] := by simpa using hmine
    split <;> exact ⟨fun _ => hnil, rfl⟩

lemma Worker.popMine_dry (t : Tuning) (l : Worker n J) : (l.popMine t).pc.dry = false := by
  unfold popMine goto
  split
  · dsimp only
    split <;> rfl
  · split <;> rfl

lemma Call.next_pushes {cfg : Config n} {c : Call n J} {r : Req n J (Call n J)}
    (h : c.next cfg = some r) (hc : c.pushes) : r.All fun c => c.pushes := by
  cases c with
  | notify p =>
    simp only [next, Option.map_eq_some_iff] at h
    obtain ⟨r, -, rfl⟩ := h
    exact (Req.all_of_forall (fun p => by cases p <;> rfl) r).map
  | push hint j =>
    simp only [next, Option.some.injEq] at h
    subst h
    rfl
  | idle => cases h
  | _ => cases hc

attribute [local grind =] Req.All Worker.goto Worker.found Worker.again
attribute [local grind] Pc.bare Pc.dry Pc.pushes After.bare After.dry After.shares Call.pushes
attribute [local grind] Worker.Idle

lemma Worker.next_idle {cfg : Config n} {w : Fin n} {l : Worker n J} {r : Req n J (Worker n J)}
    (h : l.next cfg w = some r) (hl : l.Idle) : r.All Idle := by
  obtain ⟨mine, u, sp, rng, lr, e, pc⟩ := l
  obtain ⟨hmine, hpush⟩ := hl
  cases pc
  case run c wakes =>
    simp only [next, Option.map_eq_some_iff] at h
    obtain ⟨r, hr, rfl⟩ := h
    exact (Req.all_of_forall (fun _ => ⟨(fun h => by cases h), rfl⟩) r).map
  case nudge p after =>
    simp only [next] at h
    split at h <;> cases h
    · exact fun _ => resume_idle hmine
    · exact (Req.all_of_forall (fun _ => ⟨hmine, rfl⟩) _).map
  case stealCall prep c =>
    simp only [next] at h
    split at h <;> cases h
    · exact fun _ => resume_idle fun _ => hmine rfl
    · exact ((Call.next_pushes ‹_› hpush).mono fun _ hc => ⟨fun _ => hmine rfl, hc⟩).map
  all_goals simp only [next, Option.some.injEq, reduceCtorEq] at h
  all_goals try subst h
  case pullLen b taken =>
    intro s
    dsimp only
    split_ifs
    · exact ⟨hmine, rfl⟩
    · exact resume_idle hmine
  case share after =>
    intro s
    dsimp only
    split_ifs
    · exact resume_idle fun ha => by simp [(After.not_bare hpush).1] at ha
    · exact ⟨(fun h => by cases h), hpush⟩
  case sharePop left shared after =>
    have hnil : after.bare → mine = [] := fun ha => by simp [(After.not_bare hpush).1] at ha
    intro s
    dsimp only
    split
    · exact ⟨(fun h => by cases h), hpush⟩
    · split_ifs
      · exact ⟨hnil, rfl⟩
      · exact resume_idle hnil
  case popMine => exact fun _ => popMine_idle _ _
  case pullInjector | moveInbox => grind
  case endSearching | readySlot | exit => grind
  all_goals
    simp only [Req.All, goto]
    -- one goal for each answer and each way on from it
    repeat' first | intro _ | refine And.intro ?_ ?_ | split
    all_goals first
      | exact ⟨fun _ => hmine rfl, rfl⟩
      | exact ⟨fun h => absurd h Bool.false_ne_true, hpush⟩
      | exact resume_idle fun _ => hmine rfl

/-! ### The deque of a worker -/

/-- The deque that an access adds to. -/
def Req.feeds : Req n J L → Option (Fin n)
  | .pushDeque w _ _ => some w
  | .append w _ _ => some w
  | _ => none

@[simp] lemma Req.feeds_map (f : L → L') (r : Req n J L) : (r.map f).feeds = r.feeds := by
  cases r <;> rfl

lemma serve_stored {r : Req n J L} {w : Fin n} (hr : r.feeds ≠ some w) {cap : ℕ}
    {spurious : Bool} {s s' : Shared n J} {l : L} (hs : serve cap spurious s r = some (l, s'))
    (h : (s.deque w).stored = []) : (s'.deque w).stored = [] := by
  have hset : ∀ {v : Fin n} {d : Sharing J}, (w = v → d.stored = []) →
      ((s.setDeque v d).deque w).stored = [] := by
    intro v d hd
    by_cases hv : w = v
    · subst hv
      simpa [Shared.setDeque] using hd rfl
    · simpa [Shared.setDeque, hv] using h
  cases r <;> simp only [serve] at hs
  case pushDeque v j k =>
    split at hs <;> cases hs
    · exact hset fun hv => absurd (by rw [hv]; rfl) hr
    · exact h
  case append v js k =>
    cases hs
    exact hset fun hv => absurd (by rw [hv]; rfl) hr
  case popDeque v k =>
    split at hs <;> cases hs
    · exact hset fun hv => by simp [Sharing.pop, ← hv, h]
    · exact h
  case book v word count k =>
    split at hs <;> cases hs
    · exact hset fun hv => by simp [Sharing.book, ← hv, h]
    · exact h
  case transfer v k => cases hs; exact hset fun hv => by rw [← hv]; exact h
  case release v k => cases hs; exact hset fun hv => by rw [← hv]; exact h
  case park => split at hs <;> (try split at hs) <;> cases hs <;> exact h
  case claim => cases hs; split <;> exact h
  case putQueue => split at hs <;> cases hs <;> exact h
  all_goals cases hs; exact h

lemma Call.next_feeds {cfg : Config n} {c : Call n J} {r : Req n J (Call n J)}
    (h : c.next cfg = some r) : r.feeds = none := by
  cases c with
  | notify p =>
    simp only [next, Option.map_eq_some_iff] at h
    obtain ⟨r, hr, rfl⟩ := h
    rw [Req.feeds_map]
    cases p <;> simp only [Notify.next, Option.some.injEq, reduceCtorEq] at hr <;> subst hr <;> rfl
  | idle => cases h
  | _ =>
    simp only [next, Option.some.injEq] at h
    subst h
    rfl

lemma Notify.next_feeds {p : Notify n} {r : Req n J (Notify n)} (h : p.next = some r) :
    r.feeds = none := by
  cases p <;> simp only [next, Option.some.injEq, reduceCtorEq] at h <;> subst h <;> rfl

attribute [local grind =] Req.feeds

/-- A worker adds to its own deque only. -/
lemma Worker.next_feeds {cfg : Config n} {w : Fin n} {l : Worker n J} {r : Req n J (Worker n J)}
    (h : l.next cfg w = some r) {v : Fin n} (hv : r.feeds = some v) : v = w := by
  obtain ⟨mine, u, sp, rng, lr, e, pc⟩ := l
  cases pc
  case run c wakes =>
    simp only [next, Option.map_eq_some_iff] at h
    obtain ⟨r, hr, rfl⟩ := h
    simp [Call.next_feeds hr] at hv
  case nudge p after =>
    simp only [next] at h
    split at h <;> cases h
    · cases hv
    · simp [Notify.next_feeds ‹_›] at hv
  case stealCall prep c =>
    simp only [next] at h
    split at h <;> cases h
    · cases hv
    · simp [Call.next_feeds ‹_›] at hv
  all_goals simp only [next, Option.some.injEq, reduceCtorEq] at h
  all_goals try subst h
  all_goals grind

/-- Apart from the look at the own deque, and from the copies of stolen jobs, a worker comes to
a point where its deque is empty from another one, without adding to it. -/
lemma Worker.next_dry {cfg : Config n} {w : Fin n} {l : Worker n J} {r : Req n J (Worker n J)}
    (h : l.next cfg w = some r) (hpush : l.pc.pushes) (hpop : l.pc ≠ .popDeque)
    (happ : ∀ prep v js, l.pc ≠ .append prep v js) :
    r.All fun l' => l'.pc.dry → l.pc.dry ∧ r.feeds = none := by
  obtain ⟨mine, u, sp, rng, lr, e, pc⟩ := l
  cases pc
  case run c wakes =>
    simp only [next, Option.map_eq_some_iff] at h
    obtain ⟨r, hr, rfl⟩ := h
    exact (Req.all_of_forall (fun _ h => by cases h) r).map
  case nudge p after =>
    simp only [next] at h
    split at h <;> cases h
    · exact fun _ hd => ⟨resume_dry _ _ _ hd, rfl⟩
    · refine Req.All.map (Req.all_of_forall (fun _ hd => ⟨hd, ?_⟩) _)
      rw [Req.feeds_map, Notify.next_feeds ‹_›]
  case stealCall prep c =>
    simp only [next] at h
    split at h <;> cases h
    · exact fun _ hd => by cases resume_dry _ _ _ hd
    · exact (Req.all_of_forall (fun _ h => by cases h) _).map
  case popDeque => exact absurd rfl hpop
  case append prep v js => exact absurd rfl (happ prep v js)
  all_goals simp only [next, Option.some.injEq, reduceCtorEq] at h
  all_goals try subst h
  case pullLen b taken =>
    intro s
    dsimp only
    split_ifs
    · exact fun hd => ⟨hd, rfl⟩
    · exact fun hd => ⟨resume_dry _ _ _ hd, rfl⟩
  case share after =>
    intro s
    dsimp only
    split_ifs
    · exact fun hd => absurd (resume_dry _ _ _ hd) (by simp [(After.not_bare hpush).2])
    · exact fun hd => by cases hd
  case sharePop left shared after =>
    have hnot : ¬ after.dry := by simp [(After.not_bare hpush).2]
    intro s
    dsimp only
    split
    · exact fun hd => by cases hd
    · split_ifs
      · exact fun hd => absurd hd hnot
      · exact fun hd => absurd (resume_dry _ _ _ hd) hnot
  case stealPush prep j =>
    refine ⟨fun hd => ?_, fun hd => by cases hd⟩
    have hdry := resume_dry _ _ _ hd
    simp [After.dry] at hdry
  case release prep v got =>
    simp only [Req.All]
    split_ifs
    · exact fun hd => ⟨hd, rfl⟩
    · exact fun hd => ⟨resume_dry _ _ _ hd, rfl⟩
  case popMine => exact fun _ hd => by simp [popMine_dry] at hd
  case steal prep | stealNext p =>
    intro s
    dsimp only
    split_ifs
    all_goals first | exact fun hd => ⟨hd, rfl⟩ | exact fun hd => ⟨resume_dry _ _ _ hd, rfl⟩
  case pullInjector | moveInbox => grind
  case endSearching | readySlot | exit => grind
  all_goals
    simp only [Req.All, goto]
    -- one goal for each answer and each way on from it
    repeat' first | refine And.intro ?_ ?_ | split | intro _
    all_goals first
      | rfl
      | exact absurd ‹_› Bool.false_ne_true

/-- Every worker at rest has nothing of its own. -/
structure Idle (s : St n J C) : Prop where
  idle : ∀ w, (s.worker w).Idle
  dry : ∀ w, (s.worker w).pc.dry → (s.shared.deque w).stored = []

section
variable [DecidableEq C] {cfg : Config n} {s : St n J C} {w : Fin n} {l : Worker n J}
  {sh : Shared n J}

omit [DecidableEq C] in
lemma Idle.setWorker (h : Idle s) (hl : l.Idle) (hd : l.pc.dry → (sh.deque w).stored = [])
    (hs : ∀ u, u ≠ w → (s.shared.deque u).stored = [] → (sh.deque u).stored = []) :
    Idle ({ s with shared := sh }.setWorker w l) where
  idle u := by
    by_cases hu : u = w
    · subst hu
      simpa [St.setWorker] using hl
    · simpa [St.setWorker, hu] using h.idle u
  dry u := by
    by_cases hu : u = w
    · subst hu
      simpa [St.setWorker] using hd
    · simpa [St.setWorker, hu] using fun hdry => hs u hu (h.dry u hdry)

omit [DecidableEq C] in
lemma Idle.worker (h : Idle s) {spurious : Bool} {r : Req n J (Worker n J)}
    (hr : (s.worker w).next cfg w = some r)
    (hs : serve cfg.cap spurious s.shared r = some (l, sh)) :
    Idle ({ s with shared := sh }.setWorker w l) := by
  refine h.setWorker ((Worker.next_idle hr (h.idle w)).serve hs) (fun hl => ?_) fun u hu hnil =>
    serve_stored (fun hf => hu (Worker.next_feeds hr hf)) hs hnil
  have hold := h.dry w
  cases hpc : (s.worker w).pc
  case popDeque =>
    simp only [Worker.next, hpc, Option.some.injEq] at hr
    subst hr
    simp only [serve] at hs
    split at hs <;> cases hs
    · cases hl
    · exact List.getLast?_eq_none_iff.mp ‹_›
  case append prep v js =>
    rw [hpc] at hold
    simp only [Worker.next, hpc, Option.some.injEq] at hr
    subst hr
    cases hs
    have hjs : js = [] := by simpa [Worker.goto, Pc.dry] using hl
    simpa [Shared.setDeque, hjs] using hold rfl
  all_goals
    obtain ⟨hdry, hf⟩ :=
      (Worker.next_dry hr (h.idle w).pushes (by simp [hpc]) (by simp [hpc])).serve hs hl
    exact serve_stored (by simp [hf]) hs (hold hdry)

end

theorem idle [DecidableEq J] [DecidableEq C] [Fintype C] {cfg : Config n}
    {ok : Cmd n J C → St n J C → Prop} {tr : List Empty} {s : St n J C}
    (h : (ltsWhen cfg ok).Reaches tr s) : Idle s := by
  refine invariant Idle ?_ ?_ h
  · exact ⟨fun _ => ⟨fun _ => rfl, rfl⟩, fun _ h => by cases h⟩
  · intro _ cmd s s' _ hs _ _ ht
    cases ht with
    | run hq =>
      exact hs.setWorker ⟨(fun h => by cases h), rfl⟩ (fun h => by cases h) fun _ _ h => h
    | refused => exact hs
    | worker hr hserve => exact hs.worker hr hserve
    | @jobCall w op =>
      have hacc : Idle { s with accepted := s.accepted ++ op.job?.toList } := ⟨hs.idle, hs.dry⟩
      exact hacc.setWorker ⟨(fun h => by cases h), rfl⟩ (fun h => by cases h) fun _ _ h => h
    | jobDone =>
      exact hs.setWorker ⟨(fun h => by cases h), rfl⟩ (fun h => by cases h) fun _ _ h => h
    | call => exact ⟨hs.idle, hs.dry⟩
    | caller hr hserve =>
      exact ⟨hs.idle, fun w hd => serve_stored (by simp [Call.next_feeds hr]) hserve (hs.dry w hd)⟩
    | drop hw hc => exact ⟨hs.idle, fun w _ => rfl⟩

end St3.Pool
