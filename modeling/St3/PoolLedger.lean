import St3.PoolSteal
import St3.Sums
import Mathlib.Algebra.BigOperators.Fin
import Mathlib.Algebra.BigOperators.Group.Finset.Basic

/-!
The ledger of the pool: every job it was given is in one place, or was handled, once.
-/

namespace St3.Pool

variable {n : ℕ} {J C L L' : Type*}

/-! ### Where a job can be -/

/-- The jobs in the hands of a thread in a call. -/
def Call.hands : Call n J → List J
  | .push _ j => [j]
  | .replace _ j => [j]
  | .inboxEmpty _ d => [d]
  | .overflow _ d => [d]
  | .displace _ d => [d]
  | _ => []

def After.hands : After J → List J
  | .begin j => [j]
  | _ => []

/-- The jobs in the hands of a worker, besides its private queue. -/
def Pc.hands : Pc n J → List J
  | .begin j => [j]
  | .run call _ => call.hands
  | .capPush j _ => [j]
  | .nudge _ after => after.hands
  | .promote j => [j]
  | .share after => after.hands
  | .sharePop _ _ after => after.hands
  | .sharePush j _ _ after => j :: after.hands
  | .stealPush _ j => [j]
  | .stealCall _ call => call.hands
  | .append _ _ js => js
  | _ => []

section
variable [DecidableEq J]

/-- How often a worker has job `j`. -/
def Worker.count (l : Worker n J) (j : J) : ℕ := l.mine.count j + l.pc.hands.count j

/-- How often job `j` is in the containers, or was handled. -/
def Shared.count (s : Shared n J) (j : J) : ℕ :=
  s.injector.count j + ∑ w, (s.slot w).toList.count j + ∑ w, (s.inbox w).count j +
    ∑ w, ((s.deque w).lent.count j + (s.deque w).stored.count j) +
      (s.handled.map Prod.fst).count j

/-- In how many places job `j` is: the injector, a slot, an inbox, a private queue, a sharing
deque, the hands of a thread, or the list of jobs that were handled. -/
def St.count [Fintype C] (s : St n J C) (j : J) : ℕ :=
  s.shared.count j + ∑ w, (s.worker w).count j + ∑ c, (s.caller c).hands.count j

/-! ### What an access moves -/

/-- What a thread has of job `j` before and after an access differs by what the access moves. -/
def Req.Moves (j : J) (before : ℕ) (after : L → ℕ) : Req n J L → Prop
  | .load k => ∀ s, after (k s) = before
  | .takeSlot _ k | .popInbox _ k | .popInjector _ k | .popDeque _ k =>
    (∀ i, after (k (some i)) = [i].count j + before) ∧ after (k none) = before
  | .replaceSlot _ i k =>
    (∀ d, after (k (some d)) + [i].count j = [d].count j + before) ∧
      after (k none) + [i].count j = before
  | .pushInbox _ i k | .pushInjector i k | .handle _ i k => after k + [i].count j = before
  | .pushDeque _ i k => after (k true) + [i].count j = before ∧ after (k false) = before
  | .book _ _ _ k => (∀ word, after (k (some word)) = before) ∧ after (k none) = before
  | .transfer _ k => ∀ js, after (k js) = js.count j + before
  | .append _ js k => after k + js.count j = before
  | .claim _ _ k | .putQueue _ k => after (k true) = before ∧ after (k false) = before
  | .addSearching k => ∀ m, after (k m) = before
  | .release _ k | .setBit _ k | .clearBit _ k | .unpark _ k | .park _ k | .stop k
  | .subSearching k | .complete _ k => after k = before

lemma Req.Moves.map {f : L → L'} {j : J} {before m : ℕ} {after : L → ℕ} {after' : L' → ℕ}
    {r : Req n J L} (h : r.Moves j before after) (hf : ∀ l, after' (f l) = m + after l) :
    (r.map f).Moves j (m + before) after' := by
  cases r <;> simp only [Req.Moves, Req.map, Function.comp, hf] at h ⊢ <;> grind

lemma Shared.count_setSlot (s : Shared n J) (w : Fin n) (o : Option J) (j : J) :
    (s.setSlot w o).count j + (s.slot w).toList.count j = s.count j + o.toList.count j := by
  have h := Sums.sum_fun_update (fun o : Option J => o.toList.count j) s.slot w o
  simp only [count, setSlot]
  omega

lemma Shared.count_setInbox (s : Shared n J) (w : Fin n) (js : List J) (j : J) :
    (s.setInbox w js).count j + (s.inbox w).count j = s.count j + js.count j := by
  have h := Sums.sum_fun_update (fun js : List J => js.count j) s.inbox w js
  simp only [count, setInbox]
  omega

lemma Shared.count_setDeque (s : Shared n J) (w : Fin n) (d : Sharing J) (j : J) :
    (s.setDeque w d).count j + ((s.deque w).lent.count j + (s.deque w).stored.count j) =
      s.count j + (d.lent.count j + d.stored.count j) := by
  have h := Sums.sum_fun_update (fun d : Sharing J => d.lent.count j + d.stored.count j) s.deque w d
  simp only [count, setDeque]
  omega

lemma count_head_tail (js : List J) (j : J) :
    js.head?.toList.count j + js.tail.count j = js.count j := by
  cases js with
  | nil => rfl
  | cons i rest => simp [List.count_cons, Nat.add_comm]

/-- **The rule of the ledger**: an access gives the thread what it takes out of the memory. -/
lemma Req.Moves.serve {r : Req n J L} {j : J} {before : ℕ} {after : L → ℕ}
    (h : r.Moves j before after) {cap : ℕ} {spurious : Bool} {s s' : Shared n J} {l : L}
    (hb : ∀ v word count k, r = .book v word count k → (s.deque v).word = word →
      (s.deque v).lent = [])
    (hs : serve cap spurious s r = some (l, s')) :
    after l + s'.count j = before + s.count j := by
  have opt : ∀ {k : Option J → L} {b : ℕ},
      (∀ i, after (k (some i)) = [i].count j + b) ∧ after (k none) = b →
      ∀ o, after (k o) = o.toList.count j + b :=
    fun h o => by cases o <;> [simpa using h.2; exact h.1 _]
  cases r <;> simp only [Pool.serve] at hs <;> simp only [Req.Moves] at h
  case takeSlot w k =>
    cases hs
    have h1 := opt h (s.slot w)
    have h2 := s.count_setSlot w none j
    simp only [Option.toList_none, List.count_nil] at h2
    omega
  case replaceSlot w i k =>
    cases hs
    have h2 := s.count_setSlot w (some i) j
    simp only [Option.toList_some] at h2
    cases ho : s.slot w with
    | none =>
      have := h.2
      rw [ho] at h2
      simp only [Option.toList_none, List.count_nil] at h2
      omega
    | some d =>
      have := h.1 d
      rw [ho] at h2
      simp only [Option.toList_some] at h2
      omega
  case pushInbox w i k =>
    cases hs
    have h2 := s.count_setInbox w (s.inbox w ++ [i]) j
    rw [List.count_append] at h2
    omega
  case popInbox w k =>
    cases hs
    have h1 := opt h (s.inbox w).head?
    have h2 := s.count_setInbox w (s.inbox w).tail j
    have h3 := count_head_tail (s.inbox w) j
    omega
  case pushInjector i k =>
    cases hs
    simp only [Shared.count, List.count_append] at h ⊢
    omega
  case popInjector w k =>
    cases hs
    have h1 := opt h s.injector.head?
    have h3 := count_head_tail s.injector j
    simp only [Shared.count, Shared.setOwed] at h1 ⊢
    omega
  case pushDeque w i k =>
    split at hs
    · cases hs
      have h2 := s.count_setDeque w ((s.deque w).push i) j
      simp only [Sharing.push, List.count_append] at h2
      have := h.1
      simp only [Sharing.push] at this ⊢
      omega
    · cases hs
      rw [h.2]
  case popDeque w k =>
    split at hs
    · rename_i i hi
      cases hs
      have h2 := s.count_setDeque w (s.deque w).pop j
      have h3 := congrArg (List.count j) (List.dropLast_append_getLast? i (by simpa using hi))
      rw [List.count_append] at h3
      have := h.1 i
      simp only [Sharing.pop] at h2 ⊢
      omega
    · cases hs
      rw [h.2]
  case book v word count k =>
    split at hs
    · rename_i hcas
      cases hs
      have hlent := hb v word count k rfl hcas.2
      have h2 := s.count_setDeque v ((s.deque v).book count) j
      have h3 := congrArg (List.count j) (List.take_append_drop count (s.deque v).stored)
      rw [List.count_append] at h3
      simp only [Sharing.book, hlent, List.count_nil] at h2
      have := h.2
      simp only [Sharing.book]
      omega
    · cases hs
      rw [h.1]
  case transfer v k =>
    cases hs
    have h2 := s.count_setDeque v { s.deque v with lent := [] } j
    have := h (s.deque v).lent
    simp only [List.count_nil] at h2
    omega
  case append w js k =>
    cases hs
    have h2 := s.count_setDeque w { s.deque w with stored := (s.deque w).stored ++ js } j
    simp only [List.count_append] at h2
    omega
  case release v k =>
    cases hs
    have h2 := s.count_setDeque v { s.deque v with held := 0 } j
    simp only at h2
    omega
  case handle w i k =>
    cases hs
    simp only [Shared.count, Shared.setOwed, List.map_append, List.map_cons, List.map_nil,
      List.count_append]
    omega
  case claim w note k =>
    cases hs
    have hk : ∀ b, after (k b) = before := fun b => by cases b <;> [exact h.2; exact h.1]
    rw [hk]
    split <;> rfl
  case putQueue w k => split at hs <;> cases hs <;> [rw [h.2]; (rw [h.1]; rfl)]
  case park w k =>
    split at hs <;> (try split at hs) <;> cases hs <;> exact congrArg (· + s.count j) h
  case load k => cases hs; rw [h]
  case addSearching k => cases hs; rw [h]; rfl
  all_goals cases hs; rw [h]; rfl

/-! ### What each thread moves -/

omit [DecidableEq J] in
@[simp] lemma Call.hands_ofNotify (p : Notify n) : (Call.ofNotify p : Call n J).hands = [] := by
  cases p <;> rfl

lemma Notify.next_moves {p : Notify n} {r : Req n J (Notify n)} (h : p.next = some r) (j : J) :
    r.Moves j 0 fun _ => 0 := by
  cases p <;> simp only [next, Option.some.injEq, reduceCtorEq] at h <;> subst h <;>
    simp [Req.Moves]

lemma Call.next_moves {cfg : Config n} {c : Call n J} {r : Req n J (Call n J)}
    (h : c.next cfg = some r) (j : J) : r.Moves j (c.hands.count j) fun c => c.hands.count j := by
  cases c with
  | notify p =>
    simp only [next, Option.map_eq_some_iff] at h
    obtain ⟨r, hr, rfl⟩ := h
    exact (Notify.next_moves hr j).map (m := 0) (by simp)
  | idle => cases h
  | _ =>
    simp only [next, Option.some.injEq] at h
    subst h
    unfold Req.Moves
    grind [hands, published]

lemma Worker.count_goto (l : Worker n J) (pc : Pc n J) (j : J) :
    (l.goto pc).count j = l.mine.count j + pc.hands.count j := rfl

lemma Worker.count_resume (t : Tuning) (l : Worker n J) (a : After J) (j : J) :
    (l.resume t a).count j = l.mine.count j + a.hands.count j := by
  unfold resume count goto
  cases a with
  | took boundary taken => cases boundary <;> (try (dsimp only; split)) <;> rfl
  | stole prep got => cases prep <;> (try (dsimp only; split)) <;> rfl
  | _ => rfl

/-- The newest job of the private queue is taken. -/
lemma Worker.count_popMine (t : Tuning) (l : Worker n J) (j : J) :
    (l.popMine t).count j = l.mine.count j := by
  unfold popMine count goto
  split
  · rename_i i hi
    have h := congrArg (List.count j) (List.dropLast_append_getLast? i (by simpa using hi))
    rw [List.count_append] at h
    dsimp only
    split <;> simpa [Pc.hands] using h
  · split <;> rfl

attribute [local grind =] Worker.count_resume Worker.count_popMine Worker.count_goto
attribute [local grind] Worker.count Pc.hands After.hands Call.hands Worker.found Worker.again

lemma Worker.next_moves {cfg : Config n} {w : Fin n} {l : Worker n J} {r : Req n J (Worker n J)}
    (h : l.next cfg w = some r) (j : J) : r.Moves j (l.count j) fun l => l.count j := by
  obtain ⟨mine, u, sp, rng, lr, e, pc⟩ := l
  cases pc
  case run c wakes =>
    simp only [next, Option.map_eq_some_iff] at h
    obtain ⟨r, hr, rfl⟩ := h
    exact (Call.next_moves hr j).map fun c => rfl
  case nudge p after =>
    simp only [next] at h
    split at h <;> cases h
    · exact fun _ => count_resume _ _ _ _
    · exact (Notify.next_moves ‹_› j).map (m := count _ j) fun _ => rfl
  case stealCall prep c =>
    simp only [next] at h
    split at h
    · rename_i hc
      cases h
      have hnone : c.hands = [] := by
        cases c with
        | notify p => cases p <;> rfl
        | idle => rfl
        | _ => cases hc
      intro s
      show (resume _ _ _).count j = _
      rw [count_resume]
      simp [count, Pc.hands, After.hands, hnone]
    · cases h
      exact (Call.next_moves ‹_› j).map fun _ => rfl
  case sharePop left shared after =>
    simp only [next, Option.some.injEq] at h
    subst h
    intro s
    split <;> grind
  case exit =>
    simp only [next] at h
    split at h <;> cases h <;> simp only [Req.Moves] <;> grind
  all_goals simp only [next, Option.some.injEq, reduceCtorEq] at h
  all_goals try subst h
  all_goals try simp only [Req.Moves]
  all_goals grind

end

/-! ### Runs of a worker -/

/-- No thread is in `Pool::run` for this worker, or one has left it in a panic. -/
def Pc.gone : Pc n J → Bool
  | .out => true
  | .panicked => true
  | _ => false

def Req.puts : Req n J L → Bool
  | .putQueue .. => true
  | _ => false

lemma Req.puts_map (f : L → L') (r : Req n J L) : (r.map f).puts = r.puts := by
  cases r <;> rfl

lemma serve_puts {r : Req n J L} (hr : r.puts = false) {cap : ℕ} {spurious : Bool}
    {s s' : Shared n J} {l : L} (hs : serve cap spurious s r = some (l, s')) :
    s'.queue = s.queue := by
  cases r <;> simp only [serve] at hs
  case putQueue => cases hr
  case popDeque | pushDeque | book => split at hs <;> cases hs <;> rfl
  case park => split at hs <;> (try split at hs) <;> cases hs <;> rfl
  case claim => cases hs; split <;> rfl
  all_goals cases hs; rfl

lemma Notify.next_puts {p : Notify n} {r : Req n J (Notify n)} (h : p.next = some r) :
    r.puts = false := by
  cases p <;> simp only [next, Option.some.injEq, reduceCtorEq] at h <;> subst h <;> rfl

lemma Call.next_puts {cfg : Config n} {c : Call n J} {r : Req n J (Call n J)}
    (h : c.next cfg = some r) : r.puts = false := by
  cases c with
  | notify p =>
    simp only [next, Option.map_eq_some_iff] at h
    obtain ⟨r, hr, rfl⟩ := h
    rw [Req.puts_map, Notify.next_puts hr]
  | idle => cases h
  | _ =>
    simp only [next, Option.some.injEq] at h
    subst h
    rfl

lemma Worker.resume_gone (t : Tuning) (l : Worker n J) (a : After J) :
    (l.resume t a).pc.gone = false := by
  unfold resume goto
  split <;> (try split) <;> rfl

lemma Worker.popMine_gone (t : Tuning) (l : Worker n J) : (l.popMine t).pc.gone = false := by
  unfold popMine goto
  split
  · dsimp only
    split <;> rfl
  · split <;> rfl

attribute [local grind =] Req.All Req.puts Worker.goto Worker.found Worker.again
attribute [local grind] Pc.gone

/-- A worker leaves `Pool::run` with an empty private queue only. -/
lemma Worker.next_gone {cfg : Config n} {w : Fin n} {l : Worker n J} {r : Req n J (Worker n J)}
    (h : l.next cfg w = some r) (hpc : l.pc = .exit → l.mine ≠ []) :
    r.puts = false ∧ r.All fun l => l.pc.gone = false := by
  obtain ⟨mine, u, sp, rng, lr, e, pc⟩ := l
  cases pc
  case run c wakes =>
    simp only [next, Option.map_eq_some_iff] at h
    obtain ⟨r, hr, rfl⟩ := h
    rw [Req.puts_map]
    exact ⟨Call.next_puts hr, (Req.all_of_forall (fun _ => rfl) r).map⟩
  case nudge p after =>
    simp only [next] at h
    split at h <;> cases h
    · exact ⟨rfl, fun _ => resume_gone _ _ _⟩
    · rw [Req.puts_map]
      exact ⟨Notify.next_puts ‹_›, (Req.all_of_forall (fun _ => rfl) _).map⟩
  case stealCall prep c =>
    simp only [next] at h
    split at h <;> cases h
    · exact ⟨rfl, fun _ => resume_gone _ _ _⟩
    · rw [Req.puts_map]
      exact ⟨Call.next_puts ‹_›, (Req.all_of_forall (fun _ => rfl) _).map⟩
  case exit =>
    simp only [next] at h
    split at h
    · cases h
      exact ⟨rfl, rfl⟩
    · exact absurd rfl (hpc rfl)
  all_goals simp only [next, Option.some.injEq, reduceCtorEq] at h
  all_goals try subst h
  all_goals grind [resume_gone, popMine_gone]

/-- A worker that no thread runs has its deque in place and nothing in its hands; another one
has taken its deque. -/
def Homes (s : St n J C) : Prop :=
  ∀ w, if s.shared.queue w then (s.worker w).pc = .out ∧ (s.worker w).mine = []
    else (s.worker w).pc.gone = false

section
variable [DecidableEq C] {cfg : Config n} {s : St n J C} {w : Fin n} {l : Worker n J}
  {sh : Shared n J}

omit [DecidableEq C] in
lemma Homes.setWorker (h : Homes s) (hq : ∀ u, u ≠ w → sh.queue u = s.shared.queue u)
    (hw : if sh.queue w then l.pc = .out ∧ l.mine = [] else l.pc.gone = false) :
    Homes ({ s with shared := sh }.setWorker w l) := by
  intro u
  by_cases hu : u = w
  · subst hu
    simpa [St.setWorker] using hw
  · simpa [St.setWorker, hu, hq u hu] using h u

omit [DecidableEq C] in
/-- A worker that makes a step is being run. -/
lemma Homes.of_next (h : Homes s) {r : Req n J (Worker n J)}
    (hr : (s.worker w).next cfg w = some r) : s.shared.queue w = false := by
  by_contra hq
  have hw := h w
  rw [if_pos (by simpa using hq)] at hw
  simp only [Worker.next, hw.1, reduceCtorEq] at hr

omit [DecidableEq C] in
lemma Homes.worker (h : Homes s) {spurious : Bool} {r : Req n J (Worker n J)}
    (hr : (s.worker w).next cfg w = some r)
    (hs : serve cfg.cap spurious s.shared r = some (l, sh)) :
    Homes ({ s with shared := sh }.setWorker w l) := by
  have hq := h.of_next hr
  by_cases hexit : (s.worker w).pc = .exit ∧ (s.worker w).mine = []
  · obtain ⟨hpc, hmine⟩ := hexit
    simp only [Worker.next, hpc, hmine, Option.some.injEq] at hr
    subst hr
    simp only [serve, hq, Bool.false_eq_true, if_false] at hs
    cases hs
    refine h.setWorker (fun u hu => by simp [hu]) ?_
    simp [Worker.goto, hmine]
  · obtain ⟨hputs, hall⟩ := Worker.next_gone hr fun hpc hmine => hexit ⟨hpc, hmine⟩
    have hqueue := serve_puts hputs hs
    refine h.setWorker (fun u _ => by rw [hqueue]) ?_
    rw [hqueue, hq, if_neg (by simp)]
    exact hall.serve hs

end

theorem homes [DecidableEq J] [DecidableEq C] [Fintype C] {cfg : Config n}
    {ok : Cmd n J C → St n J C → Prop} {tr : List Empty} {s : St n J C}
    (h : (ltsWhen cfg ok).Reaches tr s) : Homes s := by
  refine invariant Homes ?_ ?_ h
  · exact fun w => by simp [init, Shared.init, Worker.init]
  · intro _ cmd s s' _ hs _ _ ht
    cases ht with
    | run hq =>
      refine hs.setWorker (fun u hu => by simp [Shared.takeQueue, hu]) ?_
      simp [Shared.takeQueue, Worker.start, Pc.gone]
    | refused => exact hs
    | worker hr hserve => exact hs.worker hr hserve
    | @jobCall w op wakes hpc =>
      have hacc : Homes { s with accepted := s.accepted ++ op.job?.toList } := hs
      have hw := hs w
      rw [hpc] at hw
      have hq : s.shared.queue w = false := by
        by_contra hq
        simp [hq] at hw
      refine hacc.setWorker (fun u _ => rfl) ?_
      simp [hq, Worker.goto, Pc.gone]
    | @jobDone w wakes hpc =>
      have hw := hs w
      rw [hpc] at hw
      have hq : s.shared.queue w = false := by
        by_contra hq
        simp [hq] at hw
      refine hs.setWorker (fun u _ => rfl) ?_
      simp [hq, Worker.goto, Pc.gone]
    | call => exact hs
    | caller hr hserve =>
      have hqueue := serve_puts (Call.next_puts hr) hserve
      intro w
      simpa only [St.setCaller, hqueue] using hs w
    | drop hw hc => exact hs

/-! ### The ledger -/

section
variable [DecidableEq J] [DecidableEq C] [Fintype C] {cfg : Config n}

/-- Every job the pool was given is in one place; until the pool is dropped, only `Act::run`
is done to jobs. -/
structure Ledger (s : St n J C) : Prop where
  nodup : s.accepted.Nodup
  count : ∀ j, s.count j = s.accepted.count j
  run : s.dropped = false → ∀ e ∈ s.shared.handled, e.2 = .run

omit [DecidableEq J] [Fintype C] [DecidableEq C] in
/-- Only a deque whose booking has come to an end is booked. -/
lemma Thieves.lent_of_book {s : St n J C} (h : Thieves cfg s) {w : Fin n}
    {r : Req n J (Worker n J)} (hr : (s.worker w).next cfg w = some r) :
    ∀ v word count k, r = .book v word count k → (s.shared.deque v).word = word →
      (s.shared.deque v).lent = [] := by
  rintro v word count k rfl hword
  have hrob := h.robbing w
  cases hpc : (s.worker w).pc
  case stealBook p free word' oldHead count' =>
    rw [hpc] at hrob
    obtain ⟨⟨h1, h2⟩, -⟩ := hrob
    simp only [Worker.next, hpc, Option.some.injEq, Req.book.injEq] at hr
    obtain ⟨rfl, rfl, -, -⟩ := hr
    have hok := h.deque (cfg.victim p)
    refine hok.lent ?_
    have h3 := congrArg Prod.snd hword
    have h4 := hok.held
    simp only [Sharing.word, Sharing.head] at h2 h3
    omega
  case stealHead | stealCount | transfer | append | release =>
    simp [Worker.next, hpc] at hr
  all_goals exact (Worker.next_plain hr (by rw [hpc]; rfl) (by simp [hpc])).1.elim

omit [DecidableEq C] in
lemma St.count_setWorker (s : St n J C) (w : Fin n) (l : Worker n J) (sh : Shared n J) (j : J) :
    ({ s with shared := sh }.setWorker w l).count j + s.shared.count j + (s.worker w).count j =
      s.count j + sh.count j + l.count j := by
  have h := Sums.sum_fun_update (fun l : Worker n J => l.count j) s.worker w l
  simp only [count, setWorker]
  omega

lemma St.count_setCaller (s : St n J C) (c : C) (p : Call n J) (sh : Shared n J) (j : J) :
    ({ s with shared := sh }.setCaller c p).count j + s.shared.count j +
        (s.caller c).hands.count j = s.count j + sh.count j + p.hands.count j := by
  have h := Sums.sum_fun_update (fun p : Call n J => p.hands.count j) s.caller c p
  simp only [count, setCaller]
  omega

omit [DecidableEq J] [DecidableEq C] [Fintype C] in
/-- Accesses call handles with `Act::run` only. -/
lemma serve_run {r : Req n J L} {cap : ℕ} {spurious : Bool} {s s' : Shared n J} {l : L}
    (hs : serve cap spurious s r = some (l, s')) (h : ∀ e ∈ s.handled, e.2 = .run) :
    ∀ e ∈ s'.handled, e.2 = .run := by
  cases r <;> simp only [serve] at hs
  case handle =>
    cases hs
    intro e he
    rcases List.mem_append.mp he with hold | hnew
    · exact h e hold
    · simp only [List.mem_singleton] at hnew
      rw [hnew]
  case popDeque | pushDeque | book | putQueue => split at hs <;> cases hs <;> exact h
  case park => split at hs <;> (try split at hs) <;> cases hs <;> exact h
  case claim => cases hs; split <;> exact h
  all_goals cases hs; exact h

omit [DecidableEq C] [Fintype C] in
lemma count_start (t : Tuning) (op : Op n J) (j : J) :
    (Call.start t op).hands.count j = op.job?.toList.count j := by
  cases op with
  | submitLocal w i => cases h : t.localWakes <;> simp [Call.start, h, Call.hands, Op.job?]
  | _ => rfl

omit [DecidableEq J] [DecidableEq C] [Fintype C] in
lemma nodup_accept {l : List J} (h : l.Nodup) {o : Option J} (ho : ∀ j ∈ o, j ∉ l) :
    (l ++ o.toList).Nodup := by
  cases o with
  | none => simpa using h
  | some j =>
    refine List.nodup_append.mpr ⟨h, by simp, fun a ha b hb => ?_⟩
    simp only [Option.toList_some, List.mem_singleton] at hb
    subst hb
    rintro rfl
    exact ho a rfl ha

omit [DecidableEq C] [Fintype C] in
lemma Shared.count_leftover (s : Shared n J) (j : J) :
    s.leftover.count j + (s.handled.map Prod.fst).count j = s.count j := by
  have hsum : ∀ f : Fin n → List J,
      ((List.finRange n).flatMap f).count j = ∑ w, (f w).count j := by
    intro f
    rw [List.count_flatMap, Fin.sum_univ_def]
    rfl
  simp only [leftover, count, List.count_append, hsum, Finset.sum_add_distrib]
  omega

omit [DecidableEq C] [Fintype C] in
lemma Shared.count_drop (s : Shared n J) (j : J) : s.drop.count j = s.count j := by
  have hfst : s.leftover.map (Prod.fst ∘ fun i => (i, Act.drop)) = s.leftover := by
    simp [Function.comp_def]
  rw [← count_leftover s]
  simp [count, drop, hfst, Nat.add_comm]

omit [DecidableEq C] in
lemma Ledger.worker {s : St n J C} (h : Ledger s) (ht : Thieves cfg s) (hd : s.dropped = false)
    {w : Fin n} {spurious : Bool} {r : Req n J (Worker n J)} {l : Worker n J} {sh : Shared n J}
    (hr : (s.worker w).next cfg w = some r)
    (hs : serve cfg.cap spurious s.shared r = some (l, sh)) :
    Ledger ({ s with shared := sh }.setWorker w l) where
  nodup := h.nodup
  count j := by
    have hmove := (Worker.next_moves hr j).serve (ht.lent_of_book hr) hs
    have htotal := s.count_setWorker w l sh j
    have hold := h.count j
    simp only [St.setWorker] at htotal ⊢
    omega
  run _ := serve_run hs (h.run hd)

lemma Ledger.caller {s : St n J C} (h : Ledger s) (hd : s.dropped = false) {c : C}
    {spurious : Bool} {r : Req n J (Call n J)} {p : Call n J} {sh : Shared n J}
    (hr : (s.caller c).next cfg = some r)
    (hs : serve cfg.cap spurious s.shared r = some (p, sh)) :
    Ledger ({ s with shared := sh }.setCaller c p) where
  nodup := h.nodup
  count j := by
    have hbook : ∀ v word count k, r = .book v word count k → (s.shared.deque v).word = word →
        (s.shared.deque v).lent = [] := by
      rintro v word count k rfl
      exact (Call.next_quiet hr).elim
    have hmove := (Call.next_moves hr j).serve hbook hs
    have htotal := s.count_setCaller c p sh j
    have hold := h.count j
    simp only [St.setCaller] at htotal ⊢
    omega
  run _ := serve_run hs (h.run hd)

omit [DecidableEq C] in
/-- A worker that stays where it has nothing in its hands. -/
lemma Ledger.setWorker {s : St n J C} (h : Ledger s) {w : Fin n} {l : Worker n J}
    {sh : Shared n J} (hc : ∀ j, sh.count j = s.shared.count j)
    (hh : sh.handled = s.shared.handled) (hl : ∀ j, l.count j = (s.worker w).count j) :
    Ledger ({ s with shared := sh }.setWorker w l) where
  nodup := h.nodup
  count j := by
    have htotal := s.count_setWorker w l sh j
    have hold := h.count j
    have := hc j
    have := hl j
    simp only [St.setWorker] at htotal ⊢
    omega
  run hd := hh ▸ h.run hd

omit [DecidableEq C] in
/-- A thread that is handed a job. -/
lemma Ledger.accept {s s' : St n J C} (h : Ledger s) {o : Option J} (ho : ∀ j ∈ o, j ∉ s.accepted)
    (ha : s'.accepted = s.accepted ++ o.toList)
    (hc : ∀ j, s'.count j = s.count j + o.toList.count j)
    (hh : s'.shared.handled = s.shared.handled) (hd : s'.dropped = s.dropped) : Ledger s' where
  nodup := ha ▸ nodup_accept h.nodup ho
  count j := by rw [hc, ha, h.count, List.count_append]
  run hd' := hh ▸ h.run (hd ▸ hd')

/-- **The ledger of the pool**, in every run. -/
theorem ledger {ok : Cmd n J C → St n J C → Prop} {tr : List Empty} {s : St n J C}
    (h : (ltsWhen cfg ok).Reaches tr s) : Ledger s := by
  refine invariant Ledger ?_ ?_ h
  · refine ⟨by simp [init], fun j => ?_, by simp [init, Shared.init]⟩
    simp [St.count, Shared.count, init, Shared.init, Sharing.new, Worker.init, Worker.count,
      Pc.hands, Call.hands]
  · intro _ cmd s s' hreach hs _ hd ht
    cases ht with
    | @run w hq =>
      have hw := homes hreach w
      rw [if_pos hq] at hw
      refine hs.setWorker (fun j => rfl) rfl fun j => ?_
      simp [Worker.count, Worker.start, hw.1, hw.2, Pc.hands]
    | refused => exact hs
    | worker hr hserve => exact hs.worker (thieves hreach) hd hr hserve
    | @jobCall w op wakes hpc hj =>
      refine hs.accept hj rfl (fun j => ?_) rfl rfl
      have hcount := count_start (n := n) cfg.tuning op j
      have hold : (s.worker w).count j = (s.worker w).mine.count j := by
        simp [Worker.count, hpc, Pc.hands, Call.hands]
      have htotal : (s.setWorker w _).count j + _ + _ = _ := s.count_setWorker w
        ((s.worker w).goto (.run (.start cfg.tuning op) (wakes + op.wakes))) s.shared j
      rw [Worker.count_goto, Pc.hands, hcount, hold] at htotal
      show (s.setWorker w _).count j = _
      omega
    | @jobDone w wakes hpc =>
      refine hs.setWorker (fun j => rfl) rfl fun j => ?_
      simp [Worker.count, Worker.goto, hpc, Pc.hands, Call.hands]
    | @call c op hc hj =>
      refine hs.accept hj rfl (fun j => ?_) rfl rfl
      have hcount := count_start (n := n) cfg.tuning op j
      have hold : (s.caller c).hands.count j = 0 := by simp [hc, Call.hands]
      have htotal : (s.setCaller c _).count j + _ + _ = _ :=
        s.count_setCaller c (.start cfg.tuning op) s.shared j
      rw [hcount, hold] at htotal
      show (s.setCaller c _).count j = _
      omega
    | caller hr hserve => exact hs.caller hd hr hserve
    | drop hw hc =>
      refine ⟨hs.nodup, fun j => ?_, by simp⟩
      have hold := hs.count j
      simp only [St.count, Shared.count_drop] at hold ⊢
      exact hold

omit [DecidableEq C] in
/-- Where every worker is out and every caller is idle, all jobs are in the containers. -/
lemma Homes.count_eq {s : St n J C} (h : Homes s) (hw : ∀ w, (s.worker w).pc.isOut)
    (hc : ∀ c, (s.caller c).isIdle) (j : J) : s.count j = s.shared.count j := by
  have hworker : ∀ w, (s.worker w).count j = 0 := by
    intro w
    have hout : (s.worker w).pc = .out := by
      have := hw w
      cases hpc : (s.worker w).pc <;> rw [hpc] at this <;> first | rfl | cases this
    have hhome := h w
    rw [hout] at hhome
    have hmine : (s.worker w).mine = [] := by
      split at hhome
      · exact hhome.2
      · cases hhome
    simp [Worker.count, hout, hmine, Pc.hands]
  have hcaller : ∀ c, (s.caller c).hands.count j = 0 := by
    intro c
    have := hc c
    cases hpc : s.caller c <;> rw [hpc] at this <;> first | rfl | cases this
  simp [St.count, hworker, hcaller]

omit [DecidableEq C] [Fintype C] in
/-- The drop of the pool leaves nothing in the containers. -/
lemma Shared.drop_count (s : Shared n J) (j : J) :
    s.drop.count j = (s.drop.handled.map Prod.fst).count j := by
  simp [count, drop]

/-- A pool that was dropped has no jobs left. -/
theorem emptied {ok : Cmd n J C → St n J C → Prop} {tr : List Empty} {s : St n J C}
    (h : (ltsWhen cfg ok).Reaches tr s) (hd : s.dropped = true) (j : J) :
    s.count j = (s.shared.handled.map Prod.fst).count j := by
  refine invariant (fun s => s.dropped = true →
    ∀ j, s.count j = (s.shared.handled.map Prod.fst).count j) ?_ ?_ h hd j
  · simp [init]
  · intro _ cmd s s' hreach _ _ hd ht hd'
    cases ht with
    | drop hw hc =>
      intro j
      have hold := homes hreach
      have hhome : Homes { s with shared := s.shared.drop, dropped := true } := fun w => hold w
      rw [hhome.count_eq hw hc, Shared.drop_count]
    | _ =>
      have hfalse : s.dropped = true := hd'
      rw [hd] at hfalse
      cases hfalse

end

end St3.Pool
