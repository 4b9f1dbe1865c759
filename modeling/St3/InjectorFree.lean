import St3.InjectorSim

/-!
How the blocks of the injector are freed.

A block is freed by whoever finds that the destruction has passed all of its slots, so that it
is freed at all depends on somebody always being bound to carry the destruction on: the thread
that is at it, or the reader whose slot it was left at. The same is said of the other things
that a thread leaves half done, a parked index, a block that was not linked to its successor
yet, a ticket whose slot was not read.
-/

namespace St3.Injector

open Words Unbounded

variable {w : ℕ} {T A : Type*}

/-! ### What is left to be done -/

/-- Something that a thread has begun and has yet to finish. -/
inductive Duty
  /-- Showing the first block to the pops. -/
  | first
  | tail
  | head
  /-- Linking block `b` to its successor. -/
  | next (b : ℕ)
  | read (b i : ℕ)
  | sweep (b : ℕ)
  deriving DecidableEq

@[grind] def Pc.duties : Pc w T → List Duty
  | .pushStoreHead .. => [.first]
  | .pushStoreBlock .. => [.tail]
  | .pushStoreIndex .. => [.tail]
  | .pushStoreNext _ b _ => [.next b]
  | .popWaitNext _ b => [.head, .read b 30]
  | .popLoadNext _ b _ => [.head, .read b 30]
  | .popStoreBlock _ b _ => [.head, .read b 30]
  | .popStoreIndex _ b => [.head, .read b 30]
  | .popWaitWrite b i => [.read b i]
  | .popRead b i => [.read b i]
  | .popMark _ b i => [.read b i]
  | .destroyLoad _ b _ => [.sweep b]
  | .destroyOr _ b _ => [.sweep b]
  | _ => []

/-- The reader of slot `i` has left the block: it has said so, or begun to destroy it. -/
def Block.Done (d : Block T) (i : ℕ) : Prop :=
  i < 30 ∧ (d.slot i).read = true ∨ i = 30 ∧ d.sweep ≠ none

/-- The destruction was left to the reader of the slot it has come to. -/
def Block.Asked (d : Block T) : Prop :=
  ∃ j < 30, d.sweep = some j ∧ (d.slot j).destroy = true ∧ (d.slot j).read = false

/-- The destruction has begun, has not come to its end and was left to no reader. -/
structure Block.Doomed (d : Block T) : Prop where
  begun : d.sweep ≠ none
  here : d.freed = false
  free : ¬ d.Asked

/-- The memory shows that a duty was not done yet. -/
def Owed (s : St w T A) : Duty → Prop
  | .first => s.headBlock = none ∧ s.tailBlock ≠ none
  | .tail => s.tailPos % 32 = 31
  | .head => s.headPos % 32 = 31
  | .next b => 32 * b + 32 ≤ s.tailPos ∧ (s.block b).next = none
  | .read b i => i < 31 ∧ 31 * b + i < tick s.headPos ∧ ¬ (s.block b).Done i
  | .sweep b => (s.block b).Doomed

/-- The block whose successor the thread has seen, while it still has to read its last slot. -/
@[grind] def Pc.seen : Pc w T → Option ℕ
  | .popLoadNext _ b _ => some b
  | .popStoreBlock _ b _ => some b
  | .popStoreIndex _ b => some b
  | .popWaitWrite b i => if i = 30 then some b else none
  | .popRead b i => if i = 30 then some b else none
  | _ => none

/-- Every duty is some thread's, and no block is destroyed before it has a successor. -/
structure Kept (s : St w T A) : Prop where
  duty : ∀ e, Owed s e → ∃ t, e ∈ (s.thread t).duties
  seen : ∀ t b, (s.thread t).seen = some b → (s.block b).next ≠ none
  sweep : ∀ b, (s.block b).sweep ≠ none → (s.block b).next ≠ none

lemma kept_init : Kept (init : St w T A) where
  duty := by
    intro e he
    cases e with
    | first => exact absurd rfl he.2
    | tail => simp [Owed, init] at he
    | head => simp [Owed, init] at he
    | next b => simp [Owed, init] at he
    | read b i => simp [Owed, init, tick] at he
    | sweep b => exact absurd rfl he.begun
  seen := by simp [init, Pc.seen]
  sweep := by simp [init, Block.new]

variable [DecidableEq A] {s s' : St w T A} {a : Unbounded.St T A} {t : A} {p' : Pc w T}
  {l : Option (Event T A)}

/-! ### Steps of one thread -/

lemma owed_setThread {e : Duty} : Owed (s.setThread t p') e ↔ Owed s e := by
  cases e <;> exact Iff.rfl

/-- The step of thread `t`: what is owed after it is the thread's own duty, or was owed before
and is somebody else's. -/
lemma Kept.move (h : Kept s) (hs : s'.thread = s.thread)
    (hd : ∀ e, Owed s' e → e ∈ p'.duties ∨ Owed s e ∧ e ∉ (s.thread t).duties)
    (hn : ∀ b, (s.block b).next ≠ none → (s'.block b).next ≠ none)
    (hp : ∀ b, p'.seen = some b → (s'.block b).next ≠ none)
    (hw : ∀ b, (s'.block b).sweep ≠ none → (s.block b).next ≠ none) :
    Kept (s'.setThread t p') where
  duty := by
    intro e he
    rcases hd e (owed_setThread.mp he) with hmine | ⟨hold, hnot⟩
    · exact ⟨t, by simpa [St.setThread] using hmine⟩
    · obtain ⟨u, hu⟩ := h.duty e hold
      have hut : u ≠ t := by
        rintro rfl
        exact hnot hu
      exact ⟨u, by simpa [St.setThread, hut, hs] using hu⟩
  seen := by
    intro u b hu
    by_cases hut : u = t
    · subst hut
      exact hp b (by simpa [St.setThread] using hu)
    · exact hn b (h.seen u b (by simpa [St.setThread, hut, hs] using hu))
  sweep := fun b hb => hn b (hw b hb)

/-- A thread moves on without touching the memory, and keeps its duties. -/
lemma Kept.go (h : Kept s) (hd : ∀ e ∈ (s.thread t).duties, e ∈ p'.duties)
    (hp : ∀ b, p'.seen = some b → (s.block b).next ≠ none) : Kept (s.setThread t p') := by
  refine h.move rfl (fun e he => ?_) (fun _ => id) hp h.sweep
  by_cases hold : e ∈ (s.thread t).duties
  · exact .inl (hd e hold)
  · exact .inr ⟨he, hold⟩

/-- A thread changes block `b`, and all of its duties are about `b`. -/
lemma Kept.inBlock (h : Kept s) {b : ℕ} {d : Block T}
    (ho : ∀ e ∈ (s.thread t).duties, e = .next b ∨ (∃ i, e = .read b i) ∨ e = .sweep b)
    (hn : d.next = none → (s.block b).next = none ∧ Duty.next b ∉ (s.thread t).duties)
    (hr : ∀ i, ¬ d.Done i → Duty.read b i ∈ p'.duties ∨
      ¬ (s.block b).Done i ∧ Duty.read b i ∉ (s.thread t).duties)
    (hd : d.Doomed → Duty.sweep b ∈ p'.duties ∨
      (s.block b).Doomed ∧ Duty.sweep b ∉ (s.thread t).duties)
    (hp : p'.seen = none) (hw : d.sweep ≠ none → (s.block b).next ≠ none) :
    Kept ((s.setBlock b d).setThread t p') := by
  have hsame : ∀ c, c ≠ b → (s.setBlock b d).block c = s.block c := by
    intro c hc
    simp [St.setBlock, hc]
  have hself : (s.setBlock b d).block b = d := by simp [St.setBlock]
  have hforeign : ∀ e, e ≠ .next b → (∀ i, e ≠ .read b i) → e ≠ .sweep b →
      e ∉ (s.thread t).duties := by
    intro e h1 h2 h3 he
    rcases ho e he with rfl | ⟨i, rfl⟩ | rfl
    · exact h1 rfl
    · exact h2 i rfl
    · exact h3 rfl
  refine h.move rfl (fun e he => ?_) (fun c hc => ?_) (by simp [hp]) fun c hc => ?_
  · cases e with
    | first => exact .inr ⟨he, hforeign _ (by simp) (by simp) (by simp)⟩
    | tail => exact .inr ⟨he, hforeign _ (by simp) (by simp) (by simp)⟩
    | head => exact .inr ⟨he, hforeign _ (by simp) (by simp) (by simp)⟩
    | next c =>
      simp only [Owed] at he
      by_cases hc : c = b
      · subst hc
        rw [hself] at he
        obtain ⟨hold, hnot⟩ := hn he.2
        exact .inr ⟨⟨he.1, hold⟩, hnot⟩
      · rw [hsame c hc] at he
        exact .inr ⟨he, hforeign _ (by simpa using hc) (by simp) (by simp)⟩
    | read c i =>
      simp only [Owed] at he
      by_cases hc : c = b
      · subst hc
        rw [hself] at he
        rcases hr i he.2.2 with hmine | ⟨hold, hnot⟩
        · exact .inl hmine
        · exact .inr ⟨⟨he.1, he.2.1, hold⟩, hnot⟩
      · rw [hsame c hc] at he
        exact .inr ⟨he, hforeign _ (by simp) (by simp [hc]) (by simp)⟩
    | sweep c =>
      simp only [Owed] at he
      by_cases hc : c = b
      · subst hc
        rw [hself] at he
        exact hd he
      · rw [hsame c hc] at he
        exact .inr ⟨he, hforeign _ (by simp) (by simp) (by simpa using hc)⟩
  · by_cases hcb : c = b
    · subst hcb
      rw [hself]
      exact fun hnone => hc (hn hnone).1
    · rwa [hsame c hcb]
  · by_cases hcb : c = b
    · subst hcb
      rw [hself] at hc
      exact hw hc
    · rw [hsame c hcb] at hc
      exact h.sweep c hc

/-- A step that leaves the blocks alone. -/
lemma Kept.outside (h : Kept s) (hs : s'.thread = s.thread) (hb : s'.block = s.block)
    (hd : ∀ e, Owed s' e → e ∈ p'.duties ∨ Owed s e ∧ e ∉ (s.thread t).duties)
    (hp : ∀ b, p'.seen = some b → (s.block b).next ≠ none) : Kept (s'.setThread t p') := by
  refine h.move hs hd (fun b hn => ?_) (fun b he => ?_) fun b hw => ?_
  · rwa [hb]
  · rw [hb]
    exact hp b he
  · rw [hb] at hw
    exact h.sweep b hw

/-! ### Tickets and parked indices -/

lemma Kept.install (h : Kept s) {x : T} {next : Bool} {tail : Snap w} {n : ℕ}
    (hpc : s.thread t = .pushInstall x next tail) :
    Kept ({ s with tailBlock := some n, count := s.count + 1 }.setThread t
      (.pushStoreHead x next tail n)) := by
  refine h.outside rfl rfl (fun e he => ?_) (by simp [Pc.seen])
  cases e with
  | first => exact .inl (by simp [Pc.duties])
  | _ => exact .inr ⟨he, by simp [hpc, Pc.duties]⟩

lemma Kept.storeHead (h : Kept s) {x : T} {next : Bool} {tail : Snap w} {n : ℕ}
    (hpc : s.thread t = .pushStoreHead x next tail n) :
    Kept ({ s with headBlock := some n }.setThread t (.pushCas x next tail n)) := by
  refine h.outside rfl rfl (fun e he => ?_) (by simp [Pc.seen])
  cases e with
  | first => cases he.1
  | _ => exact .inr ⟨he, by simp [hpc, Pc.duties]⟩

/-- A push takes the next ticket. -/
lemma Kept.takeTail (h : Kept s) {i : BitVec w} {x : T} {next : Bool} {tail : BitVec w} {b : ℕ}
    (hpc : (s.thread t).duties = []) (hp : s.tailPos % 32 ≠ 31) {n : ℕ}
    (hn : n + 1 = 31 ↔ s.tailPos % 32 = 30) :
    Kept ({ s with tailIndex := i, tailPos := s.tailPos + 1 }.setThread t
      (if n + 1 = 31 then .pushStoreBlock x next tail b else .pushWrite x b n)) := by
  refine h.outside rfl rfl (fun e he => ?_) (by split_ifs <;> simp [Pc.seen])
  have hnot : e ∉ (s.thread t).duties := by simp [hpc]
  cases e with
  | tail =>
    simp only [Owed] at he
    rw [if_pos (by omega)]
    exact .inl (by simp [Pc.duties])
  | next c =>
    simp only [Owed] at he
    exact .inr ⟨⟨by omega, he.2⟩, hnot⟩
  | _ => exact .inr ⟨he, hnot⟩

lemma Kept.storeBlock (h : Kept s) {x : T} {next f : Bool} {i j : BitVec w} {b c n : ℕ}
    (hpc : s.thread t = .pushStoreBlock x next i b) (hb : s.tailBlock = some c) :
    Kept ({ s with
      tailBlock := some n
      count := s.count + 1
      fault := f }.setThread t (.pushStoreIndex x j b n)) := by
  refine h.outside rfl rfl (fun e he => ?_) (by simp [Pc.seen])
  cases e with
  | first => exact .inr ⟨⟨he.1, by simp [hb]⟩, by simp [hpc, Pc.duties]⟩
  | tail => exact .inl (by simp [Pc.duties])
  | _ => exact .inr ⟨he, by simp [hpc, Pc.duties]⟩

/-- The parked tail moves on, and leaves its block without a successor. -/
lemma Kept.storeTail (h : Kept s) {x : T} {i : BitVec w} {b n : ℕ}
    (hpc : s.thread t = .pushStoreIndex x i b n) (hp : s.tailPos = 32 * b + 31) :
    Kept ({ s with tailIndex := i, tailPos := s.tailPos + 1 }.setThread t
      (.pushStoreNext x b n)) := by
  refine h.outside rfl rfl (fun e he => ?_) (by simp [Pc.seen])
  cases e with
  | tail =>
    simp only [Owed] at he
    omega
  | next c =>
    simp only [Owed] at he
    by_cases hc : c = b
    · subst hc
      exact .inl (by simp [Pc.duties])
    · exact .inr ⟨⟨by omega, he.2⟩, by simp [hpc, Pc.duties]⟩
  | _ => exact .inr ⟨he, by simp [hpc, Pc.duties]⟩

/-- A pop takes the next ticket. -/
lemma Kept.takeHead (h : Kept s) {i j : BitVec w} {b : ℕ} (hpc : (s.thread t).duties = [])
    (hp : s.headPos % 32 ≠ 31) (hb : b = s.headPos / 32) :
    Kept ({ s with headIndex := i, headPos := s.headPos + 1 }.setThread t
      (if s.headPos % 32 + 1 = 31 then .popWaitNext j b
        else .popWaitWrite b (s.headPos % 32))) := by
  refine h.outside rfl rfl (fun e he => ?_) fun c hc => ?_
  · have hnot : e ∉ (s.thread t).duties := by simp [hpc]
    cases e with
    | head =>
      simp only [Owed] at he
      rw [if_pos (by omega)]
      exact .inl (by simp [Pc.duties])
    | read c n =>
      simp only [Owed] at he
      rw [tick_succ hp] at he
      by_cases hnew : 31 * c + n < tick s.headPos
      · exact .inr ⟨⟨he.1, hnew, he.2.2⟩, hnot⟩
      · -- the ticket just taken
        have htick := tick_eq s.headPos
        obtain ⟨rfl, rfl⟩ : c = b ∧ n = s.headPos % 32 := by omega
        split_ifs with hlast
        · have h30 : s.headPos % 32 = 30 := by omega
          exact .inl (by simp [Pc.duties, h30])
        · exact .inl (by simp [Pc.duties])
    | _ => exact .inr ⟨he, hnot⟩
  · split_ifs at hc with hlast
    · simp [Pc.seen] at hc
    · rw [Pc.seen, if_neg (by omega)] at hc
      cases hc

lemma Kept.storeHeadBlock (h : Kept s) {i : BitVec w} {b n : ℕ}
    (hpc : s.thread t = .popStoreBlock i b n) :
    Kept ({ s with headBlock := some n }.setThread t (.popStoreIndex i b)) := by
  refine h.outside rfl rfl (fun e he => ?_) fun c hc => ?_
  · by_cases hmine : e ∈ (s.thread t).duties
    · exact .inl (by simpa [hpc, Pc.duties] using hmine)
    · cases e with
      | first => cases he.1
      | _ => exact .inr ⟨he, hmine⟩
  · exact h.seen t c (by simpa [hpc, Pc.seen] using hc)

/-- The parked head moves on. -/
lemma Kept.storeHeadIndex (h : Kept s) {i : BitVec w} {b : ℕ}
    (hpc : s.thread t = .popStoreIndex i b) (hp : s.headPos = 32 * b + 31) :
    Kept ({ s with headIndex := i, headPos := s.headPos + 1 }.setThread t
      (.popWaitWrite b 30)) := by
  have hpark : s.headPos % 32 = 31 := by omega
  refine h.outside rfl rfl (fun e he => ?_) fun c hc => ?_
  · by_cases hmine : e ∈ (s.thread t).duties
    · simp only [hpc, Pc.duties, List.mem_cons, List.not_mem_nil, or_false] at hmine
      rcases hmine with rfl | rfl
      · simp only [Owed] at he
        omega
      · exact .inl (by simp [Pc.duties])
    · cases e with
      | head =>
        simp only [Owed] at he
        omega
      | read c n =>
        simp only [Owed] at he
        rw [tick_park hpark] at he
        exact .inr ⟨he, hmine⟩
      | _ => exact .inr ⟨he, hmine⟩
  · exact h.seen t c (by simpa [hpc, Pc.seen] using hc)

/-! ### Steps inside a block -/

/-- Changing one slot in a way that neither a reader nor the destruction cares about. -/
lemma Kept.setSlot (h : Kept s) {b i : ℕ} {sl : Slot T} (hr : sl.read = (s.slot b i).read)
    (hd : sl.destroy = (s.slot b i).destroy)
    (ho : ∀ e ∈ (s.thread t).duties, (∃ i, e = .read b i))
    (hp : ∀ e ∈ (s.thread t).duties, e ∈ p'.duties) (hs : p'.seen = none) :
    Kept ((s.setSlot b i sl).setThread t p') := by
  have hread : ∀ j, ((Function.update (s.block b).slot i sl) j).read = (s.slot b j).read := by
    intro j
    by_cases hj : j = i
    · subst hj
      simpa using hr
    · simp [hj, St.slot]
  have hdestroy : ∀ j, ((Function.update (s.block b).slot i sl) j).destroy
      = (s.slot b j).destroy := by
    intro j
    by_cases hj : j = i
    · subst hj
      simpa using hd
    · simp [hj, St.slot]
  refine h.inBlock (fun e he => .inr (.inl (ho e he))) (fun hn => ⟨hn, fun hmem => ?_⟩)
    (fun j hj => ?_) (fun hdoom => .inr ⟨⟨hdoom.begun, hdoom.here, fun hask => ?_⟩, fun hmem => ?_⟩)
    hs (h.sweep b)
  · obtain ⟨j, hj⟩ := ho _ hmem
    cases hj
  · by_cases hmem : Duty.read b j ∈ (s.thread t).duties
    · exact .inl (hp _ hmem)
    · refine .inr ⟨fun hdone => hj ?_, hmem⟩
      unfold Block.Done at hdone ⊢
      rwa [hread]
  · obtain ⟨j, hj, hsweep, hda, hra⟩ := hask
    refine hdoom.free ⟨j, hj, hsweep, ?_, ?_⟩
    · rw [hdestroy]
      exact hda
    · rw [hread]
      exact hra
  · obtain ⟨j, hj⟩ := ho _ hmem
    cases hj

lemma Kept.storeNext (h : Kept s) {x : T} {b n : ℕ} (hpc : s.thread t = .pushStoreNext x b n) :
    Kept ((s.setBlock b { s.block b with next := some n }).setThread t (.pushWrite x b 30)) := by
  refine h.inBlock (fun e he => .inl ?_) (by simp) (fun j hj => .inr ⟨hj, ?_⟩)
    (fun hd => .inr ⟨⟨hd.begun, hd.here, hd.free⟩, ?_⟩) rfl (h.sweep b)
  · simpa [hpc, Pc.duties] using he
  · simp [hpc, Pc.duties]
  · simp [hpc, Pc.duties]

/-- The last value of a block was read: its reader is to destroy it. -/
lemma Kept.begin (h : Kept s) {x : T} {b : ℕ} {sl : Slot T} (hpc : s.thread t = .popRead b 30) :
    Kept ((s.setBlock b { s.block b with
      slot := Function.update (s.block b).slot 30 sl
      sweep := some 0 }).setThread t (.destroyLoad x b 0)) := by
  refine h.inBlock (fun e he => .inr (.inl ⟨30, ?_⟩)) (fun hn => ⟨hn, by simp [hpc, Pc.duties]⟩)
    (fun j hj => .inr ?_) (fun _ => .inl (by simp [Pc.duties])) rfl
    fun _ => h.seen t b (by simp [hpc, Pc.seen])
  · simpa [hpc, Pc.duties] using he
  · have hne : j ≠ 30 := fun he => hj (.inr ⟨he, by simp⟩)
    refine ⟨fun hdone => hj ?_, by simpa [hpc, Pc.duties] using hne⟩
    rcases hdone with ⟨hlt, hread⟩ | ⟨h30, -⟩
    · exact .inl ⟨hlt, by simpa [hne] using hread⟩
    · exact absurd h30 hne

/-- A reader that leaves its slot finds out whether the destruction was left to it. -/
lemma Kept.mark (h : Kept s) {x : T} {b i k : ℕ} (hpc : s.thread t = .popMark x b i) (hi : i < 30)
    (hn : (s.slot b i).destroy = true → (s.block b).next ≠ none) :
    Kept (if (s.slot b i).destroy then
        ((s.setSlot b i { s.slot b i with read := true }).setSweep b k).setThread t
          (.destroyLoad x b k)
      else (s.setSlot b i { s.slot b i with read := true }).setThread t
        (.ret (.popped (some x)))) := by
  have hduties : (s.thread t).duties = [.read b i] := by simp [hpc, Pc.duties]
  have hleft : ∀ {sw : Option ℕ} {j : ℕ}, (sw = none → (s.block b).sweep = none) →
      ¬ Block.Done { s.block b with
        slot := Function.update (s.block b).slot i { s.slot b i with read := true }
        sweep := sw } j →
      ¬ (s.block b).Done j ∧ Duty.read b j ∉ (s.thread t).duties := by
    intro sw j hsw hj
    have hne : j ≠ i := by
      rintro rfl
      exact hj (.inl ⟨hi, by simp⟩)
    refine ⟨fun hdone => hj ?_, by simpa [hduties] using hne⟩
    rcases hdone with ⟨hlt, hread⟩ | ⟨h30, hs⟩
    · exact .inl ⟨hlt, by simpa [hne] using hread⟩
    · exact .inr ⟨h30, fun he => hs (hsw he)⟩
  split_ifs with hd
  · have hmove : Kept ((s.setBlock b { s.block b with
        slot := Function.update (s.block b).slot i { s.slot b i with read := true }
        sweep := some k }).setThread t (.destroyLoad x b k)) := by
      refine h.inBlock (fun e he => .inr (.inl ⟨i, by simpa [hduties] using he⟩))
        (fun hnone => absurd hnone (hn hd)) (fun j hj => .inr (hleft (by simp) hj))
        (fun _ => .inl (by simp [Pc.duties])) rfl fun _ => hn hd
    simpa [St.setSweep, St.setSlot, St.setBlock] using hmove
  · refine h.inBlock (fun e he => .inr (.inl ⟨i, by simpa [hduties] using he⟩))
      (fun hnone => ⟨hnone, by simp [hduties]⟩) (fun j hj => .inr (hleft id hj))
      (fun hdoom => .inr ⟨⟨hdoom.begun, hdoom.here, fun hask => hdoom.free ?_⟩, by simp [hduties]⟩)
      rfl (h.sweep b)
    obtain ⟨j, hj, hs, hda, hra⟩ := hask
    -- the destruction was not left here
    have hne : j ≠ i := by
      rintro rfl
      exact hd hda
    exact ⟨j, hj, hs, by simpa [hne] using hda, by simpa [hne] using hra⟩

/-- A step of the destruction, which goes on, leaves the rest to a reader or comes to its end. -/
lemma Kept.destroy (h : Kept s) {b : ℕ} {d : Block T} (hpc : (s.thread t).duties = [.sweep b])
    (hn : d.next = (s.block b).next) (hr : ∀ j, (d.slot j).read = (s.slot b j).read)
    (hs : (s.block b).sweep ≠ none) (hs' : d.sweep ≠ none) (hd : d.Doomed → .sweep b ∈ p'.duties)
    (hp : p'.seen = none) : Kept ((s.setBlock b d).setThread t p') := by
  refine h.inBlock (fun e he => .inr (.inr (by simpa [hpc] using he)))
    (fun hnone => ⟨hn ▸ hnone, by simp [hpc]⟩)
    (fun j hj => .inr ⟨fun hdone => hj ?_, by simp [hpc]⟩) (fun hdoom => .inl (hd hdoom)) hp
    fun _ => h.sweep b hs
  rcases hdone with ⟨hlt, hread⟩ | ⟨h30, -⟩
  · exact .inl ⟨hlt, (hr j).trans hread⟩
  · exact .inr ⟨h30, hs'⟩

/-! ### Every step -/

lemma seen_pushCheck (x : T) (next : Bool) (tail : Snap w) (b : Option ℕ) :
    (pushCheck x next tail b).seen = none := by
  unfold pushCheck
  split_ifs
  · rfl
  · cases b <;> rfl

lemma seen_popReady (head : Snap w) (i : BitVec w) (b : Option ℕ) :
    (popReady (T := T) head i b).seen = none := by
  cases b <;> rfl

lemma seen_popCheck (head : Snap w) (b : Option ℕ) : (popCheck (T := T) head b).seen = none := by
  unfold popCheck
  split_ifs
  · rfl
  · rfl
  · exact seen_popReady _ _ _

/-- Every step of a thread leaves what is not done yet to some thread. -/
lemma kept_thread (hw : 6 ≤ w) (h : Rel s a) (hk : Kept s) {spurious : Bool}
    (hturn : Timely (.thread t spurious) s)
    (hstep : threadStep spurious t s = some (s', l)) : Kept s' := by
  have hm := h.mem
  have hok := h.thread t
  generalize hpc : s.thread t = p at hok
  generalize a.thread t = q at hok
  have hnone : p.duties = [] → ∀ {p' : Pc w T}, ∀ e ∈ (s.thread t).duties, e ∈ p'.duties := by
    intro hp p' e he
    rw [hpc, hp] at he
    cases he
  unfold threadStep at hstep
  unfold Timely compared at hturn
  simp only [hpc] at hturn hstep
  cases hok with
  | idle => cases hstep
  | ret r =>
    cases hstep
    exact hk.go (hnone rfl) (by simp [Pc.seen])
  | pushLoadIndex x next =>
    cases hstep
    exact hk.go (hnone rfl) (by simp [Pc.seen])
  | pushLoadBlock x next tail hs =>
    cases hstep
    exact hk.go (hnone rfl) (by simp [seen_pushCheck])
  | pushInstall x next tail hr =>
    cases hb : s.tailBlock with
    | none =>
      simp only [hb] at hstep
      cases hstep
      exact hk.install hpc
    | some b =>
      simp only [hb] at hstep
      cases hstep
      exact hk.go (hnone rfl) (by simp [Pc.seen])
  | pushStoreHead x next tail hr h0 hh htb =>
    cases hstep
    exact hk.storeHead hpc
  | pushCas x next tail b hr htb hb =>
    simp only at hstep
    by_cases hcas : spurious = false ∧ s.tailIndex = tail.index
    · rw [if_pos hcas] at hstep
      cases hstep
      have hpos : s.tailPos = tail.pos := by
        have he := hm.tailIndex.symm.trans (hcas.2.trans hr.index)
        exact (idx_inj hw hr.le (hturn _ rfl) he).1
      have hoff : offset tail.index = s.tailPos % 32 := by
        rw [hr.index, offset_idx hw, hpos]
      have hticket : s.tailPos % 32 ≠ 31 := hpos ▸ hr.ticket
      exact hk.takeTail (by simp [hpc, Pc.duties]) hticket (by omega)
    · rw [if_neg hcas] at hstep
      cases hstep
      exact hk.go (hnone rfl) (by simp [Pc.seen])
  | pushStoreBlock x b hw' hp hb hc =>
    cases hstep
    exact hk.storeBlock hpc hb
  | pushStoreIndex x b hw' hp hb hc =>
    cases hstep
    exact hk.storeTail hpc hp
  | pushStoreNext x b hw' hp =>
    cases hstep
    rw [touch_eq (hm.not_freed_of_write hw'.lt hw'.write)]
    exact hk.storeNext hpc
  | pushWrite x b i hw' =>
    cases hstep
    have hf := hm.not_freed_of_write hw'.lt hw'.write
    have hs : { s.touch b with
        fault := s.fault || (s.block b).freed || (s.slot b i).value.item?.isSome } = s := by
      rw [touch_eq hf, hf, hw'.value]
      simp [Slots.Slot.item?]
    rw [hs]
    exact hk.setSlot rfl rfl (by simp [hpc, Pc.duties]) (hnone rfl) rfl
  | pushMark x b i hi hx hv hw' =>
    cases hstep
    rw [touch_eq (hm.not_freed_of_write hi hw')]
    exact hk.setSlot rfl rfl (by simp [hpc, Pc.duties]) (hnone rfl) rfl
  | popLoadIndex =>
    cases hstep
    exact hk.go (hnone rfl) (by simp [Pc.seen])
  | popLoadBlock head c hs =>
    cases hstep
    exact hk.go (hnone rfl) (by simp [seen_popCheck])
  | popLoadTail head block hs ht hb =>
    simp only at hstep
    split_ifs at hstep <;> cases hstep
    · exact hk.go (hnone rfl) (by simp [Pc.seen])
    · exact hk.go (hnone rfl) (by simp [seen_popReady])
    · exact hk.go (hnone rfl) (by simp [seen_popReady])
  | popCas head c d b hs ht hb hlt hd =>
    simp only at hstep
    by_cases hcas : spurious = false ∧ s.headIndex = head.index
    · rw [if_pos hcas] at hstep
      cases hstep
      obtain ⟨e, he, -⟩ := hm.headIndex
      have hpos : s.headPos = head.pos :=
        (idx_inj hw hs.le (hturn _ rfl) (he.symm.trans (hcas.2.trans hs.index))).1
      have hoff : offset head.index = s.headPos % 32 := by rw [hs.index, offset_idx hw, hpos]
      rw [hoff]
      exact hk.takeHead (by simp [hpc, Pc.duties]) (hpos ▸ ht) (hb.2 hpos.symm)
    · rw [if_neg hcas] at hstep
      cases hstep
      exact hk.go (hnone rfl) (by simp [Pc.seen])
  | popWaitNext x b d hr hp =>
    cases hstep
    rw [touch_eq (hm.not_freed_of_moved (by omega) hr.moved)]
    cases hn : (s.block b).next with
    | none => exact hk.go (by simp [hpc, Pc.duties]) (by simp [Pc.seen])
    | some m =>
      refine hk.go (by simp [hpc, Pc.duties]) ?_
      rintro c ⟨⟩
      simp [hn]
  | popLoadNext x b d hr hp ht =>
    cases hstep
    rw [touch_eq (hm.not_freed_next hp.1)]
    exact hk.go (by simp [hpc, Pc.duties]) fun c hc =>
      hk.seen t c (by simpa [hpc, Pc.seen] using hc)
  | popStoreBlock x b d hr hp ht hd =>
    cases hstep
    exact hk.storeHeadBlock hpc
  | popStoreIndex x b d hr hp ht hd =>
    cases hstep
    exact hk.storeHeadIndex hpc hp.1
  | popWaitWrite x b i hr =>
    cases hstep
    rw [touch_eq (hm.not_freed_of_moved hr.lt hr.moved)]
    split_ifs
    · exact hk.go (by simp [hpc, Pc.duties])
        fun c hc => hk.seen t c (by simpa [hpc, Pc.seen] using hc)
    · exact hk.go (by simp [hpc, Pc.duties])
        fun c hc => hk.seen t c (by simpa [hpc, Pc.seen] using hc)
  | popRead x b i hr hmark =>
    simp only [hr.live hm hmark] at hstep
    rw [touch_eq (hm.not_freed_of_moved hr.lt hr.moved)] at hstep
    split_ifs at hstep with hlast
    · cases hstep
      obtain rfl : i = 30 := by
        simp only [blockCap] at hlast
        omega
      simpa [St.setSweep, St.setSlot, St.setBlock] using hk.begin hpc
    · cases hstep
      exact hk.setSlot rfl rfl (by simp [hpc, Pc.duties]) (by simp [hpc, Pc.duties]) rfl
  | popMark x b i hi hv hr =>
    simp only at hstep
    rw [touch_eq (hm.not_freed_of_read hi hr)] at hstep
    have hnext : (s.slot b i).destroy = true → (s.block b).next ≠ none := by
      intro hd
      obtain ⟨j, hj, -⟩ := (hm.block b).destroy i hd
      exact hk.sweep b (by simp [hj])
    have hmove := hk.mark (k := i + 1) hpc hi hnext
    split_ifs at hstep hmove <;> cases hstep <;> exact hmove
  | destroyLoad x b i hs =>
    simp only at hstep
    rw [touch_eq hs.freed] at hstep
    have hsw : (s.block b).sweep ≠ none := by simp [hs.sweep]
    split_ifs at hstep with hi hr
    · cases hstep
      exact hk.destroy (by simp [hpc, Pc.duties]) rfl (fun _ => rfl) hsw (by simp)
        (fun _ => by simp [Pc.duties]) rfl
    · cases hstep
      exact hk.go (by simp [hpc, Pc.duties]) (by simp [Pc.seen])
    · cases hstep
      exact hk.destroy (by simp [hpc, Pc.duties]) rfl (fun _ => rfl) hsw hsw
        (fun hd => by cases hd.here) rfl
  | destroyOr x b i hi hs =>
    simp only at hstep
    rw [touch_eq hs.freed] at hstep
    have hsw : (s.block b).sweep ≠ none := by simp [hs.sweep]
    have hread : ∀ j, ((Function.update (s.block b).slot i
        { s.slot b i with destroy := true }) j).read = (s.slot b j).read := by
      intro j
      by_cases hj : j = i
      · subst hj
        simp
      · simp [hj, St.slot]
    split_ifs at hstep with hr
    · cases hstep
      have hmove : Kept ((s.setBlock b { s.block b with
          slot := Function.update (s.block b).slot i { s.slot b i with destroy := true }
          sweep := some (i + 1) }).setThread t (.destroyLoad x b (i + 1))) :=
        hk.destroy (by simp [hpc, Pc.duties]) rfl hread hsw (by simp)
          (fun _ => by simp [Pc.duties]) rfl
      simpa [St.setSweep, St.setSlot, St.setBlock] using hmove
    · cases hstep
      refine hk.destroy (by simp [hpc, Pc.duties]) rfl hread hsw hsw (fun hd => ?_) rfl
      exact (hd.free ⟨i, hi, hs.sweep, by simp, by simpa using hr⟩).elim
  | emptyLoadHead =>
    cases hstep
    exact hk.go (hnone rfl) (by simp [Pc.seen])
  | emptyLoadTail head c hs =>
    cases hstep
    exact hk.go (hnone rfl) (by simp [Pc.seen])

lemma kept_call (hk : Kept s) {op : Op T} (hstep : step (.call t op) s = some (s', l)) :
    Kept s' := by
  unfold step at hstep
  cases hpc : s.thread t <;> simp only [hpc] at hstep <;> cases hstep
  refine hk.go (by simp [hpc, Pc.duties]) fun b hb => ?_
  cases op <;> cases hb

lemma kept_step (hw : 6 ≤ w) (h : Rel s a) (hk : Kept s) {cmd : Cmd T A} (hturn : Timely cmd s)
    (hstep : step cmd s = some (s', l)) : Kept s' := by
  cases cmd with
  | call t op => exact kept_call hk hstep
  | thread t spurious => exact kept_thread hw h hk hturn hstep

/-- **No work is lost.** In every reachable state each thing left to be done, the freeing of a
block among them, is the duty of some thread. -/
theorem kept_of_reaches (hw : 6 ≤ w) {tr : List (Event T A)} (h : (lts w T A).Reaches tr s) :
    Kept s := by
  refine Lts.Reaches.invariant Kept ?_ ?_ h
  · rintro s rfl
    exact kept_init
  · rintro tr s l s' hr hk ⟨cmd, hturn, hstep⟩
    obtain ⟨a, -, hrel⟩ := (simulation hw).reaches hr
    exact kept_step hw hrel hk hturn hstep

end St3.Injector
