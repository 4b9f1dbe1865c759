import St3.InjectorPop

/-!
The injector is linearizable: every run of it shows a trace of the unbounded queue.
-/

namespace St3.Injector

open Words Unbounded

variable {w : ℕ} {T A : Type*} [DecidableEq A] {s s' : St w T A} {a : Unbounded.St T A}
  {t : A} {l : Option (Event T A)}

omit [DecidableEq A] in
/-- The head of the loop of `push`. -/
lemma threadOk_pushCheck (hw : 6 ≤ w) (h : Rel s a) {x : T} {next : Bool} {tail : Snap w}
    (hs : TailSnap s tail) :
    ThreadOk s a (pushCheck x next tail s.tailBlock) (.called (.push x)) := by
  have hoff : offset tail.index = tail.pos % 32 := by rw [hs.index, offset_idx hw]
  unfold pushCheck
  rw [hoff]
  split_ifs with hpark
  · exact .pushLoadIndex x next
  · have hready : TailReady s (next || decide (tail.pos % 32 + 1 = blockCap)) tail :=
      ⟨hs, hpark, fun h30 => by simp [h30]⟩
    cases hb : s.tailBlock with
    | none => exact .pushInstall x _ tail hready
    | some b =>
      refine .pushCas x _ tail b hready (by simp [hb]) fun he => ?_
      exact (h.mem.tailSome b hb (he ▸ hpark)).1

omit [DecidableEq A] in
/-- The test for a missing first block. -/
lemma threadOk_popReady {head : Snap w} {c d : Bool} {block : Option ℕ} (hs : HeadSnap s head c)
    (ht : head.pos % 32 ≠ 31) (hb : ∀ b, block = some b → HeadAt s head b)
    (hlt : head.pos < s.tailPos) (hd : d = true → head.pos / 32 < s.tailPos / 32) :
    ThreadOk s a (popReady head (idx w (head.pos + 1) d) block) (.called .pop) := by
  unfold popReady
  cases block with
  | none => exact .popLoadIndex
  | some b => exact .popCas head c d b hs ht (hb b rfl) hlt hd

omit [DecidableEq A] in
/-- The head of the loop of `pop`. -/
lemma threadOk_popCheck (hw : 6 ≤ w) (h : Rel s a) {head : Snap w} {c : Bool}
    (hs : HeadSnap s head c) : ThreadOk s a (popCheck head s.headBlock) (.called .pop) := by
  have hoff : offset head.index = head.pos % 32 := by rw [hs.index, offset_idx hw]
  have hnew : head.index + one w = idx w (head.pos + 1) c := by rw [hs.index, idx_add_one]
  have hat : head.pos % 32 ≠ 31 → ∀ b, s.headBlock = some b → HeadAt s head b := by
    intro hpark b hb
    exact ⟨by simp [hb], fun he => h.mem.headSome b hb (he ▸ hpark)⟩
  unfold popCheck
  rw [hoff, hnew, hasNext_idx hw]
  split_ifs with hpark hc
  · exact .popLoadIndex
  · subst hc
    exact .popLoadTail head _ hs hpark (hat hpark)
  · have hc' : c = true := by simpa using hc
    have hlt := hs.hasNext hc'
    exact threadOk_popReady hs hpark (hat hpark) (by omega) fun _ => hlt

/-- A pop that has loaded the tail. -/
lemma pop_load_tail (hw : 6 ≤ w) (h : Rel s a) {head : Snap w} {block : Option ℕ}
    (hpc : s.thread t = .popLoadTail head block) (hq : a.thread t = .called .pop)
    (hs : HeadSnap s head false) (ht : head.pos % 32 ≠ 31)
    (hb : ∀ b, block = some b → HeadAt s head b) :
    Sim (s.setThread t (if head.index >>> 1 = s.tailIndex >>> 1 then .ret (.popped none)
      else if lapOf head.index ≠ lapOf s.tailIndex then
        popReady head (setHasNext (head.index + one w)) block
      else popReady head (head.index + one w) block)) a
      (if head.index >>> 1 = s.tailIndex >>> 1 then s.lapped t head else none) := by
  have hm := h.mem
  have hle := hs.le.trans hm.le
  have hrights : ∀ d, (popReady (T := T) head d block).rights = (s.thread t).rights := by
    intro d
    cases block <;> simp [hpc, popReady, Pc.rights]
  rw [hs.index, idx_add_one, setHasNext_idx, hm.tailIndex]
  split_ifs with hshift hlap
  · have hret : Rel (s.setThread t (.ret (.popped none))) (a.setThread t (.done (.popped none))) :=
      h.go t (.ret _) (by simp [hpc, Pc.rights])
    unfold St.lapped
    split_ifs with hlt
    · -- the head has not moved since it was loaded: it cannot be ahead of the tail
      have heq := (shift_inj hw hle hlt).mp hshift
      have hhead : s.headPos = s.tailPos := le_antisymm hm.le (heq ▸ hs.le)
      have hempty : a.popped = a.pushed.length := by rw [hm.popped, hm.pushed, hhead]
      exact .go (.popNone hq hempty) hret
    · exact .go (.popLapped hq) hret
  · have hdiv := lapOf_ne hw hlap
    have hdle : head.pos / 32 ≤ s.tailPos / 32 := Nat.div_le_div_right hle
    refine .stay hq (h.go t (threadOk_popReady hs ht hb (by omega) fun _ => ?_) (hrights _))
    omega
  · have hne : head.pos ≠ s.tailPos := fun he => hshift (he ▸ idx_shift hw)
    refine .stay hq (h.go t (threadOk_popReady hs ht hb (by omega) ?_) (hrights _))
    simp

/-- A pop that waits for the next block. -/
lemma pop_wait_next (h : Rel s a) {x : T} {b : ℕ} {d : Bool}
    (hpc : s.thread t = .popWaitNext (idx w (32 * b + 31) d) b)
    (hq : a.thread t = .done (.popped (some x))) (hok : ReadOk s a x b 30)
    (hp : HeadParked s b b) :
    Sim ((s.touch b).setThread t (match (s.block b).next with
      | none => .popWaitNext (idx w (32 * b + 31) d) b
      | some next => .popLoadNext (idx w (32 * b + 31) d) b next)) a none := by
  have hm := h.mem
  rw [touch_eq (hm.not_freed_of_moved (by omega) hok.moved)]
  cases hn : (s.block b).next with
  | none => exact .stay hq (h.go t (.popWaitNext x b d hok hp) (by simp [hpc, Pc.rights]))
  | some m =>
    obtain ⟨rfl, ht⟩ := hm.next b m hn
    exact .stay hq (h.go t (.popLoadNext x b d hok hp ht) (by simp [hpc, Pc.rights]))

/-- A pop that asks whether the next block has a next one. -/
lemma pop_load_next (h : Rel s a) {x : T} {b : ℕ} {d : Bool}
    (hpc : s.thread t = .popLoadNext (idx w (32 * b + 31) d) b (b + 1))
    (hq : a.thread t = .done (.popped (some x))) (hok : ReadOk s a x b 30)
    (hp : HeadParked s b b) (ht : 32 * b + 32 ≤ s.tailPos) :
    Sim ((s.touch (b + 1)).setThread t (.popStoreBlock
      (if (s.block (b + 1)).next.isSome then
        setHasNext (clearHasNext (idx w (32 * b + 31) d) + one w)
      else clearHasNext (idx w (32 * b + 31) d) + one w) b (b + 1))) a none := by
  have hm := h.mem
  rw [touch_eq (hm.not_freed_next hp.1), clearHasNext_idx, idx_add_one, setHasNext_idx]
  split_ifs with hn
  · obtain ⟨m, hm'⟩ := Option.isSome_iff_exists.mp hn
    have hd := (hm.next (b + 1) m hm').2
    refine .stay hq (h.go t (.popStoreBlock x b true hok hp ht fun _ => ?_) ?_)
    · omega
    · simp [hpc, Pc.rights]
  · refine .stay hq (h.go t (.popStoreBlock x b false hok hp ht ?_) ?_)
    · simp
    · simp [hpc, Pc.rights]

/-- `is_empty` that has loaded the tail. -/
lemma empty_load_tail (hw : 6 ≤ w) (h : Rel s a) {head : Snap w} {c : Bool}
    (hpc : s.thread t = .emptyLoadTail head) (hq : a.thread t = .called .isEmpty)
    (hs : HeadSnap s head c) :
    Sim (s.setThread t
      (.ret (.isEmpty (decide (head.index >>> 1 = s.tailIndex >>> 1))))) a
      (s.lapped t head) := by
  have hm := h.mem
  have hret : ∀ b, Rel (s.setThread t (.ret (.isEmpty b))) (a.setThread t (.done (.isEmpty b))) :=
    fun b => h.go t (.ret _) (by simp [hpc, Pc.rights])
  unfold St.lapped
  split_ifs with hlt
  swap
  · exact .go (.isEmptyLapped hq) (hret _)
  refine .go (.isEmpty hq fun he => ?_) (hret _)
  have heq : head.pos = s.tailPos := by
    rw [decide_eq_true_eq, hs.index, hm.tailIndex] at he
    exact (shift_inj hw (hs.le.trans hm.le) hlt).mp he
  have hhead : s.headPos = s.tailPos := le_antisymm hm.le (heq ▸ hs.le)
  rw [hm.popped, hm.pushed, hhead]

/-- A reader that marks its slot. -/
lemma pop_mark_read (h : Rel s a) {x : T} {b i : ℕ} (hpc : s.thread t = .popMark x b i)
    (hq : a.thread t = .done (.popped (some x))) (hi : i < 30)
    (hv : (s.slot b i).value = .moved x) (hr : (s.slot b i).read = false) :
    Sim (if (s.slot b i).destroy then
        (((s.setSlot b i { s.slot b i with read := true }).setSweep b (i + 1)).setThread t
          (.destroyLoad x b (i + 1)))
      else (s.setSlot b i { s.slot b i with read := true }).setThread t
        (.ret (.popped (some x)))) a none := by
  split_ifs with hd
  · simpa [St.setSweep, St.setSlot, St.setBlock] using pop_mark_destroy h hpc hq hi hv hr hd
  · exact pop_mark h hpc hq hi hv

/-- Every step of a thread is matched. -/
lemma thread_sim (hw : 6 ≤ w) (h : Rel s a) {spurious : Bool}
    (hturn : Timely (.thread t spurious) s)
    (hstep : threadStep spurious t s = some (s', l)) : Sim s' a l := by
  have hm := h.mem
  have hok := h.thread t
  generalize hpc : s.thread t = p at hok
  generalize hq : a.thread t = q at hok
  unfold threadStep at hstep
  unfold Timely compared at hturn
  simp only [hpc] at hturn hstep
  cases hok with
  | idle => cases hstep
  | ret r =>
    cases hstep
    exact .go (.ret hq) (h.go t .idle (by simp [hpc, Pc.rights]))
  | pushLoadIndex x next =>
    cases hstep
    exact .stay hq (h.go t (.pushLoadBlock x next _ ⟨hm.tailIndex, le_rfl⟩)
      (by simp [hpc, Pc.rights]))
  | pushLoadBlock x next tail hs =>
    cases hstep
    refine .stay hq (h.go t (threadOk_pushCheck hw h hs) ?_)
    rw [hpc]
    unfold pushCheck
    split_ifs
    · rfl
    · cases s.tailBlock <;> rfl
  | pushInstall x next tail hr =>
    cases hb : s.tailBlock with
    | none =>
      simp only [hb] at hstep
      cases hstep
      exact push_install h (by simp [hpc, Pc.rights]) hq hr hb
    | some b =>
      simp only [hb] at hstep
      cases hstep
      exact .stay hq (h.go t (.pushLoadIndex x true) (by simp [hpc, Pc.rights]))
  | pushStoreHead x next tail hr h0 hh htb =>
    cases hstep
    exact push_store_head h hpc hq hr h0 hh htb
  | pushCas x next tail b hr htb hb =>
    simp only at hstep
    by_cases hcas : spurious = false ∧ s.tailIndex = tail.index
    · rw [if_pos hcas] at hstep
      cases hstep
      exact push_cas hw h (by simp [hpc, Pc.rights]) hq hr htb hb (hturn _ rfl) hcas.2
    · rw [if_neg hcas] at hstep
      cases hstep
      exact .stay hq (h.go t (.pushLoadBlock x next _ ⟨hm.tailIndex, le_rfl⟩)
        (by simp [hpc, Pc.rights]))
  | pushStoreBlock x b hw' hp hb hc =>
    cases hstep
    exact push_store_block h hpc hq hw' hp hc
  | pushStoreIndex x b hw' hp hb hc =>
    cases hstep
    exact push_store_index h hpc hq hw' hp hb hc
  | pushStoreNext x b hw' hp =>
    cases hstep
    rw [touch_eq (hm.not_freed_of_write hw'.lt hw'.write)]
    exact push_store_next h hpc hq hw' hp
  | pushWrite x b i hw' =>
    cases hstep
    have hf := hm.not_freed_of_write hw'.lt hw'.write
    have hs : { s.touch b with
        fault := s.fault || (s.block b).freed || (s.slot b i).value.item?.isSome } = s := by
      rw [touch_eq hf, hf, hw'.value]
      simp [Slots.Slot.item?]
    rw [hs]
    exact push_write h hpc hq hw'
  | pushMark x b i hi hx hv hw' =>
    cases hstep
    rw [touch_eq (hm.not_freed_of_write hi hw')]
    exact push_mark h hpc hq hi hx hv
  | popLoadIndex =>
    cases hstep
    obtain ⟨c, hc, hlt⟩ := hm.headIndex
    exact .stay hq (h.go t (.popLoadBlock _ c ⟨hc, le_rfl, hlt⟩) (by simp [hpc, Pc.rights]))
  | popLoadBlock head c hs =>
    cases hstep
    refine .stay hq (h.go t (threadOk_popCheck hw h hs) ?_)
    rw [hpc]
    unfold popCheck popReady
    split_ifs
    · rfl
    · rfl
    · cases s.headBlock <;> rfl
  | popLoadTail head block hs ht hb =>
    simp only at hstep
    have hsim := pop_load_tail hw h hpc hq hs ht hb
    split_ifs at hstep hsim <;> cases hstep <;> exact hsim
  | popCas head c d b hs ht hb hlt hd =>
    simp only at hstep
    by_cases hcas : spurious = false ∧ s.headIndex = head.index
    · rw [if_pos hcas] at hstep
      cases hstep
      exact pop_cas hw h (by simp [hpc, Pc.rights]) hq hs ht hb hlt hd (hturn _ rfl) hcas.2
    · rw [if_neg hcas] at hstep
      cases hstep
      obtain ⟨c, hc, hlt⟩ := hm.headIndex
      exact .stay hq (h.go t (.popLoadBlock _ c ⟨hc, le_rfl, hlt⟩) (by simp [hpc, Pc.rights]))
  | popWaitNext x b d hr hp =>
    cases hstep
    exact pop_wait_next h hpc hq hr hp
  | popLoadNext x b d hr hp ht =>
    cases hstep
    exact pop_load_next h hpc hq hr hp ht
  | popStoreBlock x b d hr hp ht hd =>
    cases hstep
    exact pop_store_block h hpc hq hr hp ht hd
  | popStoreIndex x b d hr hp ht hd =>
    cases hstep
    exact pop_store_index h hpc hq hr hp ht hd
  | popWaitWrite x b i hr =>
    cases hstep
    rw [touch_eq (hm.not_freed_of_moved hr.lt hr.moved)]
    split_ifs with hmark
    · exact .stay hq (h.go t (.popRead x b i hr hmark) (by simp [hpc, Pc.rights]))
    · exact .stay hq (h.go t (.popWaitWrite x b i hr) (by simp [hpc, Pc.rights]))
  | popRead x b i hr hmark =>
    simp only [hr.live hm hmark] at hstep
    rw [touch_eq (hm.not_freed_of_moved hr.lt hr.moved)] at hstep
    split_ifs at hstep with hlast
    · cases hstep
      obtain rfl : i = 30 := by
        simp only [blockCap] at hlast
        omega
      simpa [St.setSweep, St.setSlot, St.setBlock] using pop_read_last h hpc hq hr hmark
    · cases hstep
      have hi : i < 30 := by
        have := hr.lt
        simp only [blockCap] at hlast
        omega
      exact pop_read h hpc hq hr hi hmark
  | popMark x b i hi hv hr =>
    simp only at hstep
    rw [touch_eq (hm.not_freed_of_read hi hr)] at hstep
    have hsim := pop_mark_read h hpc hq hi hv hr
    split_ifs at hstep hsim <;> cases hstep <;> exact hsim
  | destroyLoad x b i hs =>
    simp only at hstep
    rw [touch_eq hs.freed] at hstep
    split_ifs at hstep with hi hr
    · cases hstep
      exact destroy_pass h hpc hq hi hs hr
    · cases hstep
      exact .stay hq (h.go t (.destroyOr x b i hi hs) (by simp [hpc, Pc.rights]))
    · cases hstep
      exact destroy_free h hpc hq hi hs
  | destroyOr x b i hi hs =>
    simp only at hstep
    rw [touch_eq hs.freed] at hstep
    split_ifs at hstep with hr
    · cases hstep
      simpa [St.setSweep, St.setSlot, St.setBlock] using destroy_ask_pass h hpc hq hi hs hr
    · cases hstep
      exact destroy_ask h hpc hq hs
  | emptyLoadHead =>
    cases hstep
    obtain ⟨c, hc, hlt⟩ := hm.headIndex
    exact .stay hq (h.go t (.emptyLoadTail _ c ⟨hc, le_rfl, hlt⟩) (by simp [hpc, Pc.rights]))
  | emptyLoadTail head c hs =>
    cases hstep
    exact empty_load_tail hw h hpc hq hs

/-- Every call is matched. -/
lemma call_sim (h : Rel s a) {op : Op T} (hstep : step (.call t op) s = some (s', l)) :
    Sim s' a l := by
  have hok := h.thread t
  generalize hpc : s.thread t = p at hok
  generalize hq : a.thread t = q at hok
  unfold step at hstep
  simp only [hpc] at hstep
  cases hok with
  | idle =>
    cases hstep
    refine .go (.call op hq) (h.go t ?_ ?_)
    · cases op with
      | push x => exact .pushLoadIndex x false
      | pop => exact .popLoadIndex
      | isEmpty => exact .emptyLoadHead
    · rw [hpc]
      cases op <;> rfl
  | _ => cases hstep

omit [DecidableEq A] in
lemma rel_init : Rel (init : St w T A) Unbounded.init where
  mem := {
    fault := rfl
    tailIndex := rfl
    headIndex := ⟨false, rfl, by simp⟩
    pushed := tick_zero.symm
    popped := tick_zero.symm
    le := le_rfl
    tailNone := fun _ => ⟨rfl, rfl⟩
    tailSome := by simp [init]
    headNone := fun _ => rfl
    noBlock := fun _ => rfl
    headSome := by simp [init]
    next := by simp [init, Block.new]
    slot := fun b i _ => by
      constructor <;> simp [init, Block.new, St.slot, Slot.Moved]
    block := fun b => by
      constructor <;> simp [init, Block.new] }
  thread := fun _ => .idle
  exclusive := by
    intro t u r hr
    simp [init, Pc.rights] at hr
  pending := by
    intro b i _ hlt
    simp [Unbounded.init] at hlt

/-- The unbounded queue simulates the injector. -/
theorem simulation (hw : 6 ≤ w) : Lts.Simulation (lts w T A) (Unbounded.lts T A) Rel where
  init := by
    rintro s rfl
    exact ⟨_, rfl, rel_init⟩
  step := by
    rintro s a l s' h ⟨cmd, hturn, hstep⟩
    cases cmd with
    | call t op => exact call_sim h hstep
    | thread t spurious => exact thread_sim hw h hturn hstep

/-- **The injector is a linearizable unbounded queue.** Every run of it, for any number of
threads and every order of their accesses, shows a trace of the queue that numbers the pushed
values in the order of their tickets and lets the `k`-th pop take the `k`-th of them. A pop finds
nothing, and the injector is found empty, only when it is, but for the calls that the trace marks
as lapped: at their load of the tail it was a full turn ahead of their load of the head. No run
reads a slot before it was written, writes one twice or touches a block that was freed, and the
head never passes the tail. -/
theorem injector_linearizable (hw : 6 ≤ w) {tr : List (Event T A)} {s : St w T A}
    (h : (lts w T A).Reaches tr s) :
    s.fault = false ∧ s.headPos ≤ s.tailPos ∧
      ∃ a, (Unbounded.lts T A).Reaches tr a ∧ Rel s a ∧ a.popped ≤ a.pushed.length := by
  obtain ⟨a, ha, hr⟩ := (simulation hw).reaches h
  exact ⟨hr.mem.fault, hr.mem.le, a, ha, hr, Unbounded.popped_le_of_reaches ha⟩

/-- Steps of one thread, without spurious failures. -/
def stepsOf (t : Bool) (n : ℕ) : List (Cmd T Bool) := List.replicate n (.thread t false)

/-- A pop takes the ticket of a push that has not written its slot, and waits for it. -/
theorem injector_linearizable_pop_waits : ∃ s : St 8 ℕ Bool, (lts 8 ℕ Bool).Reaches
    [.call true (.push 7), .call false .pop, .ret true .pushed, .ret false (.popped (some 7))] s ∧
    (s.fault = false ∧ s.headPos ≤ s.tailPos ∧ ∃ a, (Unbounded.lts ℕ Bool).Reaches
      [.call true (.push 7), .call false .pop, .ret true .pushed, .ret false (.popped (some 7))] a ∧
      Rel s a ∧ a.popped ≤ a.pushed.length) := by
  have hr : (Lts.runs step Timely (.call true (.push 7) :: stepsOf true 5 ++
      .call false .pop :: stepsOf false 6 ++ stepsOf true 3 ++ stepsOf false 4)
      (init : St 8 ℕ Bool)).map Prod.fst = some
      [.call true (.push 7), .call false .pop, .ret true .pushed,
        .ret false (.popped (some 7))] := by decide
  obtain ⟨⟨_, s⟩, hs, rfl⟩ := Option.map_eq_some_iff.mp hr
  have h : (lts 8 ℕ Bool).Reaches _ s := Lts.reaches_of_runs rfl hs
  exact ⟨s, h, injector_linearizable (by decide) h⟩

/-- No compare-exchange comes a full turn late, and fewer than a quarter of a turn of values are
outstanding. -/
def Sparse (cmd : Cmd T A) (s : St w T A) : Prop :=
  Timely cmd s ∧ tick s.tailPos < tick s.headPos + 2 ^ (w - 2)

instance (cmd : Cmd T A) (s : St w T A) : Decidable (Sparse cmd s) :=
  inferInstanceAs (Decidable (_ ∧ _))

/-- A push of one thread that meets nobody, and a pop, of so many steps. -/
def pushPop (n m : ℕ) : List (Cmd Unit Bool) :=
  .call false (.push ()) :: stepsOf false n ++ .call false .pop :: stepsOf false m

/-- The rest of a block that holds one value is pushed and all but its last value is popped. -/
def toLastSlot : List (Cmd Unit Bool) := (List.replicate 29 (pushPop 6 8)).flatten

/-- One thread takes the tail through a full turn. -/
def fullTurn : List (Cmd Unit Bool) :=
  (List.replicate 3 (toLastSlot ++ pushPop 9 8 ++ pushPop 6 41)).flatten ++ toLastSlot ++
    .call false (.push ()) :: stepsOf false 9

/-- Without the marks the queue would not do: a pop has loaded the head when another thread takes
the tail through a full turn, with one value or two in the injector all the time. It finds the tail
at the index of its load, and nothing to pop. -/
theorem pop_none_not_empty : ¬ ∀ w, 8 ≤ w → ∀ (cmds cmds' : List (Cmd Unit Bool))
    (s s' : St w Unit Bool) (tr tr' : List (Event Unit Bool)),
    Lts.runs step Sparse cmds init = some (tr, s) →
    Lts.runs step (fun cmd s => Sparse cmd s ∧ tick s.headPos < tick s.tailPos)
      (.call true .pop :: cmds') s = some (tr', s') → .ret true (.popped none) ∉ tr' := by
  intro h
  have hrun : (Lts.runs step Sparse (.call false (.push ()) :: stepsOf false 8)
      (init : St 8 Unit Bool)).bind (fun p =>
        (Lts.runs step (fun cmd s => Sparse cmd s ∧ tick s.headPos < tick s.tailPos)
          (.call true .pop :: (stepsOf true 2 ++ fullTurn ++ stepsOf true 2)) p.2).map fun q =>
            q.1.getLast?) = some (some (.ret true (.popped none))) := by
    decide +kernel
  obtain ⟨⟨tr, s⟩, hs, hrest⟩ := Option.bind_eq_some_iff.mp hrun
  obtain ⟨⟨tr', s'⟩, hs', hlast⟩ := Option.map_eq_some_iff.mp hrest
  exact h 8 le_rfl _ _ s s' tr tr' hs hs' (List.mem_of_getLast? hlast)

end St3.Injector
