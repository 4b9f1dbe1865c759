import St3.InjectorFree

/-!
The end of the injector: which blocks a run frees, what `drop` finds when no call is under
way, and that the two together free every block once and lose no value.
-/

namespace St3.Injector

open Words Unbounded

variable {w : ℕ} {T A : Type*}

/-! ### Accesses and frees -/

/-- The block that the next access is to, if it is to one. -/
def Pc.accesses : Pc w T → Option ℕ
  | .pushStoreNext _ b _ => some b
  | .pushWrite _ b _ => some b
  | .pushMark _ b _ => some b
  | .popWaitNext _ b => some b
  | .popLoadNext _ _ next => some next
  | .popWaitWrite b _ => some b
  | .popRead b _ => some b
  | .popMark _ b _ => some b
  | .destroyLoad _ b _ => some b
  | .destroyOr _ b _ => some b
  | _ => none

/-- The block that a step frees: `destroy` has run through all of its slots. -/
def frees (cmd : Cmd T A) (s : St w T A) : Option ℕ :=
  match cmd with
  | .call _ _ => none
  | .thread a _ =>
    match s.thread a with
    | .destroyLoad _ b i => if i < blockCap - 1 then none else some b
    | _ => none

/-! ### `drop` -/

/-- `drop` at work: its locals, the memory, and what it has dropped and freed so far. -/
structure Dropping (w : ℕ) (T A : Type*) where
  head : BitVec w
  block : Option ℕ
  st : St w T A
  dropped : List T
  freed : List ℕ

/-- `assume_init_drop` of the value of a slot. -/
def Dropping.dropValue (d : Dropping w T A) (b i : ℕ) : Dropping w T A :=
  match (d.st.slot b i).value with
  | .live x =>
    { d with
      st := (d.st.touch b).setSlot b i { d.st.slot b i with value := .moved x }
      dropped := d.dropped ++ [x] }
  | _ => { d with st := { d.st with fault := true } }

/-- `drop(Box::from_raw(block))`. -/
def Dropping.dropBlock (d : Dropping w T A) (b : ℕ) : Dropping w T A :=
  { d with
    st := (d.st.touch b).setBlock b { d.st.block b with freed := true }
    freed := d.freed ++ [b] }

/-- The body of the loop of `drop`. -/
def Dropping.body (d : Dropping w T A) : Dropping w T A :=
  match d.block with
  | none => { d with st := { d.st with fault := true } }
  | some b =>
    let d' :=
      if offset d.head < blockCap then d.dropValue b (offset d.head)
      else { d.dropBlock b with block := (d.st.block b).next }
    { d' with head := d.head + one w }

/-- `while head != tail`. -/
def Dropping.loop (tail : BitVec w) : ℕ → Dropping w T A → Option (Dropping w T A)
  | 0, _ => none
  | n + 1, d => if d.head = tail then some d else loop tail n d.body

def Dropping.last (d : Dropping w T A) : Dropping w T A :=
  match d.block with
  | none => d
  | some b => d.dropBlock b

/-- `Drop for Injector`. -/
def drop (fuel : ℕ) (s : St w T A) : Option (Dropping w T A) :=
  (Dropping.loop (clearHasNext s.tailIndex) fuel
    ⟨clearHasNext s.headIndex, s.headBlock, s, [], []⟩).map Dropping.last

variable {s s' : St w T A} {a : Unbounded.St T A}

/-! ### No block is touched after it was freed -/

lemma Rel.not_freed (h : Rel s a) {t : A} {b : ℕ} (hb : (s.thread t).accesses = some b) :
    (s.block b).freed = false := by
  have hm := h.mem
  have hok := h.thread t
  generalize s.thread t = p at hok hb
  generalize a.thread t = q at hok
  cases hok <;> cases hb
  case pushStoreNext h _ => exact hm.not_freed_of_write h.lt h.write
  case pushWrite h => exact hm.not_freed_of_write h.lt h.write
  case pushMark hi hx hv hw => exact hm.not_freed_of_write hi hw
  case popLoadNext h hp ht => exact hm.not_freed_next hp.1
  case popMark hi hv hr => exact hm.not_freed_of_read hi hr
  case destroyLoad h => exact h.freed
  case destroyOr hi h => exact h.freed
  all_goals exact hm.not_freed_of_moved (ReadOk.lt ‹_›) (ReadOk.moved ‹_›)

/-- A block is freed when all of its values were read and its successor was linked. -/
lemma Rel.of_frees (h : Rel s a) (hk : Kept s) {cmd : Cmd T A} {b : ℕ} (hb : frees cmd s = some b) :
    (s.block b).freed = false ∧ (∀ i < 31, (s.slot b i).Moved) ∧ (s.block b).next ≠ none := by
  have hm := h.mem
  cases cmd with
  | call t op => cases hb
  | thread t spurious =>
    have hok := h.thread t
    simp only [frees] at hb
    generalize s.thread t = p at hok hb
    generalize a.thread t = q at hok
    cases hok <;> simp only [reduceCtorEq] at hb
    case destroyLoad x c i hs =>
      split_ifs at hb with hi
      cases hb
      obtain ⟨hle, hlast, hread⟩ := (hm.block b).sweep i hs.sweep
      simp only [blockCap] at hi
      refine ⟨hs.freed, fun j hj => ?_, hk.sweep b (by simp [hs.sweep])⟩
      by_cases h30 : j = 30
      · exact h30 ▸ hlast
      · exact (hm.slot b j hj).read (hread j (by omega))

/-! ### A block is freed by a step that frees it -/

@[simp] lemma touch_block (b : ℕ) : (s.touch b).block = s.block := rfl

@[simp] lemma setSlot_freed (b c i : ℕ) (sl : Slot T) :
    ((s.setSlot b i sl).block c).freed = (s.block c).freed := by
  by_cases hc : c = b
  · subst hc
    simp [St.setSlot, St.setBlock]
  · simp [St.setSlot, St.setBlock, hc]

@[simp] lemma setSweep_freed (b c i : ℕ) :
    ((s.setSweep b i).block c).freed = (s.block c).freed := by
  by_cases hc : c = b
  · subst hc
    simp [St.setSweep, St.setBlock]
  · simp [St.setSweep, St.setBlock, hc]

variable [DecidableEq A] {l : Option (Event T A)}

@[simp] lemma setThread_block (t : A) (p : Pc w T) : (s.setThread t p).block = s.block := rfl

lemma freed_step {cmd : Cmd T A} (hstep : step cmd s = some (s', l)) (b : ℕ) :
    (s'.block b).freed = true ↔ (s.block b).freed = true ∨ frees cmd s = some b := by
  cases cmd with
  | call t op =>
    unfold step at hstep
    cases hpc : s.thread t <;> simp only [hpc] at hstep <;> cases hstep
    simp [frees]
  | thread t spurious =>
    unfold step threadStep at hstep
    unfold frees
    cases hpc : s.thread t <;> simp only [hpc] at hstep ⊢
    case idle => cases hstep
    case destroyLoad x c i =>
      split_ifs at hstep ⊢ with hi hr
      · cases hstep
        simp
      · cases hstep
        simp
      · cases hstep
        by_cases hc : b = c
        · subst hc
          simp [St.setBlock]
        · simp [St.setBlock, hc, Ne.symm hc]
    case pushStoreNext x c n =>
      cases hstep
      by_cases hc : b = c
      · subst hc
        simp [St.setBlock]
      · simp [St.setBlock, hc]
    case pushInstall x next tail =>
      cases hb : s.tailBlock <;> simp only [hb] at hstep <;> cases hstep <;> simp
    case popRead c i =>
      cases hv : (s.slot c i).value <;> simp only [hv] at hstep
      · cases hstep
        simp
      · split_ifs at hstep <;> cases hstep <;> simp
      · cases hstep
        simp
    all_goals
      first
      | split_ifs at hstep <;> cases hstep <;> simp
      | cases hstep; simp

/-- The blocks that a run frees, in order. -/
def freedIn : List (Cmd T A) → St w T A → List ℕ
  | [], _ => []
  | cmd :: cmds, s => (frees cmd s).toList ++
    match step cmd s with
    | none => []
    | some (s', _) => freedIn cmds s'

/-- The blocks freed along a run are those that are freed at its end and were not at its start,
each once. -/
lemma freedIn_spec (hw : 6 ≤ w) {cmds : List (Cmd T A)} {tr : List (Event T A)} (h : Rel s a)
    (hk : Kept s) (hr : Lts.runs step Timely cmds s = some (tr, s')) :
    (freedIn cmds s).Nodup ∧ (∀ b ∈ freedIn cmds s, (s.block b).freed = false) ∧
      ∀ b, (s'.block b).freed = true ↔ (s.block b).freed = true ∨ b ∈ freedIn cmds s := by
  induction cmds generalizing s a tr with
  | nil =>
    simp only [Lts.runs, Option.some.injEq, Prod.mk.injEq] at hr
    obtain ⟨-, rfl⟩ := hr
    simp [freedIn]
  | cons cmd cmds ih =>
    simp only [Lts.runs, Option.ite_none_right_eq_some, Option.bind_eq_some_iff,
      Option.map_eq_some_iff, Prod.mk.injEq] at hr
    obtain ⟨hok, ⟨s₁, l⟩, hs, ⟨tr', s₂⟩, hr', rfl, rfl⟩ := hr
    obtain ⟨a₁, -, h₁⟩ := (simulation hw).step h ⟨cmd, hok, hs⟩
    have hk₁ : Kept s₁ := kept_step hw h hk hok hs
    obtain ⟨hnd, hnew, hall⟩ := ih h₁ hk₁ hr'
    have hstep := freed_step hs
    simp only [freedIn, hs]
    refine ⟨?_, fun b hb => ?_, fun b => ?_⟩
    · refine List.nodup_append.mpr ⟨by cases frees cmd s <;> simp, hnd, ?_⟩
      rintro b hb _ hb' rfl
      have hf := (hstep b).mpr (.inr (by simpa using hb))
      rw [hnew b hb'] at hf
      cases hf
    · rcases List.mem_append.mp hb with hfree | hlater
      · exact (h.of_frees hk (by simpa using hfree)).1
      · have hf := hnew b hlater
        by_contra hc
        rw [(hstep b).mpr (.inl (by simpa using hc))] at hf
        cases hf
    · rw [hall, hstep, or_assoc, List.mem_append]
      simp

/-! ### The injector when no call is under way -/

/-- What `drop` finds. -/
structure AtRest (s : St w T A) (a : Unbounded.St T A) : Prop where
  mem : MemRel s a
  tail : s.tailPos % 32 ≠ 31
  head : s.headPos % 32 ≠ 31
  headBlock : s.headBlock = none → s.tailPos = 0 ∧ s.count = 0
  tailBlock : s.tailBlock = none → s.headBlock = none
  next : ∀ b, 32 * b + 32 ≤ s.tailPos → (s.block b).next = some (b + 1)
  live : ∀ b i x, i < 31 → a.popped ≤ 31 * b + i → a.pushed[31 * b + i]? = some x →
    (s.slot b i).value = .live x
  freed : ∀ b, (s.block b).freed = true ↔ b < s.headPos / 32

omit [DecidableEq A] in
/-- Nothing is owed when no call is under way. -/
lemma atRest (h : Rel s a) (hk : Kept s) (hidle : ∀ t, s.thread t = .idle) : AtRest s a := by
  have hm := h.mem
  have hnot : ∀ e, ¬ Owed s e := by
    intro e he
    obtain ⟨t, ht⟩ := hk.duty e he
    rw [hidle t] at ht
    cases ht
  have hread : ∀ b i, i < 31 → 31 * b + i < tick s.headPos → (s.block b).Done i := by
    intro b i hi hlt
    by_contra hd
    exact hnot (.read b i) ⟨hi, hlt, hd⟩
  have hfirst : s.headBlock = none → s.tailBlock = none := by
    intro hn
    by_contra hb
    exact hnot .first ⟨hn, hb⟩
  have hhead : s.headPos % 32 ≠ 31 := hnot .head
  refine ⟨hm, hnot .tail, hhead, fun hn => hm.tailNone (hfirst hn), hm.noBlock, fun b hb => ?_,
    fun b i x hi hp hx => ?_, fun b => ⟨fun hf => ?_, fun hlt => ?_⟩⟩
  · cases hn : (s.block b).next with
    | none => exact absurd ⟨hb, hn⟩ (hnot (.next b))
    | some m => rw [(hm.next b m hn).1]
  · rcases h.pending b i hi (List.getElem?_eq_some_iff.mp hx).1 with hw | ⟨t, ht⟩
    · obtain ⟨y, hy, hl | hmv⟩ := (hm.slot b i hi).written hw
      · obtain rfl : x = y := Option.some.inj (hx.symm.trans hy)
        exact hl
      · exact absurd ⟨y, hmv⟩ ((hm.slot b i hi).unread hp).1
    · rw [hidle t] at ht
      cases ht
  · -- the last value of a freed block was read
    obtain ⟨-, hlast, -⟩ := (hm.block b).sweep 30 ((hm.block b).freed hf)
    by_contra hge
    have htick := tick_eq s.headPos
    have hpop := hm.popped
    exact ((hm.slot b 30 (by omega)).unread (by omega)).1 hlast
  · have htick := tick_eq s.headPos
    have hbegun : (s.block b).sweep ≠ none := by
      rcases hread b 30 (by omega) (by omega) with ⟨hlt30, -⟩ | ⟨-, hs⟩
      · omega
      · exact hs
    by_contra hf
    refine hnot (.sweep b) ⟨hbegun, by simpa using hf, ?_⟩
    rintro ⟨j, hj, -, -, hr⟩
    rcases hread b j (by omega) (by omega) with ⟨-, hr'⟩ | ⟨rfl, -⟩
    · rw [hr] at hr'
      cases hr'
    · omega

/-! ### The loop of `drop` -/

/-- `drop` has come to position `n`. -/
structure Dropping.At (s : St w T A) (a : Unbounded.St T A) (n : ℕ) (d : Dropping w T A) :
    Prop where
  head : d.head = idx w n false
  block : d.block = some (n / 32)
  fault : d.st.fault = false
  here : ∀ b, n / 32 ≤ b → (d.st.block b).freed = false
  next : ∀ b, n / 32 ≤ b → (d.st.block b).next = (s.block b).next
  value : ∀ b i, i < 31 → tick n ≤ 31 * b + i → (d.st.slot b i).value = (s.slot b i).value
  dropped : d.dropped = (a.pushed.take (tick n)).drop a.popped
  freed : d.freed = List.range' (s.headPos / 32) (n / 32 - s.headPos / 32)

section
variable {d : Dropping w T A} {n : ℕ}

omit [DecidableEq A] in
/-- A position that is a ticket: the value of its slot is dropped. -/
lemma Dropping.At.slot (hw : 6 ≤ w) (hs : AtRest s a) (hd : d.At s a n) (hle : s.headPos ≤ n)
    (hlt : n < s.tailPos) (hn : n % 32 ≠ 31) : d.body.At s a (n + 1) := by
  have htick := tick_eq n
  have hsucc := tick_succ hn
  have hpop : a.popped ≤ tick n := hs.mem.popped ▸ tick_mono hle
  have hlen : tick n < a.pushed.length := by
    have := tick_mono (show n + 1 ≤ s.tailPos by omega)
    rw [hs.mem.pushed]
    omega
  obtain ⟨x, hx⟩ : ∃ x, a.pushed[tick n]? = some x := ⟨_, List.getElem?_eq_getElem hlen⟩
  have hv : (d.st.slot (n / 32) (n % 32)).value = .live x := by
    rw [hd.value _ _ (by omega) (by omega)]
    exact hs.live _ _ x (by omega) (by omega) (by rwa [← htick])
  have hf := hd.here (n / 32) le_rfl
  have hbody : d.body = { d with
      head := idx w (n + 1) false
      st := d.st.setSlot (n / 32) (n % 32)
        { d.st.slot (n / 32) (n % 32) with value := .moved x }
      dropped := d.dropped ++ [x] } := by
    have hoff : offset d.head = n % 32 := by rw [hd.head, offset_idx hw]
    have htouch : d.st.touch (n / 32) = d.st := touch_eq hf
    unfold Dropping.body Dropping.dropValue
    simp only [hd.block, hoff, hv, htouch, if_pos (show n % 32 < 31 by omega)]
    rw [hd.head, idx_add_one]
  have hdiv : (n + 1) / 32 = n / 32 := by omega
  rw [hbody]
  refine ⟨rfl, by rw [hdiv]; exact hd.block, hd.fault, fun b hb => ?_, fun b hb => ?_,
    fun b i hi hbi => ?_, ?_, by rw [hdiv]; exact hd.freed⟩
  · simp only [setSlot_freed]
    exact hd.here b (by omega)
  · rw [← hd.next b (by omega)]
    by_cases hb' : b = n / 32
    · subst hb'
      simp [St.setSlot, St.setBlock]
    · simp [St.setSlot, St.setBlock, hb']
  · rw [hsucc] at hbi
    rw [← hd.value b i hi (by omega)]
    by_cases hb' : b = n / 32
    · subst hb'
      have hne : i ≠ n % 32 := by omega
      simp [St.setSlot, St.setBlock, St.slot, hne]
    · simp [St.setSlot, St.setBlock, St.slot, hb']
  · rw [hsucc, List.take_add_one, hx, hd.dropped, Option.toList_some,
      List.drop_append_of_le_length (by rw [List.length_take]; omega)]

omit [DecidableEq A] in
/-- The position behind the last slot of a block: the block is freed. -/
lemma Dropping.At.park (hw : 6 ≤ w) (hs : AtRest s a) (hd : d.At s a n) (hle : s.headPos ≤ n)
    (hlt : n < s.tailPos) (hn : n % 32 = 31) : d.body.At s a (n + 1) := by
  have htick := tick_eq n
  have hsucc := tick_park hn
  have hf := hd.here (n / 32) le_rfl
  have hnext : (d.st.block (n / 32)).next = some (n / 32 + 1) := by
    rw [hd.next _ le_rfl]
    exact hs.next _ (by omega)
  have hbody : d.body = { d with
      head := idx w (n + 1) false
      block := some (n / 32 + 1)
      st := d.st.setBlock (n / 32) { d.st.block (n / 32) with freed := true }
      freed := d.freed ++ [n / 32] } := by
    have hoff : offset d.head = n % 32 := by rw [hd.head, offset_idx hw]
    have htouch : d.st.touch (n / 32) = d.st := touch_eq hf
    unfold Dropping.body Dropping.dropBlock
    simp only [hd.block, hoff, hnext, htouch, if_neg (show ¬ n % 32 < 31 by omega)]
    rw [hd.head, idx_add_one]
  have hdiv : (n + 1) / 32 = n / 32 + 1 := by omega
  have hother : ∀ b, n / 32 + 1 ≤ b →
      (d.st.setBlock (n / 32) { d.st.block (n / 32) with freed := true }).block b
        = d.st.block b := by
    intro b hb
    have hne : b ≠ n / 32 := by omega
    simp [St.setBlock, hne]
  rw [hbody]
  refine ⟨rfl, by rw [hdiv], hd.fault, fun b hb => ?_, fun b hb => ?_, fun b i hi hbi => ?_,
    by rw [hsucc]; exact hd.dropped, ?_⟩
  · rw [hdiv] at hb
    simp only [hother b hb]
    exact hd.here b (by omega)
  · rw [hdiv] at hb
    simp only [hother b hb]
    exact hd.next b (by omega)
  · rw [hsucc] at hbi
    rw [← hd.value b i hi hbi]
    simp only [St.slot, hother b (by omega)]
  · have hspan : (n + 1) / 32 - s.headPos / 32 = n / 32 - s.headPos / 32 + 1 := by omega
    rw [hspan, List.range'_1_concat, hd.freed]
    simp only [List.append_cancel_left_eq, List.cons.injEq, and_true]
    omega

omit [DecidableEq A] in
/-- The loop comes to the tail. -/
lemma Dropping.At.loop (hw : 6 ≤ w) (hs : AtRest s a) (hturn : s.tailPos < s.headPos + 2 ^ (w - 1))
    {fuel : ℕ} (hd : d.At s a n) (hle : s.headPos ≤ n) (hn : n ≤ s.tailPos)
    (hfuel : s.tailPos - n < fuel) :
    ∃ d', Dropping.loop (idx w s.tailPos false) fuel d = some d' ∧ d'.At s a s.tailPos := by
  induction fuel generalizing d n with
  | zero => omega
  | succ fuel ih =>
    unfold Dropping.loop
    by_cases he : d.head = idx w s.tailPos false
    · have heq := (idx_inj hw hn (by omega) (he.symm.trans hd.head)).1
      exact ⟨d, if_pos he, heq ▸ hd⟩
    · have hlt : n < s.tailPos := by
        rcases Nat.lt_or_eq_of_le hn with hlt | rfl
        · exact hlt
        · exact absurd hd.head he
      rw [if_neg he]
      have hnext : d.body.At s a (n + 1) := by
        by_cases hp : n % 32 = 31
        · exact hd.park hw hs hle hlt hp
        · exact hd.slot hw hs hle hlt hp
      exact ih hnext (by omega) (by omega) (by omega)

end

omit [DecidableEq A] in
lemma AtRest.headPos_le_count (hs : AtRest s a) : s.headPos / 32 ≤ s.count := by
  have hle := hs.mem.le
  cases hb : s.tailBlock with
  | none =>
    have := (hs.mem.tailNone hb).1
    omega
  | some b =>
    have := (hs.mem.tailSome b hb hs.tail).2
    omega

omit [DecidableEq A] in
/-- `drop` on an injector at rest. -/
lemma AtRest.drop (hw : 6 ≤ w) (hs : AtRest s a) (hturn : s.tailPos < s.headPos + 2 ^ (w - 1))
    {fuel : ℕ} (hfuel : s.tailPos - s.headPos < fuel) :
    ∃ d, Injector.drop fuel s = some d ∧ d.st.fault = false ∧
      d.dropped = a.pushed.drop a.popped ∧
      d.freed = List.range' (s.headPos / 32) (s.count - s.headPos / 32) := by
  have hm := hs.mem
  obtain ⟨c, hc, -⟩ := hm.headIndex
  unfold Injector.drop
  rw [hc, hm.tailIndex, clearHasNext_idx, clearHasNext_idx]
  cases hb : s.headBlock with
  | none =>
    obtain ⟨ht0, hc0⟩ := hs.headBlock hb
    have hh0 := hm.headNone hb
    obtain ⟨k, rfl⟩ : ∃ k, fuel = k + 1 := ⟨fuel - 1, by omega⟩
    refine ⟨⟨idx w 0 false, none, s, [], []⟩, ?_, hm.fault, ?_, by simp [hc0]⟩
    · simp [Dropping.loop, Dropping.last, ht0, hh0]
    · have hlen := hm.pushed
      rw [ht0, tick_zero, List.length_eq_zero_iff] at hlen
      simp [hlen]
  | some b =>
    obtain ⟨b', hb'⟩ := Option.ne_none_iff_exists'.mp (mt hs.tailBlock (by simp [hb]))
    obtain ⟨-, hcount⟩ := hm.tailSome b' hb' hs.tail
    obtain rfl := hm.headSome b hb hs.head
    have hstart : Dropping.At s a s.headPos
        ⟨idx w s.headPos false, some (s.headPos / 32), s, [], []⟩ := by
      refine ⟨rfl, rfl, hm.fault, fun b hle => ?_, fun _ _ => rfl, fun _ _ _ _ => rfl, ?_, by simp⟩
      · have := (hs.freed b).not.mpr (by omega)
        simpa using this
      · rw [hm.popped]
        exact (List.drop_eq_nil_of_le (List.length_take_le _ _)).symm
    obtain ⟨d, hd, hat⟩ := hstart.loop hw hs hturn le_rfl hm.le hfuel
    have hf := hat.here _ le_rfl
    refine ⟨d.dropBlock (s.tailPos / 32), ?_, ?_, ?_, ?_⟩
    · rw [hd, Option.map_some, Dropping.last, hat.block]
    · simp [Dropping.dropBlock, St.touch, St.setBlock, hat.fault, hf]
    · show d.dropped = _
      rw [hat.dropped, ← hm.pushed, List.take_length]
    · show d.freed ++ [s.tailPos / 32] = _
      have hle : s.headPos / 32 ≤ s.tailPos / 32 := Nat.div_le_div_right hm.le
      have hspan : s.count - s.headPos / 32 = s.tailPos / 32 - s.headPos / 32 + 1 := by omega
      rw [hspan, List.range'_1_concat, hat.freed]
      simp only [List.append_cancel_left_eq, List.cons.injEq, and_true]
      omega

/-! ### Every block once, every value once -/

lemma range_split {m n : ℕ} (h : m ≤ n) :
    List.range n = List.range m ++ List.range' m (n - m) := by
  have hsplit := List.range'_append_1 (s := 0) (m := m) (n := n - m)
  rw [Nat.zero_add, Nat.add_sub_cancel' h] at hsplit
  rw [List.range_eq_range', List.range_eq_range', hsplit]

/-- **The blocks of the injector are freed once, and its values dropped once.** In every run,
for any number of threads and every order of their accesses in which no compare-exchange comes a
full turn late, no access is to a block that was freed, and a pop frees a block only when all of
its values were read and its successor was linked. If then no call is under way, `drop` drops the
values that were not popped, in the order in which they were pushed, and frees the blocks that
are still linked, so that the run and `drop` together free every block that was ever linked once.
A full turn of blocks is larger than the memory, so that the tail that `drop` finds is less than
one ahead of the head. -/
theorem blocks_freed_once (hw : 6 ≤ w) {cmds : List (Cmd T A)} {tr : List (Event T A)}
    (h : Lts.runs step Timely cmds init = some (tr, s)) :
    s.fault = false ∧
    (∀ t b, (s.thread t).accesses = some b → (s.block b).freed = false) ∧
    (∀ cmd b, frees cmd s = some b →
      (∀ i < blockCap, (s.slot b i).Moved) ∧ (s.block b).next ≠ none) ∧
    ((∀ t, s.thread t = .idle) → s.tailPos < s.headPos + 2 ^ (w - 1) →
      ∃ a, (Unbounded.lts T A).Reaches tr a ∧ ∀ fuel, s.tailPos - s.headPos < fuel →
        ∃ d, drop fuel s = some d ∧ d.st.fault = false ∧
          d.dropped = a.pushed.drop a.popped ∧
          d.freed = (List.range s.count).filter (fun b => (s.block b).freed = false) ∧
          (freedIn cmds (init : St w T A) ++ d.freed).Perm (List.range s.count)) := by
  have hreach : (lts w T A).Reaches tr s := Lts.reaches_of_runs rfl h
  obtain ⟨a, ha, hrel⟩ := (simulation hw).reaches hreach
  have hk := kept_of_reaches hw hreach
  obtain ⟨hnd, hnew, hall⟩ := freedIn_spec hw (rel_init) kept_init h
  refine ⟨hrel.mem.fault, fun t b hb => hrel.not_freed hb,
    fun cmd b hb => (hrel.of_frees hk hb).2, fun hidle hturn => ⟨a, ha, fun fuel hfuel => ?_⟩⟩
  have hrest := atRest hrel hk hidle
  obtain ⟨d, hd, hfault, hdropped, hfreed⟩ := hrest.drop hw hturn hfuel
  have hle : s.headPos / 32 ≤ s.count := hrest.headPos_le_count
  have hbelow : ∀ b, b ∈ freedIn cmds (init : St w T A) ↔ b < s.headPos / 32 := by
    intro b
    rw [← hrest.freed b, hall b]
    simp [init, Block.new]
  refine ⟨d, hd, hfault, hdropped, ?_, ?_⟩
  · have hlow : (List.range (s.headPos / 32)).filter (fun b => (s.block b).freed = false) = [] := by
      rw [List.filter_eq_nil_iff]
      intro b hb
      have := (hrest.freed b).mpr (List.mem_range.mp hb)
      simp [this]
    have hhigh : (List.range' (s.headPos / 32) (s.count - s.headPos / 32)).filter
        (fun b => (s.block b).freed = false)
        = List.range' (s.headPos / 32) (s.count - s.headPos / 32) := by
      rw [List.filter_eq_self]
      intro b hb
      have := (hrest.freed b).not.mpr (by have := List.mem_range'_1.mp hb; omega)
      simpa using this
    rw [hfreed, range_split hle, List.filter_append, hlow, hhigh, List.nil_append]
  · rw [hfreed, range_split hle]
    refine List.Perm.append_right _ ?_
    rw [List.perm_ext_iff_of_nodup hnd List.nodup_range]
    intro b
    rw [hbelow, List.mem_range]

/-- One thread fills a block and puts one value into the next. The other pops the values of the
block, and is about to free it. -/
def emptied : List (Cmd ℕ Bool) :=
  ((List.range 32).flatMap fun n => .call true (.push n) ::
    stepsOf true (if n = 0 then 8 else if n = 30 then 9 else 6)) ++
  ((List.range 31).flatMap fun n => .call false .pop ::
    stepsOf false (if n = 0 then 8 else if n = 30 then 39 else 7))

/-- The pop that frees the first block returns, and `drop` ends the second. -/
theorem blocks_freed_once_first : ∃ (s s' : St 8 ℕ Bool) (tr tr' : List (Event ℕ Bool)),
    Lts.runs step Timely emptied init = some (tr, s) ∧ frees (.thread false false) s = some 0 ∧
    ((∀ i < blockCap, (s.slot 0 i).Moved) ∧ (s.block 0).next ≠ none) ∧
    Lts.runs step Timely (emptied ++ stepsOf false 2) init = some (tr', s') ∧ s'.fault = false ∧
    freedIn (emptied ++ stepsOf false 2) (init : St 8 ℕ Bool) = [0] ∧
    ∃ a, (Unbounded.lts ℕ Bool).Reaches tr' a ∧ ∃ d, drop 2 s' = some d ∧ d.st.fault = false ∧
      d.dropped = a.pushed.drop a.popped ∧
      d.freed = (List.range s'.count).filter (fun b => (s'.block b).freed = false) ∧
      (freedIn (emptied ++ stepsOf false 2) (init : St 8 ℕ Bool) ++ d.freed).Perm
        (List.range s'.count) := by
  have hr : (Lts.runs step Timely emptied (init : St 8 ℕ Bool)).map
      (fun p => frees (.thread false false) p.2) = some (some 0) := by decide +kernel
  have hr' : (Lts.runs step Timely (emptied ++ stepsOf false 2) (init : St 8 ℕ Bool)).map
      (fun p => (p.2.thread true, p.2.thread false, p.2.headPos, p.2.tailPos)) =
      some (.idle, .idle, 32, 33) := by decide +kernel
  have hfreed : freedIn (emptied ++ stepsOf false 2) (init : St 8 ℕ Bool) = [0] := by
    decide +kernel
  obtain ⟨⟨tr, s⟩, hs, hfrees⟩ := Option.map_eq_some_iff.mp hr
  obtain ⟨⟨tr', s'⟩, hs', hobs⟩ := Option.map_eq_some_iff.mp hr'
  simp only [Prod.mk.injEq] at hobs
  obtain ⟨h1, h2, h3, h4⟩ := hobs
  obtain ⟨-, -, hpop, -⟩ := blocks_freed_once (by decide) hs
  obtain ⟨hfault, -, -, hdrop⟩ := blocks_freed_once (by decide) hs'
  obtain ⟨a, ha, hd⟩ := hdrop (by simp [h1, h2]) (by omega)
  exact ⟨s, s', tr, tr', hs, hfrees, hpop _ 0 hfrees, hs', hfault, hfreed, a, ha, hd 2 (by omega)⟩

end St3.Injector
