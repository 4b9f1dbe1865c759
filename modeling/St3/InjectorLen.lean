import St3.InjectorSim
import Mathlib.Data.Fintype.Basic

/-!
The length of the injector: what `len` makes of the three indices that it loads, and the runs
in which it is exact.

`len` rounds a parked index up, counts from the lap of the head on, and takes off one position
for each block that it crosses, with subtractions that may not underflow. It is exact at the
moment of its load of the head, as long as no compare-exchange of the injector takes an index
for one that lies a full turn before it.
-/

namespace St3.Injector

open Words Unbounded

variable {w : ℕ} {T A B : Type*}

/-! ### What `len` computes -/

/-- An index parked on the block boundary counts as the start of the next block. -/
def roundUp (index : BitVec w) : BitVec w :=
  if (index >>> 1).toNat &&& (lap - 1) = lap - 1 then index + one w else index

/-- What `len` makes of the indices it has loaded; `none` when a subtraction underflows. -/
def lenOf (tail head : BitVec w) : Option (BitVec w) :=
  let tail := roundUp (clearHasNext tail)
  let head := roundUp (clearHasNext head)
  let l := (head >>> 1) / BitVec.ofNat w lap
  let tail := (tail - (l * BitVec.ofNat w lap) <<< 1) >>> 1
  let head := (head - (l * BitVec.ofNat w lap) <<< 1) >>> 1
  if head ≤ tail ∧ tail / BitVec.ofNat w lap ≤ tail - head then
    some (tail - head - tail / BitVec.ofNat w lap)
  else none

/-- The position that an index stands for in `len`. -/
def up (n : ℕ) : ℕ := if n % 32 = 31 then n + 1 else n

lemma roundUp_idx (hw : 6 ≤ w) (n : ℕ) (c : Bool) :
    roundUp (clearHasNext (idx w n c)) = idx w (up n) false := by
  rw [clearHasNext_idx, roundUp, toNat_idx_shift hw,
    show lap - 1 = 2 ^ 5 - 1 from rfl, Nat.and_two_pow_sub_one_eq_mod,
    Nat.mod_mod_of_dvd n (dvd_turn hw), up]
  show (if n % 32 = 31 then _ else _) = _
  split_ifs
  · exact idx_add_one n false
  · rfl

/-- A ticket more is a position more, and the parking positions are no tickets. -/
lemma tick_eq_sub (n : ℕ) : tick n = n - n / 32 := by
  unfold tick
  omega

lemma tick_up (n : ℕ) : tick (up n) = tick n := by
  unfold up tick
  split_ifs <;> omega

/-- The start of the lap of an index, as `len` computes it. -/
lemma lap_start (hw : 6 ≤ w) (n : ℕ) :
    ((idx w n false >>> 1) / BitVec.ofNat w lap * BitVec.ofNat w lap) <<< 1 =
      idx w (32 * (n / 32)) false := by
  obtain ⟨d, hd⟩ := dvd_turn hw
  have hturn : 2 ^ w = 2 * 2 ^ (w - 1) := by
    rw [← Nat.pow_succ', Nat.succ_eq_add_one, Nat.sub_add_cancel (by omega)]
  have h32 : 32 < 2 ^ w := by
    calc 32 < 2 ^ 6 := by decide
      _ ≤ 2 ^ w := Nat.pow_le_pow_right (by decide) hw
  have hlap : (BitVec.ofNat w lap).toNat = 32 := toNat_word h32
  refine BitVec.eq_of_toNat_eq ?_
  rw [BitVec.toNat_shiftLeft, BitVec.toNat_mul, BitVec.toNat_udiv, hlap, toNat_idx_shift hw,
    Nat.shiftLeft_eq, pow_one, idx, BitVec.toNat_ofNat, Nat.mod_mul_mod, hturn]
  have hdiv : n % 2 ^ (w - 1) / 32 = n / 32 % d := by rw [hd, Nat.mod_mul_right_div_self]
  have hmod : n / 32 % d * 32 = 32 * (n / 32) % 2 ^ (w - 1) := by
    rw [hd, Nat.mul_mod_mul_left, Nat.mul_comm]
  rw [hdiv, hmod]
  simp only [Bool.toNat_false, Nat.add_zero]
  rw [Nat.mul_comm (_ % _) 2, ← Nat.mul_mod_mul_left, Nat.mod_mod]

/-- A position, counted from the start of a lap that lies less than a full turn before it. -/
lemma toNat_sub_lap (hw : 6 ≤ w) {n k : ℕ} (hle : 32 * k ≤ n) (hlt : n < 32 * k + 2 ^ (w - 1)) :
    ((idx w n false - idx w (32 * k) false) >>> 1).toNat = n - 32 * k := by
  have hsub : idx w n false - idx w (32 * k) false = idx w (n - 32 * k) false := by
    simp only [idx, Bool.toNat_false, Nat.add_zero]
    rw [word_sub (by omega)]
    congr 1
    omega
  rw [hsub, toNat_idx_shift hw, Nat.mod_eq_of_lt (by omega)]

/-- **`len` counts tickets**: for a head and a tail that are less than a full turn apart. -/
lemma lenOf_idx (hw : 6 ≤ w) {t h : ℕ} (hle : h ≤ t) (hlt : up t < 32 * (up h / 32) + 2 ^ (w - 1))
    (c d : Bool) : lenOf (idx w t c) (idx w h d) = some (word w (tick t - tick h)) := by
  have hup : up h ≤ up t := by
    unfold up
    split_ifs <;> omega
  have h32 : (BitVec.ofNat w lap).toNat = 32 := by
    refine toNat_word ?_
    calc 32 < 2 ^ 6 := by decide
      _ ≤ 2 ^ w := Nat.pow_le_pow_right (by decide) hw
  rw [← tick_up t, ← tick_up h, tick_eq_sub, tick_eq_sub]
  simp only [lenOf]
  rw [roundUp_idx hw, roundUp_idx hw, lap_start hw]
  have htail := toNat_sub_lap hw (n := up t) (k := up h / 32) (by omega) hlt
  have hhead := toNat_sub_lap hw (n := up h) (k := up h / 32) (by omega) (by omega)
  generalize (idx w (up t) false - idx w (32 * (up h / 32)) false) >>> 1 = tail at *
  generalize (idx w (up h) false - idx w (32 * (up h / 32)) false) >>> 1 = head at *
  have hdiv : (tail / BitVec.ofNat w lap).toNat = tail.toNat / 32 := by
    rw [BitVec.toNat_udiv, h32]
  have hlt1 : head ≤ tail := by
    rw [BitVec.le_def]
    omega
  have hsub : (tail - head).toNat = tail.toNat - head.toNat := BitVec.toNat_sub_of_le hlt1
  have hlt2 : tail / BitVec.ofNat w lap ≤ tail - head := by
    rw [BitVec.le_def]
    omega
  rw [if_pos ⟨hlt1, hlt2⟩]
  congr 1
  refine BitVec.eq_of_toNat_eq ?_
  rw [BitVec.toNat_sub_of_le hlt2, hsub, hdiv, htail, hhead, BitVec.toNat_ofNat,
    Nat.mod_eq_of_lt]
  · omega
  · have := tail.isLt
    omega

/-! ### Bounds on indices -/

/-- The addition to an index that is not parked does not overflow. -/
lemma add_safe (hw : 6 ≤ w) {index : BitVec w} (h : offset index ≠ blockCap) :
    index.toNat + 2 < 2 ^ w := by
  obtain ⟨d, hd⟩ := dvd_turn hw
  have hturn : 2 ^ w = 2 * 2 ^ (w - 1) := by
    rw [← Nat.pow_succ', Nat.succ_eq_add_one, Nat.sub_add_cancel (by omega)]
  have hlt := index.isLt
  rw [offset, BitVec.toNat_ushiftRight, Nat.shiftRight_eq_div_pow, pow_one] at h
  simp only [lap, blockCap] at h
  omega

/-- How many tickets a call may sleep through, beside the values that are outstanding: together
they are a full turn. -/
def slack (w : ℕ) : ℕ := 15 * 2 ^ (w - 6) + 1

lemma quarter_add_slack (hw : 8 ≤ w) : 2 ^ (w - 2) + slack w = 31 * 2 ^ (w - 6) + 1 := by
  have h : 2 ^ (w - 2) = 2 ^ 4 * 2 ^ (w - 6) := by rw [← Nat.pow_add]; congr 1; omega
  unfold slack
  omega

/-- A full turn has 31 tickets to each of its laps. -/
lemma turn_of_tick (hw : 8 ≤ w) {n m : ℕ} (h : tick n < tick m + 31 * 2 ^ (w - 6)) :
    n < m + 2 ^ (w - 1) := by
  by_contra hle
  have hturn : 2 ^ (w - 1) = 2 ^ 5 * 2 ^ (w - 6) := by rw [← Nat.pow_add]; congr 1; omega
  have hmono : tick (m + 2 ^ (w - 1)) ≤ tick n := tick_mono (by omega)
  have hlaps : tick (m + 2 ^ (w - 1)) = tick m + 31 * 2 ^ (w - 6) := by
    rw [hturn]
    unfold tick
    omega
  omega

/-- So `len` sees less than a turn. -/
lemma turn_of_len (hw : 8 ≤ w) {t h : ℕ} (hlt : tick t < tick h + 2 ^ (w - 2)) :
    up t < 32 * (up h / 32) + 2 ^ (w - 1) := by
  obtain ⟨v, rfl⟩ : ∃ v, w = v + 8 := ⟨w - 8, by omega⟩
  have h1 : 2 ^ (v + 8 - 1) = 128 * 2 ^ v := by rw [show v + 8 - 1 = 7 + v by omega, Nat.pow_add]
  have h2 : 2 ^ (v + 8 - 2) = 64 * 2 ^ v := by rw [show v + 8 - 2 = 6 + v by omega, Nat.pow_add]
  have hpos : 0 < 2 ^ v := Nat.two_pow_pos v
  rw [← tick_up t, ← tick_up h, tick_eq_sub, tick_eq_sub, h2] at hlt
  rw [h1]
  omega

/-- The index that a push adds to is not parked. -/
def Pc.Unparked : Pc w T → Prop
  | .pushInstall _ _ tail | .pushStoreHead _ _ tail _ | .pushCas _ _ tail _ =>
    offset tail.index ≠ blockCap
  | _ => True

lemma pushCheck_unparked (x : T) (next : Bool) (tail : Snap w) (block : Option ℕ) :
    (pushCheck x next tail block).Unparked := by
  unfold pushCheck
  split_ifs with hpark
  · trivial
  · cases block <;> exact hpark

lemma popReady_unparked (head : Snap w) (newHead : BitVec w) (block : Option ℕ) :
    (popReady (T := T) head newHead block).Unparked := by
  cases block <;> trivial

lemma popCheck_unparked (head : Snap w) (block : Option ℕ) :
    (popCheck (T := T) head block).Unparked := by
  unfold popCheck
  split_ifs
  · trivial
  · trivial
  · exact popReady_unparked _ _ _

/-! ### Loads of the indices -/

/-- The load of the tail index that a push goes on with. -/
def Pc.tailLoad : Pc w T → Option (Snap w)
  | .pushLoadBlock _ _ tail | .pushInstall _ _ tail => some tail
  | .pushStoreHead _ _ tail _ | .pushCas _ _ tail _ => some tail
  | _ => none

/-- The load of the head index that a pop, or `is_empty`, goes on with. -/
def Pc.headLoad : Pc w T → Option (Snap w)
  | .popLoadBlock head | .popLoadTail head _ | .popCas head _ _ | .emptyLoadTail head => some head
  | _ => none

section
variable [DecidableEq A]

/-- What a step of a thread does to the positions, and to the loads it goes on with. -/
structure Loads (a : A) (s s' : St w T A) : Prop where
  tailPos : s.tailPos ≤ s'.tailPos
  headPos : s.headPos ≤ s'.headPos
  others : ∀ b, b ≠ a → s'.thread b = s.thread b
  tail : ∀ snap ∈ (s'.thread a).tailLoad, snap ∈ (s.thread a).tailLoad ∨ snap = s.tailSnap
  head : ∀ snap ∈ (s'.thread a).headLoad, snap ∈ (s.thread a).headLoad ∨ snap = s.headSnap

lemma pushCheck_loads (x : T) (next : Bool) (tail : Snap w) (block : Option ℕ) :
    (∀ snap ∈ (pushCheck x next tail block).tailLoad, snap = tail) ∧
      (pushCheck x next tail block).headLoad = none := by
  unfold pushCheck
  split
  · exact ⟨by simp [Pc.tailLoad], rfl⟩
  · cases block <;> exact ⟨by simp [Pc.tailLoad], rfl⟩

lemma popReady_loads (head : Snap w) (newHead : BitVec w) (block : Option ℕ) :
    (∀ snap ∈ (popReady (T := T) head newHead block).headLoad, snap = head) ∧
      (popReady (T := T) head newHead block).tailLoad = none := by
  cases block <;> exact ⟨by simp [popReady, Pc.headLoad], rfl⟩

lemma popCheck_loads (head : Snap w) (block : Option ℕ) :
    (∀ snap ∈ (popCheck (T := T) head block).headLoad, snap = head) ∧
      (popCheck (T := T) head block).tailLoad = none := by
  unfold popCheck
  split
  · exact ⟨by simp [Pc.headLoad], rfl⟩
  · split
    · exact ⟨by simp [Pc.headLoad], rfl⟩
    · exact popReady_loads _ _ _

lemma threadStep_loads {spurious : Bool} {a : A} {s s' : St w T A} {l : Option (Event T A)}
    (h : threadStep spurious a s = some (s', l)) : Loads a s s' := by
  have hself : ∀ (r : St w T A) (p : Pc w T), (r.setThread a p).thread a = p :=
    fun r p => by simp [St.setThread]
  have hother : ∀ (r : St w T A) (p : Pc w T) (b : A), b ≠ a →
      (r.setThread a p).thread b = r.thread b := fun r p b hb => by simp [St.setThread, hb]
  -- a step sets the thread, in a state with the old threads and no lower positions
  have hset : ∀ (r : St w T A) (p : Pc w T), r.thread = s.thread → s.tailPos ≤ r.tailPos →
      s.headPos ≤ r.headPos →
      (∀ snap ∈ p.tailLoad, snap ∈ (s.thread a).tailLoad ∨ snap = s.tailSnap) →
      (∀ snap ∈ p.headLoad, snap ∈ (s.thread a).headLoad ∨ snap = s.headSnap) →
      Loads a s (r.setThread a p) := by
    intro r p hr ht hh h1 h2
    refine ⟨ht, hh, fun b hb => by rw [hother _ _ _ hb, hr], ?_, ?_⟩
    · rw [hself]; exact h1
    · rw [hself]; exact h2
  unfold threadStep at h
  simp only at h
  cases hpc : s.thread a <;> simp only [hpc] at h hset
  case pushLoadBlock x next tail =>
    cases h
    obtain ⟨h1, h2⟩ := pushCheck_loads x next tail s.tailBlock
    exact hset s _ rfl le_rfl le_rfl (fun snap hs => .inl (by rw [h1 snap hs]; rfl)) (by simp [h2])
  case popLoadBlock head =>
    cases h
    obtain ⟨h1, h2⟩ := popCheck_loads (T := T) head s.headBlock
    exact hset s _ rfl le_rfl le_rfl (by simp [h2]) fun snap hs => .inl (by rw [h1 snap hs]; rfl)
  case popLoadTail head block =>
    have hready : ∀ newHead, Loads a s (s.setThread a (popReady head newHead block)) := by
      intro newHead
      obtain ⟨h1, h2⟩ := popReady_loads (T := T) head newHead block
      exact hset s _ rfl le_rfl le_rfl (by simp [h2]) fun snap hs => .inl (by rw [h1 snap hs]; rfl)
    split_ifs at h <;> cases h
    · exact hset s _ rfl le_rfl le_rfl (by simp [Pc.tailLoad]) (by simp [Pc.headLoad])
    · exact hready _
    · exact hready _
  all_goals (repeat' split at h) <;> cases h
  all_goals first
    | exact hset _ _ rfl le_rfl le_rfl (by simp [Pc.tailLoad]) (by simp [Pc.headLoad])
    | exact hset _ _ rfl (Nat.le_succ _) le_rfl (by simp [Pc.tailLoad]) (by simp [Pc.headLoad])
    | exact hset _ _ rfl le_rfl (Nat.le_succ _) (by simp [Pc.tailLoad]) (by simp [Pc.headLoad])
    | exact ⟨le_rfl, le_rfl, fun _ _ => rfl, fun _ h => .inl h, fun _ h => .inl h⟩

lemma threadStep_unparked {spurious : Bool} {a : A} {s s' : St w T A} {l : Option (Event T A)}
    (h : threadStep spurious a s = some (s', l)) (hs : ∀ b, (s.thread b).Unparked) (b : A) :
    (s'.thread b).Unparked := by
  by_cases hb : b = a
  swap
  · rw [(threadStep_loads h).others b hb]
    exact hs b
  subst hb
  have hself : ∀ (r : St w T A) (p : Pc w T), (r.setThread b p).thread b = p :=
    fun r p => by simp [St.setThread]
  have hb := hs b
  unfold threadStep at h
  simp only at h
  cases hpc : s.thread b <;> simp only [hpc] at h hb
  case pushLoadBlock x next tail =>
    cases h
    exact (hself _ _).symm ▸ pushCheck_unparked x next tail _
  case popLoadBlock head =>
    cases h
    exact (hself _ _).symm ▸ popCheck_unparked head _
  case popLoadTail head block =>
    split_ifs at h <;> cases h <;> rw [hself]
    · trivial
    · exact popReady_unparked _ _ _
    · exact popReady_unparked _ _ _
  case pushInstall x next tail =>
    split at h <;> cases h <;> rw [hself]
    · exact hb
    · trivial
  case pushStoreHead x next tail new =>
    cases h
    rw [hself]
    exact hb
  all_goals (repeat' split at h) <;> cases h <;> simp only [hself] <;> first
    | trivial
    | exact hs b

lemma step_unparked {cmd : Cmd T A} {s s' : St w T A} {l : Option (Event T A)}
    (h : step cmd s = some (s', l)) (hs : ∀ b, (s.thread b).Unparked) (b : A) :
    (s'.thread b).Unparked := by
  cases cmd with
  | call a op =>
    simp only [step] at h
    split at h <;> cases h
    by_cases hb : b = a
    · subst hb
      cases op <;> simp [St.setThread, start, Pc.Unparked]
    · simpa [St.setThread, hb] using hs b
  | thread a spurious => exact threadStep_unparked h hs b

lemma step_loads {cmd : Cmd T A} {s s' : St w T A} {l : Option (Event T A)}
    (h : step cmd s = some (s', l)) :
    match cmd with
    | .call a op => s.thread a = .idle ∧ s' = s.setThread a (start op)
    | .thread a _ => s.thread a ≠ .idle ∧ Loads a s s' := by
  cases cmd with
  | call a op =>
    simp only [step] at h
    split at h <;> cases h
    exact ⟨‹_›, rfl⟩
  | thread a spurious =>
    refine ⟨fun hidle => ?_, threadStep_loads h⟩
    simp [step, threadStep, hidle] at h

end

/-! ### Calls of `len` -/

/-- A thread in `len`. `count` is how many tickets pushes had taken and pops had not at the
moment of its load of the head; that and the counts below are no part of the code. -/
inductive LenPc (w : ℕ)
  | idle
  | loadTail
  | loadHead (tail : BitVec w)
  | check (tail head : BitVec w) (count : ℕ)
  | done (r : Option (BitVec w)) (count : ℕ)
  deriving DecidableEq

/-- The injector, with its callers `A` and callers `B` of `len`. -/
structure Calls (w : ℕ) (T A B : Type*) where
  inj : St w T A
  len : B → LenPc w
  /-- How many pushes had taken their ticket when the call under way began. -/
  began : A → ℕ
  lenBegan : B → ℕ

inductive CallsCmd (T A B : Type*)
  | inj (cmd : Cmd T A)
  /-- A thread calls `len`, or goes on in it. -/
  | len (b : B)

/-- A call begins. -/
def Calls.begin [DecidableEq A] (s : Calls w T A B) : Cmd T A → A → ℕ
  | .call a _ => Function.update s.began a (tick s.inj.tailPos)
  | .thread _ _ => s.began

/-- One access of `len`. -/
def lenStep (s : St w T A) : LenPc w → LenPc w
  | .idle => .loadTail
  | .loadTail => .loadHead s.tailIndex
  | .loadHead tail => .check tail s.headIndex (tick s.tailPos - tick s.headPos)
  | .check tail head count =>
    if s.tailIndex = tail then .done (lenOf tail head) count else .loadTail
  | .done _ _ => .idle

def callsStep [DecidableEq A] [DecidableEq B] : CallsCmd T A B → Calls w T A B →
    Option (Calls w T A B × Option (Event T A))
  | .inj cmd, s => (step cmd s.inj).map fun q => ({ s with inj := q.1, began := s.begin cmd }, q.2)
  | .len b, s =>
    some ({ s with
      len := Function.update s.len b (lenStep s.inj (s.len b))
      lenBegan := if s.len b = .idle then Function.update s.lenBegan b (tick s.inj.tailPos)
        else s.lenBegan }, none)

/-- Fewer than a quarter of a turn of values are outstanding, and fewer than `k` pushes took
their ticket during any call that is under way. -/
structure Within (k : ℕ) (s : Calls w T A B) : Prop where
  outstanding : tick s.inj.tailPos < tick s.inj.headPos + 2 ^ (w - 2)
  pushes : ∀ a, s.inj.thread a ≠ .idle → tick s.inj.tailPos < s.began a + k
  lens : ∀ b, s.len b ≠ .idle → tick s.inj.tailPos < s.lenBegan b + k

instance [DecidableEq T] [Fintype A] [Fintype B] (k : ℕ) (s : Calls w T A B) :
    Decidable (Within k s) :=
  decidable_of_iff (tick s.inj.tailPos < tick s.inj.headPos + 2 ^ (w - 2) ∧
      (∀ a, s.inj.thread a ≠ .idle → tick s.inj.tailPos < s.began a + k) ∧
      ∀ b, s.len b ≠ .idle → tick s.inj.tailPos < s.lenBegan b + k)
    ⟨fun ⟨h1, h2, h3⟩ => ⟨h1, h2, h3⟩, fun ⟨h1, h2, h3⟩ => ⟨h1, h2, h3⟩⟩

def Calls.init : Calls w T A B := ⟨Injector.init, fun _ => .idle, fun _ => 0, fun _ => 0⟩

/-- The runs in which `ok` holds at any time, for any number of threads. -/
def calls [DecidableEq A] [DecidableEq B] (ok : Calls w T A B → Prop) :
    Lts (Calls w T A B) (Event T A) :=
  .ofStep (· = Calls.init) callsStep fun _ s => ok s

/-! ### The limits keep compare-exchanges timely -/

/-- What the start of a call says about the loads it goes on with. -/
structure Began (s : St w T A) (a : A) (began : ℕ) : Prop where
  tail : began ≤ tick s.tailPos
  head : began < tick s.headPos + 2 ^ (w - 2)
  tailLoad : ∀ snap ∈ (s.thread a).tailLoad, began ≤ tick snap.pos
  headLoad : ∀ snap ∈ (s.thread a).headLoad, began < tick snap.pos + 2 ^ (w - 2)

/-- The call goes on, and others do. -/
lemma Began.step {s s' : St w T A} {a b : A} {n : ℕ} (h : Began s b n) (hl : Loads a s s') :
    Began s' b n := by
  have htail := tick_mono hl.tailPos
  have hhead := tick_mono hl.headPos
  have h1 := h.tail
  have h2 := h.head
  refine ⟨by omega, by omega, ?_, ?_⟩
  · intro snap hs
    by_cases hb : b = a
    · subst hb
      rcases hl.tail snap hs with hold | rfl
      · exact h.tailLoad snap hold
      · exact h1
    · rw [hl.others b hb] at hs
      exact h.tailLoad snap hs
  · intro snap hs
    by_cases hb : b = a
    · subst hb
      rcases hl.head snap hs with hold | rfl
      · exact h.headLoad snap hold
      · exact h2
    · rw [hl.others b hb] at hs
      exact h.headLoad snap hs

/-- The limits make every step timely. -/
lemma timely_of_within (hw : 8 ≤ w) {s : Calls w T A B} (hle : s.inj.headPos ≤ s.inj.tailPos)
    (hwithin : Within (slack w) s)
    (hb : ∀ a, s.inj.thread a ≠ .idle → Began s.inj a (s.began a)) (cmd : Cmd T A) :
    Timely cmd s.inj := by
  have hpos := Nat.two_pow_pos (w - 2)
  have hslack := quarter_add_slack hw
  have htail : ∀ {a : A} {snap : Snap w}, snap ∈ (s.inj.thread a).tailLoad →
      s.inj.tailPos < snap.pos + 2 ^ (w - 1) := by
    intro a snap hs
    have hidle : s.inj.thread a ≠ .idle := fun h => by simp [h, Pc.tailLoad] at hs
    have h1 := hwithin.pushes a hidle
    have h2 := (hb a hidle).tailLoad snap hs
    exact turn_of_tick hw (by omega)
  have hhead : ∀ {a : A} {snap : Snap w}, snap ∈ (s.inj.thread a).headLoad →
      s.inj.tailPos < snap.pos + 2 ^ (w - 1) := by
    intro a snap hs
    have hidle : s.inj.thread a ≠ .idle := fun h => by simp [h, Pc.headLoad] at hs
    have h1 := hwithin.pushes a hidle
    have h2 := (hb a hidle).headLoad snap hs
    exact turn_of_tick hw (by omega)
  intro p hp
  cases cmd with
  | call => cases hp
  | thread a spurious =>
    unfold compared at hp
    dsimp only at hp
    split at hp <;> rename_i hpc <;> cases hp
    · exact htail (by rw [hpc]; rfl)
    · exact hle.trans_lt (hhead (by rw [hpc]; rfl))

/-! ### What `len` returns -/

/-- What a thread in `len` knows. If no push has taken a ticket since its load of the tail, the
length that it is about to compute is the one of its load of the head. -/
def LenOk (s : St w T A) (began : ℕ) : LenPc w → Prop
  | .loadHead tail => ∃ p, tail = idx w p false ∧ p ≤ s.tailPos ∧ began ≤ tick p
  | .check tail head count => ∃ p, tail = idx w p false ∧ p ≤ s.tailPos ∧ began ≤ tick p ∧
      (p = s.tailPos → lenOf tail head = some (word w count) ∧ count < 2 ^ w)
  | .done r count => ∃ v, r = some v ∧ v.toNat = count
  | _ => True

lemma LenOk.mono {s s' : St w T A} {n : ℕ} {p : LenPc w} (h : LenOk s n p)
    (hle : s.tailPos ≤ s'.tailPos) : LenOk s' n p := by
  cases p with
  | loadHead tail =>
    obtain ⟨p, hp, hpos, hn⟩ := h
    exact ⟨p, hp, hpos.trans hle, hn⟩
  | check tail head count =>
    obtain ⟨p, hp, hpos, hn, hcount⟩ := h
    exact ⟨p, hp, hpos.trans hle, hn, fun he => hcount (by omega)⟩
  | _ => exact h

/-- **One access of `len`.** -/
lemma LenOk.step (hw : 8 ≤ w) {s : St w T A} {a : Unbounded.St T A} (hm : MemRel s a)
    (hout : tick s.tailPos < tick s.headPos + 2 ^ (w - 2)) {n : ℕ} {p : LenPc w}
    (h : LenOk s n p) (hpush : p ≠ .idle → tick s.tailPos < n + slack w)
    (hn : p ≠ .idle → n ≤ tick s.tailPos) :
    LenOk s (if p = .idle then tick s.tailPos else n) (lenStep s p) := by
  cases p with
  | idle => trivial
  | loadTail => exact ⟨s.tailPos, hm.tailIndex, le_rfl, hn nofun⟩
  | loadHead tail =>
    obtain ⟨p, rfl, hpos, hbegan⟩ := h
    obtain ⟨c, hc, -⟩ := hm.headIndex
    refine ⟨p, rfl, hpos, hbegan, ?_⟩
    rintro rfl
    rw [hc]
    refine ⟨lenOf_idx (by omega) hm.le (turn_of_len hw hout) false c, ?_⟩
    have hle : 2 ^ (w - 2) ≤ 2 ^ w := Nat.pow_le_pow_right (by decide) (Nat.sub_le _ _)
    have hpos := Nat.two_pow_pos (w - 2)
    omega
  | check tail head count =>
    rw [if_neg nofun]
    obtain ⟨p, rfl, hpos, hbegan, hcount⟩ := h
    have hlt := hpush nofun
    simp only [lenStep]
    split_ifs with he
    · -- the tail has not moved: less than a turn lies between the two loads
      have hquarter := Nat.two_pow_pos (w - 2)
      have hslack := quarter_add_slack hw
      have hturn : s.tailPos < p + 2 ^ (w - 1) := turn_of_tick hw (by omega)
      rw [hm.tailIndex] at he
      obtain ⟨hp, hlt⟩ := hcount (idx_inj (by omega) hpos hturn he).1.symm
      exact ⟨_, hp, toNat_word hlt⟩
    · trivial
  | done r count => trivial

/-- What holds in every run within the limits. -/
structure CallsOk (s : Calls w T A B) : Prop where
  began : ∀ a, s.inj.thread a ≠ .idle → Began s.inj a (s.began a)
  lenBegan : ∀ b, s.len b ≠ .idle → s.lenBegan b ≤ tick s.inj.tailPos
  len : ∀ b, LenOk s.inj (s.lenBegan b) (s.len b)

lemma CallsOk.inj [DecidableEq A] {s : Calls w T A B} (h : CallsOk s)
    (hout : tick s.inj.tailPos < tick s.inj.headPos + 2 ^ (w - 2)) {cmd : Cmd T A} {i : St w T A}
    {l : Option (Event T A)} (hstep : step cmd s.inj = some (i, l)) :
    CallsOk { s with inj := i, began := s.begin cmd } := by
  have hloads := step_loads hstep
  cases cmd with
  | call a op =>
    obtain ⟨hidle, rfl⟩ := hloads
    refine ⟨fun b hb => ?_, h.lenBegan, fun b => (h.len b).mono le_rfl⟩
    by_cases hba : b = a
    · subst hba
      simp only [Calls.begin, Function.update_self]
      refine ⟨le_rfl, hout, ?_, ?_⟩ <;> cases op <;>
        simp [St.setThread, start, Pc.tailLoad, Pc.headLoad]
    · simp only [St.setThread, Function.update_of_ne hba, Calls.begin] at hb ⊢
      have hold := h.began b hb
      exact ⟨hold.tail, hold.head, by simpa [hba] using hold.tailLoad,
        by simpa [hba] using hold.headLoad⟩
  | thread a spurious =>
    obtain ⟨hne, hl⟩ := hloads
    have htick := tick_mono hl.tailPos
    refine ⟨fun b hb => ?_, fun b hb => (h.lenBegan b hb).trans htick,
      fun b => (h.len b).mono hl.tailPos⟩
    have hold : s.inj.thread b ≠ .idle := by
      by_cases hba : b = a
      · exact hba ▸ hne
      · rwa [← hl.others b hba]
    exact (h.began b hold).step hl

lemma CallsOk.len_step [DecidableEq B] (hw : 8 ≤ w) {s : Calls w T A B} {a : Unbounded.St T A}
    (h : CallsOk s) (hm : MemRel s.inj a) (hwithin : Within (slack w) s) (b : B) :
    CallsOk { s with
      len := Function.update s.len b (lenStep s.inj (s.len b))
      lenBegan := if s.len b = .idle then Function.update s.lenBegan b (tick s.inj.tailPos)
        else s.lenBegan } where
  began := h.began
  lenBegan c hc := by
    by_cases hcb : c = b
    · subst hcb
      dsimp only
      split_ifs with hidle
      · simp
      · exact h.lenBegan c hidle
    · dsimp only at hc ⊢
      rw [Function.update_of_ne hcb] at hc
      split_ifs
      · rw [Function.update_of_ne hcb]
        exact h.lenBegan c hc
      · exact h.lenBegan c hc
  len c := by
    by_cases hcb : c = b
    · subst hcb
      have hok := (h.len c).step hw hm hwithin.outstanding (hwithin.lens c) (h.lenBegan c)
      dsimp only
      rw [Function.update_self]
      split_ifs at hok ⊢ with hidle
      · simpa using hok
      · exact hok
    · dsimp only
      rw [Function.update_of_ne hcb]
      split_ifs
      · rw [Function.update_of_ne hcb]
        exact h.len c
      · exact h.len c

variable [DecidableEq A] [DecidableEq B]

lemma callsOk (hw : 8 ≤ w) {tr : List (Event T A)} {s : Calls w T A B}
    (h : (calls (Within (slack w))).Reaches tr s) :
    (lts w T A).Reaches tr s.inj ∧ CallsOk s := by
  induction h with
  | init h =>
    obtain rfl := h
    exact ⟨.init rfl, fun a ha => absurd rfl ha, fun b hb => absurd rfl hb, fun b => trivial⟩
  | step r hstep ih =>
    obtain ⟨hreach, hs⟩ := ih
    obtain ⟨cmd, hwithin, hstep⟩ := hstep
    obtain ⟨a, -, hrel⟩ := (simulation (by omega)).reaches hreach
    cases cmd with
    | inj cmd =>
      obtain ⟨⟨i, l⟩, hi, he⟩ := Option.map_eq_some_iff.mp hstep
      cases he
      exact ⟨hreach.step ⟨cmd, timely_of_within hw hrel.mem.le hwithin hs.began cmd, hi⟩,
        hs.inj hwithin.outstanding hi⟩
    | len b =>
      cases hstep
      exact ⟨by simpa using hreach, hs.len_step hw hrel.mem hwithin b⟩

/-- In every run a push adds to indices that are not parked. -/
lemma unparked_of_reaches {tr : List (Event T A)} {s : Calls w T A B}
    (h : (calls fun _ => True).Reaches tr s) (a : A) : (s.inj.thread a).Unparked := by
  refine Lts.Reaches.invariant (fun s => ∀ a, (s.inj.thread a).Unparked) ?_ ?_ h a
  · rintro s rfl a
    trivial
  · rintro tr s l s' - hs ⟨cmd, -, hstep⟩
    cases cmd with
    | inj cmd =>
      obtain ⟨⟨i, l⟩, hi, he⟩ := Option.map_eq_some_iff.mp hstep
      cases he
      exact step_unparked hi hs
    | len b =>
      cases hstep
      exact hs

/-- **The index arithmetic of the injector is safe and `len` is exact.** For words of 8 bits or
more, in every run, of any length: the additions of `push` and `pop` do not overflow. If fewer
than `2 ^ (w - 2)` values are outstanding at any time, and fewer than `slack w` pushes take their
ticket during any one call, then every call of `len` returns, without underflow, how many tickets
pushes had taken and pops had not at the moment of its load of the head. -/
theorem len_exact (hw : 8 ≤ w) {tr : List (Event T A)} {s : Calls w T A B} :
    ((calls fun _ => True).Reaches tr s →
      (∀ a x next tail block, s.inj.thread a = .pushCas x next tail block →
        tail.index.toNat + 2 < 2 ^ w) ∧
      ∀ a head, s.inj.thread a = .popLoadBlock head → offset head.index ≠ blockCap →
        head.index.toNat + 2 < 2 ^ w) ∧
    ((calls (Within (slack w))).Reaches tr s →
      ∀ b r count, s.len b = .done r count → ∃ v, r = some v ∧ v.toNat = count) := by
  refine ⟨fun h => ⟨fun a x next tail block hpc => ?_, fun a head _ hne => ?_⟩,
    fun h b r count hb => ?_⟩
  · have hne := unparked_of_reaches h a
    rw [hpc] at hne
    exact add_safe (by omega) hne
  · exact add_safe (by omega) hne
  · have hlen := (callsOk hw h).2.len b
    rw [hb] at hlen
    exact hlen

/-- Every call under way began when `n` pushes or more had taken their ticket. -/
structure Since (n : ℕ) (s : Calls w T A B) : Prop where
  tail : n ≤ tick s.inj.tailPos
  began : ∀ a, s.inj.thread a = .idle ∨ n ≤ s.began a
  lenBegan : ∀ b, s.len b = .idle ∨ n ≤ s.lenBegan b

lemma callsStep_since {n : ℕ} {cmd : CallsCmd T A B} {s s' : Calls w T A B}
    {l : Option (Event T A)} (h : callsStep cmd s = some (s', l)) (hs : Since n s) :
    Since n s' ∧ s.inj.tailPos ≤ s'.inj.tailPos ∧ s.inj.headPos ≤ s'.inj.headPos := by
  cases cmd with
  | inj cmd =>
    obtain ⟨⟨i, l'⟩, hi, he⟩ := Option.map_eq_some_iff.mp h
    cases he
    have hloads := step_loads hi
    cases cmd with
    | call a op =>
      obtain ⟨-, rfl⟩ := hloads
      refine ⟨⟨hs.tail, fun b => ?_, hs.lenBegan⟩, le_rfl, le_rfl⟩
      by_cases hb : b = a
      · subst hb
        simpa [Calls.begin] using .inr hs.tail
      · simpa [Calls.begin, St.setThread, hb] using hs.began b
    | thread a spurious =>
      obtain ⟨hne, hl⟩ := hloads
      refine ⟨⟨hs.tail.trans (tick_mono hl.tailPos), fun b => ?_, hs.lenBegan⟩, hl.tailPos,
        hl.headPos⟩
      by_cases hb : b = a
      · subst hb
        exact .inr ((hs.began b).resolve_left hne)
      · dsimp only
        rw [hl.others b hb]
        exact hs.began b
  | len b =>
    cases h
    refine ⟨⟨hs.tail, hs.began, fun c => ?_⟩, le_rfl, le_rfl⟩
    by_cases hc : c = b
    · subst hc
      right
      dsimp only
      split_ifs with hidle
      · simpa using hs.tail
      · exact (hs.lenBegan c).resolve_left hidle
    · dsimp only
      rw [Function.update_of_ne hc]
      split_ifs
      · simpa [hc] using hs.lenBegan c
      · exact hs.lenBegan c

/-- A run keeps the limits if its first and its last state do so together. -/
lemma steps_within {n k : ℕ} {script : List (CallsCmd T A B)} {s s' : Calls w T A B}
    {tr : List (Event T A)} (h : Lts.runs callsStep (fun _ _ => True) script s = some (tr, s'))
    (hs : Since n s) (hk : tick s'.inj.tailPos < n + k)
    (hout : tick s'.inj.tailPos < tick s.inj.headPos + 2 ^ (w - 2)) :
    (calls (Within k)).Steps s tr s' := by
  have hmono : ∀ {script : List (CallsCmd T A B)} {s s' : Calls w T A B} {tr : List (Event T A)},
      Lts.runs callsStep (fun _ _ => True) script s = some (tr, s') → Since n s →
        s.inj.tailPos ≤ s'.inj.tailPos := by
    intro script
    induction script with
    | nil =>
      intro s s' tr h _
      cases h
      exact le_rfl
    | cons cmd script ih =>
      intro s s' tr h hs
      simp only [Lts.runs, if_true, Option.bind_eq_some_iff, Option.map_eq_some_iff] at h
      obtain ⟨⟨s₁, l⟩, hstep, ⟨tr', s₂⟩, hrun, he⟩ := h
      cases he
      obtain ⟨hs₁, ht, -⟩ := callsStep_since hstep hs
      exact ht.trans (ih hrun hs₁)
  induction script generalizing s tr with
  | nil =>
    cases h
    exact .refl _
  | cons cmd script ih =>
    have htail := tick_mono (hmono h hs)
    have hwithin : Within k s := by
      refine ⟨by omega, fun a ha => ?_, fun b hb => ?_⟩
      · have := (hs.began a).resolve_left ha
        omega
      · have := (hs.lenBegan b).resolve_left hb
        omega
    simp only [Lts.runs, if_true, Option.bind_eq_some_iff, Option.map_eq_some_iff] at h
    obtain ⟨⟨s₁, l⟩, hstep, ⟨tr', s₂⟩, hrun, he⟩ := h
    cases he
    obtain ⟨hs₁, -, hh⟩ := callsStep_since hstep hs
    have hhead := tick_mono hh
    exact .head ⟨cmd, hwithin, hstep⟩ (ih hrun hs₁ (by omega))

/-- Calls of one thread that meets nobody: so many calls, of so many steps each. -/
def alone (op : Op Unit) (script : List (ℕ × ℕ)) : List (CallsCmd Unit Bool Unit) :=
  script.flatMap fun q => (List.replicate q.1
    (.inj (.call false op) :: List.replicate q.2 (.inj (.thread false false)))).flatten

/-- Where a list of commands leads, within limits or not. -/
def after (script : List (CallsCmd Unit Bool Unit)) :
    Option (List (Event Unit Bool) × Calls 8 Unit Bool Unit) :=
  Lts.runs callsStep (fun _ _ => True) script Calls.init

omit [DecidableEq A] [DecidableEq B] in
lemma since_init : Since 0 (Calls.init : Calls w T A B) :=
  ⟨Nat.zero_le _, fun _ => .inl rfl, fun _ => .inl rfl⟩

/-- `len` over a block boundary, before the head has passed it. -/
theorem len_exact_boundary : ∃ s : Calls 8 Unit Bool Unit, s.len () = .done (some 2) 2 ∧
    ((∀ a x next tail block, s.inj.thread a = .pushCas x next tail block →
      tail.index.toNat + 2 < 2 ^ 8) ∧
    ∀ a head, s.inj.thread a = .popLoadBlock head → offset head.index ≠ blockCap →
      head.index.toNat + 2 < 2 ^ 8) ∧
    ∀ b r count, s.len b = .done r count → ∃ v, r = some v ∧ v.toNat = count := by
  have hv : (after (alone (.push ()) [(1, 8), (29, 6)] ++ alone .pop [(29, 8)] ++
      alone (.push ()) [(1, 9)] ++ List.replicate 4 (.len ()))).map
      (fun q => (tick q.2.inj.tailPos, q.2.len ())) = some (31, .done (some 2) 2) := by
    decide +kernel
  obtain ⟨⟨tr, s⟩, hrun, hv⟩ := Option.map_eq_some_iff.mp hv
  obtain ⟨htail, hlen⟩ := Prod.mk.inj hv
  have hsteps : (calls (Within (slack 8))).Steps _ tr s :=
    steps_within hrun since_init (by rw [htail]; decide) (by rw [htail]; decide)
  exact ⟨s, hlen, (len_exact (by decide)).1 (Lts.reaches_of_runs rfl hrun),
    (len_exact (by decide)).2 ((Lts.Reaches.init rfl).trans hsteps)⟩

/-- A pop of `true` has loaded the head and the tail when the 63 values of `false` are popped. -/
def asleep : List (CallsCmd Unit Bool Unit) :=
  alone (.push ()) [(1, 8), (29, 6), (1, 9), (30, 6), (1, 9), (1, 6)] ++
    CallsCmd.inj (.call true .pop) :: List.replicate 3 (CallsCmd.inj (.thread true false)) ++
    alone .pop [(1, 8), (29, 7), (1, 41), (30, 7), (1, 41), (1, 8)]

/-- The head goes on to the end of the turn before the pop of `true` does. -/
def turned : List (CallsCmd Unit Bool Unit) :=
  alone (.push ()) [(29, 6), (1, 9), (30, 6), (1, 9)] ++
    alone .pop [(1, 8), (28, 7), (1, 41), (30, 7), (1, 41)] ++
    CallsCmd.inj (.thread true false) :: List.replicate 4 (CallsCmd.len ())

/-- With one push more during a call `len` underflows, here at 8 bits: a pop that sleeps through a
full turn of the head, while 61 pushes take their ticket and never more than 63 values are
outstanding, takes the ticket of a push to come, and the head has passed the tail. -/
theorem len_underflows : ¬ ∀ w, 8 ≤ w → ∀ (tr : List (Event Unit Bool))
    (s : Calls w Unit Bool Unit), (calls (Within (2 ^ (w - 2)))).Reaches tr s →
      ∀ b r count, s.len b = .done r count → ∃ v, r = some v ∧ v.toNat = count := by
  intro h
  have hasleep : (after asleep).map (fun q => (tick q.2.inj.tailPos, tick q.2.inj.headPos,
      q.2.began true, q.2.inj.thread false, q.2.len ())) = some (63, 63, 63, .idle, .idle) := by
    decide +kernel
  have hturned : (after (asleep ++ turned)).map (fun q => (tick q.2.inj.tailPos, q.2.len ())) =
      some (124, .done none 0) := by decide +kernel
  obtain ⟨⟨tr, s⟩, hrun, hv⟩ := Option.map_eq_some_iff.mp hturned
  obtain ⟨tr₁, s₁, tr₂, hrun₁, hrun₂⟩ := Lts.runs_append hrun
  rw [after, hrun₁] at hasleep
  simp only [Option.map_some, Option.some.injEq, Prod.mk.injEq] at hasleep hv
  obtain ⟨htail₁, hhead₁, hbegan, hidle, hlen₁⟩ := hasleep
  obtain ⟨htail, hlen⟩ := hv
  have hsteps₁ : (calls (Within (2 ^ (8 - 2)))).Steps _ tr₁ s₁ :=
    steps_within hrun₁ since_init (by rw [htail₁]; decide) (by rw [htail₁]; decide)
  have hsince : Since 63 s₁ := by
    refine ⟨htail₁.ge, fun a => ?_, fun _ => .inl hlen₁⟩
    cases a with
    | false => exact .inl hidle
    | true => exact .inr hbegan.ge
  have hsteps₂ : (calls (Within (2 ^ (8 - 2)))).Steps _ tr₂ s :=
    steps_within hrun₂ hsince (by rw [htail]; decide) (by rw [htail, hhead₁]; decide)
  have hreach := ((Lts.Reaches.init rfl).trans hsteps₁).trans hsteps₂
  obtain ⟨v, hnone, -⟩ := h 8 le_rfl _ s hreach () none 0 hlen
  cases hnone

end St3.Injector
