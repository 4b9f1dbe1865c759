import St3.LifoAlone
import St3.FifoAlone

/-!
What the calls of one thread make of the contents of the queues, for both flavours: steals between
two queues or from a queue into itself, and `extend`.
-/

namespace St3.Alone

open Words Slots Deque Transfer Flavour

universe u

variable {w : ℕ} {T : Type u}

def flavour (w : ℕ) (T : Type u) : Deque.Flavour → Flavour w T
  | .lifo => Lifo.alone w T
  | .fifo => Fifo.alone w T

/-! ### Steals -/

section
variable {F : Flavour w T} {ι : Type*} [DecidableEq ι] {src dst : ι} {σ σ' : ι → F.Queue}
  {xs ys zs : List T} {n t : ℕ}

omit [DecidableEq ι] in
/-- For a steal from a queue into itself it does not matter what the destination is said to
store. -/
lemma Flavour.Stolen.of_self (h : F.Stolen src src xs ys n t σ σ') :
    F.Stolen src src xs zs n t σ σ' :=
  ⟨h.other, fun hne => absurd rfl hne, fun hne => absurd rfl hne, h.self⟩

/-- Two queues that store something are ready for a steal. -/
lemma ready (hs : F.Stores (σ src) xs) (hd : F.Stores (σ dst) ys) :
    ∃ r r₀ zs, Ready src dst r r₀ xs zs σ ∧ zs.length = ys.length ∧
      ∀ {n t σ'}, F.Stolen src dst xs zs n t σ σ' → F.Stolen src dst xs ys n t σ σ' := by
  obtain ⟨r, hr⟩ := hs
  obtain ⟨r₀, hr₀⟩ := hd
  by_cases hx : src = dst
  · subst hx
    exact ⟨r, r, xs, ⟨hr, hr, fun _ => ⟨rfl, rfl⟩⟩, hr.length_eq hr₀, Stolen.of_self⟩
  · exact ⟨r, r₀, ys, ⟨hr, hr₀, fun he => absurd he hx⟩, rfl, id⟩

omit [DecidableEq ι] in
/-- A transfer of one item comes past the assertion. -/
lemma Flavour.Passes.of_le {addr : ι → ℕ} (hn : n ≤ 1) : F.Passes addr src dst σ n :=
  .inr (.inr (.inl hn))

/-- **The content law of steals.** With no booking under way, a steal takes the items from the
head of the source, as many as `count_fn` asks for, the destination has room for and the source
has, and appends them to the destination in order; `steal_and_pop` has room for one more, which
it returns. If there is none to take, it changes no queue. All this if and only if the transfer
comes past the assertion on its chunks, which two queues of items that take no space may fail. -/
theorem steal_content (fl : Deque.Flavour) (hw : 1 < w) (addr : ι → ℕ)
    {σ : ι → (flavour w T fl).Queue} (hs : (flavour w T fl).Stores (σ src) xs)
    (hd : (flavour w T fl).Stores (σ dst) ys) (countFn : ℕ → ℕ) :
    let F := flavour w T fl
    let f := (F.capacity (σ dst)).toNat - ys.length
    let n := min (min (countFn xs.length) f) xs.length
    let n' := min (min (countFn xs.length) (f + 1)) xs.length
    ((n = 0 → F.steal addr countFn src dst σ = some (.error .empty, σ)) ∧
      (n ≠ 0 → ∃ σ', F.steal addr countFn src dst σ = some (.ok n, σ') ∧
        F.Stolen src dst xs ys n n σ σ') ↔ F.Passes addr src dst σ n) ∧
    ((n' = 0 → F.stealAndPop addr countFn src dst σ = some (.error .empty, σ)) ∧
      (n' ≠ 0 → ∃ σ' x, xs[n' - 1]? = some x ∧
        F.stealAndPop addr countFn src dst σ = some (.ok (x, n' - 1), σ') ∧
        F.Stolen src dst xs ys n' (n' - 1) σ σ') ↔ F.Passes addr src dst σ (n' - 1)) := by
  intro F f n n'
  obtain ⟨r, r₀, zs, h, hl, hst⟩ := ready hs hd
  obtain ⟨h1, h2⟩ := steal_spec (n := n) hw addr h countFn (by rw [hl])
  obtain ⟨h3, h4⟩ := stealAndPop_spec (n := n') hw addr h countFn (by rw [hl])
  refine ⟨⟨fun hok => ?_, fun hp => ⟨h1, fun h0 => ?_⟩⟩,
    fun hok => ?_, fun hp => ⟨h3, fun h0 => ?_⟩⟩
  · by_contra hp
    have h0 : n ≠ 0 := fun h0 => hp (.of_le (by omega))
    obtain ⟨_, e, -⟩ := hok.2 h0
    obtain ⟨_, e', -⟩ := h2 h0
    rw [e', if_neg hp] at e
    cases e
  · obtain ⟨σ', e, h⟩ := h2 h0
    exact ⟨σ', e.trans (if_pos hp), hst h⟩
  · by_contra hp
    have h0 : n' ≠ 0 := fun h0 => hp (.of_le (by omega))
    obtain ⟨_, _, _, e, -⟩ := hok.2 h0
    obtain ⟨_, _, _, e', -⟩ := h4 h0
    rw [e', if_neg hp] at e
    cases e
  · obtain ⟨σ', x, hx, e, h⟩ := h4 h0
    exact ⟨σ', x, hx, e.trans (if_pos hp), hst h⟩

end

/-- A FIFO queue of four slots with three items, which wrap, and an empty one of two slots. -/
def wrapped : Bool → (flavour 4 ℕ .fifo).Queue
  | false => (⟨pack 14 14, 1, [.live 3, .uninit, .live 1, .live 2], 3⟩ : Fifo.Queue 4 ℕ)
  | true => (⟨pack 5 5, 5, [.uninit, .uninit], 1⟩ : Fifo.Queue 4 ℕ)

lemma wrapped_false : (flavour 4 ℕ .fifo).Stores (wrapped false) [1, 2, 3] :=
  ⟨⟨2, 14, 14, 17, 0⟩, ⟨rfl, rfl, rfl, rfl⟩, ⟨by decide, by decide, by decide, by decide⟩, rfl, rfl,
    rfl, seg_iff.mpr (by decide)⟩

lemma wrapped_true : (flavour 4 ℕ .fifo).Stores (wrapped true) [] :=
  ⟨⟨1, 5, 5, 5, 0⟩, ⟨rfl, rfl, rfl, rfl⟩, ⟨by decide, by decide, by decide, by decide⟩, rfl, rfl,
    rfl, .nil⟩

/-- The destination has room for two of the three items. -/
theorem steal_content_room : ∃ σ',
    (flavour 4 ℕ .fifo).steal Bool.toNat (fun _ => 9) false true wrapped = some (.ok 2, σ') ∧
      (flavour 4 ℕ .fifo).Stolen false true [1, 2, 3] [] 2 2 wrapped σ' :=
  ((steal_content .fifo (by decide) Bool.toNat wrapped_false wrapped_true fun _ => 9).1.mpr
    (.inl (by decide))).2 (by decide)

/-- Two LIFO queues of two slots for items that take no space, the first of them full. -/
def units : Bool → (flavour 16 Unit .lifo).Queue
  | false => (⟨2, pack 0 0, 0, [.live (), .live ()], 1⟩ : Lifo.Queue 16 Unit)
  | true => (⟨0, pack 0 0, 0, [.uninit, .uninit], 1⟩ : Lifo.Queue 16 Unit)

lemma units_false : (flavour 16 Unit .lifo).Stores (units false) [(), ()] :=
  ⟨⟨1, 0, 0, 2, 0⟩, ⟨rfl, rfl, rfl, rfl⟩, ⟨by decide, by decide, by decide, by decide⟩, rfl, rfl,
    rfl, seg_iff.mpr (by decide)⟩

lemma units_true : (flavour 16 Unit .lifo).Stores (units true) [] :=
  ⟨⟨1, 0, 0, 0, 0⟩, ⟨rfl, rfl, rfl, rfl⟩, ⟨by decide, by decide, by decide, by decide⟩, rfl, rfl,
    rfl, .nil⟩

/-- A steal of both items fails the assertion. -/
theorem steal_asserts_on_units : ¬ ∀ (fl : Deque.Flavour) (addr : Bool → ℕ) (src dst : Bool)
    (σ : Bool → (flavour 16 Unit fl).Queue) (xs ys : List Unit) (countFn : ℕ → ℕ),
    (flavour 16 Unit fl).Stores (σ src) xs → (flavour 16 Unit fl).Stores (σ dst) ys →
      let F := flavour 16 Unit fl
      let n := min (min (countFn xs.length) ((F.capacity (σ dst)).toNat - ys.length)) xs.length
      n ≠ 0 → ∃ σ', F.steal addr countFn src dst σ = some (.ok n, σ') ∧
        F.Stolen src dst xs ys n n σ σ' := by
  intro h
  obtain ⟨σ', e, -⟩ := h .lifo (fun _ => 1) false true units _ _ (fun n => n) units_false units_true
    (by decide)
  have hv : (flavour 16 Unit .lifo).steal (fun _ => 1) (fun n => n) false true units = none := by
    decide
  rw [hv] at e
  cases e

/-- **A queue never steals over itself.** The slots that a steal into its own queue reads are none
of those it writes, and the assertion on the chunks of `transfer_items` holds. `dest` is the queue
when its free capacity was computed, `q` when the items were booked: in between, other stealers
may have moved the head up. -/
theorem self_steal_disjoint (fl : Deque.Flavour) (hw : 1 < w) {m : Bool} {countFn : ℕ → ℕ}
    {dest q q' : (flavour w T fl).Queue} {r₀ r : Ring} {p : (flavour w T fl).Plan}
    (hd : (flavour w T fl).Shows dest r₀) (h₀ : r₀.Ok w) (hs : (flavour w T fl).Shows q r)
    (h : r.Ok w) (hk : r.k = r₀.k) (ht : r.tail = r₀.tail) (hle : r₀.stealer ≤ r.stealer)
    (hp : (flavour w T fl).plan m countFn dest q = some (.ok (p, q'))) :
    let F := flavour w T fl
    let n := p.transferCount.toNat
    let cap := (F.mask q').toNat + 1
    let srcIdx := slotIdx p.first (F.mask q')
    let dstIdx := slotIdx (F.tail p.kept) (F.mask q')
    (∀ o < n, ∀ o' < n, ringSlot p.first (F.mask q') o ≠ ringSlot (F.tail p.kept) (F.mask q') o') ∧
      disjointChunks cap srcIdx cap dstIdx
        (chunks (min (cap - srcIdx) n) (min (cap - dstIdx) n) n) = true := by
  intro F n cap srcIdx dstIdx
  obtain ⟨hm, hd, ha⟩ := plan_apart hw hd h₀ hs h hk ht hle hp
  have hcap : cap = 2 ^ r.k := by
    show (F.mask q').toNat + 1 = 2 ^ r.k
    rw [hm, toNat_maskOf h.lt, Nat.sub_add_cancel Nat.one_le_two_pow]
  rw [hcap]
  exact ⟨hd, ha⟩

/-- A LIFO queue of eight slots, of which four items take up the last two and the first two. -/
def halfFull : Lifo.Queue 4 ℕ :=
  ⟨4, pack 2 14, 14, [.live 3, .live 4, .uninit, .uninit, .uninit, .uninit, .live 1, .live 2], 7⟩

/-- It steals all four items from itself. -/
theorem self_steal_disjoint_half : ∃ p q',
    (flavour 4 ℕ .lifo).plan false (fun n => n) halfFull halfFull = some (.ok (p, q')) ∧
      p.transferCount = 4#4 ∧ ∀ o < 4, ∀ o' < 4,
        ringSlot p.first (7 : BitVec 4) o ≠
          ringSlot ((flavour 4 ℕ .lifo).tail p.kept) (7 : BitVec 4) o' := by
  have hs : (flavour 4 ℕ .lifo).Shows halfFull ⟨3, 14, 14, 20, 2⟩ := ⟨rfl, rfl, rfl, rfl⟩
  have ok : Ring.Ok 4 ⟨3, 14, 14, 20, 2⟩ := ⟨by decide, by decide, by decide, by decide⟩
  have hp : ∃ p q', (flavour 4 ℕ .lifo).plan false (fun n => n) halfFull halfFull =
      some (.ok (p, q')) ∧ p.transferCount = 4#4 ∧ (flavour 4 ℕ .lifo).mask q' = 7 :=
    ⟨_, _, rfl, rfl, rfl⟩
  obtain ⟨p, q', e, hc, hm⟩ := hp
  have := (self_steal_disjoint .lifo (by decide) hs ok hs ok rfl rfl le_rfl e).1
  rw [hc, hm] at this
  exact ⟨p, q', e, hc, this⟩

/-! ### `extend` -/

lemma drop_succ_eq_drop {xs : List T} {s : ℕ} : xs.drop (s + 1) = xs.drop s ↔ xs.length ≤ s := by
  constructor
  · intro h
    have := congrArg List.length h
    rw [List.length_drop, List.length_drop] at this
    omega
  · intro h
    rw [List.drop_eq_nil_of_le h, List.drop_eq_nil_of_le (by omega)]

/-- **What `extend` takes from its iterator.** It appends the items it has room for, in order, and
leaves the rest in the iterator, if and only if the iterator yields no more than there is room
for: otherwise it drops the first item in excess. -/
theorem extend_content (fl : Deque.Flavour) {q : (flavour w T fl).Queue} (xs : List T) {ys : List T}
    (h : (flavour w T fl).Stores q ys) :
    let F := flavour w T fl
    let s := (F.capacity q).toNat - ys.length
    (F.Stores (F.extend xs q).1 (ys ++ xs.take s) ∧ (F.extend xs q).2 = xs.drop s) ↔
      xs.length ≤ s := by
  intro F s
  obtain ⟨hc, hr⟩ := extend_spec xs h
  rw [hr, drop_succ_eq_drop]
  exact ⟨fun h => h.2, fun h => ⟨hc, h⟩⟩

/-- A LIFO queue of two slots with one item. -/
def oneLeft : Lifo.Queue 4 ℕ := ⟨1, pack 0 0, 0, [.live 7, .uninit], 1⟩

lemma oneLeft_stores : (flavour 4 ℕ .lifo).Stores oneLeft [7] :=
  ⟨⟨1, 0, 0, 1, 0⟩, ⟨rfl, rfl, rfl, rfl⟩, ⟨by decide, by decide, by decide, by decide⟩, rfl, rfl,
    rfl, seg_iff.mpr (by decide)⟩

/-- One item fits. -/
theorem extend_content_fits : (flavour 4 ℕ .lifo).Stores ((flavour 4 ℕ .lifo).extend [8] oneLeft).1
    [7, 8] ∧ ((flavour 4 ℕ .lifo).extend [8] oneLeft).2 = [] :=
  (extend_content .lifo [8] oneLeft_stores).mpr (by decide)

/-- With room for one item, `extend` takes two of three and drops the second. -/
theorem extend_drops_excess : ¬ ∀ (fl : Deque.Flavour) (q : (flavour 4 ℕ fl).Queue)
    (xs ys : List ℕ), (flavour 4 ℕ fl).Stores q ys →
      let s := ((flavour 4 ℕ fl).capacity q).toNat - ys.length
      (flavour 4 ℕ fl).Stores ((flavour 4 ℕ fl).extend xs q).1 (ys ++ xs.take s) ∧
        ((flavour 4 ℕ fl).extend xs q).2 = xs.drop s := by
  intro h
  have hx := (h .lifo oneLeft [8, 9, 10] [7] oneLeft_stores).2
  have hr : ((flavour 4 ℕ .lifo).extend [8, 9, 10] oneLeft).2 = [10] := by decide
  rw [hr] at hx
  exact absurd hx (by decide)

end St3.Alone
