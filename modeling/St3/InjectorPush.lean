import St3.InjectorMem

/-!
The steps of the injector that belong to a `push`, and how a step is matched in the unbounded
queue. A push takes effect at its compare-exchange on the tail index.
-/

namespace St3.Injector

open Words Unbounded

variable {w : ℕ} {T A : Type*} [DecidableEq A] {s s' : St w T A} {a a' : Unbounded.St T A}
  {t : A} {p' : Pc w T} {q' : ThreadSt T} {l : Option (Event T A)}

/-! ### Matched steps -/

lemma keeps_setThread {r : Right} (h : Keeps s s' r) : Keeps s (s'.setThread t p') r := by
  cases r <;> exact h

lemma grows_setThread (g : Grows s s' a a') : Grows s (s'.setThread t p') a (a'.setThread t q') :=
  ⟨g.tail, g.head, g.pushed, g.tailBlock, g.headBlock⟩

omit [DecidableEq A] in
lemma keeps_refl (s : St w T A) (r : Right) : Keeps s s r := by
  cases r <;> simp [Keeps]

/-- The step of one thread: what it leaves behind in the memory, what the others rely on, what
the thread knows now, and what is still to be written. -/
lemma Rel.move (h : Rel s a) (t : A) (hs : s'.thread = s.thread) (ha : a'.thread = a.thread)
    (hm : MemRel s' a') (g : Grows s s' a a')
    (hk : ∀ u, u ≠ t → ∀ r ∈ (s.thread u).rights, Keeps s s' r) (ht : ThreadOk s' a' p' q')
    (hr : ∀ r ∈ p'.rights, r ∈ (s.thread t).rights ∨ ∀ u, u ≠ t → r ∉ (s.thread u).rights)
    (hp : ∀ b i, i < 31 → 31 * b + i < a'.pushed.length → (s'.slot b i).write = true ∨
      Right.write b i ∈ p'.rights ∨ ∃ u, u ≠ t ∧ Right.write b i ∈ (s.thread u).rights) :
    Rel (s'.setThread t p') (a'.setThread t q') where
  mem := hm.congr rfl rfl rfl rfl rfl rfl rfl rfl rfl rfl rfl
  thread := by
    intro u
    by_cases hu : u = t
    · subst hu
      have hok : ThreadOk (s'.setThread u p') (a'.setThread u q') p' q' :=
        ht.frame (grows_setThread (.refl s' a')) fun r _ => keeps_setThread (keeps_refl s' r)
      simpa [St.setThread, Unbounded.St.setThread] using hok
    · have hok : ThreadOk (s'.setThread t p') (a'.setThread t q') (s.thread u) (a.thread u) :=
        (h.thread u).frame (grows_setThread g) fun r hr => keeps_setThread (hk u hu r hr)
      simpa [St.setThread, Unbounded.St.setThread, hu, hs, ha] using hok
  exclusive := by
    have hnew : ∀ u r, u ≠ t → r ∈ p'.rights → r ∉ (s.thread u).rights := by
      intro u r hu hr'
      rcases hr r hr' with hold | hfree
      · exact fun hru => hu (h.exclusive u t r hru hold)
      · exact hfree u hu
    intro u v r hu hv
    by_cases hut : u = t <;> by_cases hvt : v = t
    · rw [hut, hvt]
    · subst hut
      simp only [St.setThread, Function.update_self, Function.update_of_ne hvt, hs] at hu hv
      exact absurd hv (hnew v r hvt hu)
    · subst hvt
      simp only [St.setThread, Function.update_self, Function.update_of_ne hut, hs] at hu hv
      exact absurd hu (hnew u r hut hv)
    · simp only [St.setThread, Function.update_of_ne hut, Function.update_of_ne hvt, hs] at hu hv
      exact h.exclusive u v r hu hv
  pending := by
    intro b i hi hlt
    rcases hp b i hi hlt with hw | hnew | ⟨u, hu, hold⟩
    · exact .inl hw
    · exact .inr ⟨t, by simpa [St.setThread] using hnew⟩
    · exact .inr ⟨u, by simpa [St.setThread, hu, hs] using hold⟩

/-- A slot that waited to be written still does, or was marked. -/
lemma Rel.still (h : Rel s a) (t : A) {b i : ℕ} (hi : i < 31)
    (hlt : 31 * b + i < a.pushed.length)
    (hw : (s.slot b i).write = true → (s'.slot b i).write = true)
    (ht : Right.write b i ∈ (s.thread t).rights →
      (s'.slot b i).write = true ∨ Right.write b i ∈ p'.rights) :
    (s'.slot b i).write = true ∨ Right.write b i ∈ p'.rights ∨
      ∃ u, u ≠ t ∧ Right.write b i ∈ (s.thread u).rights := by
  rcases h.pending b i hi hlt with hmark | ⟨u, hu⟩
  · exact .inl (hw hmark)
  · by_cases hut : u = t
    · subst hut
      exact (ht hu).imp_right .inl
    · exact .inr (.inr ⟨u, hut, hu⟩)

/-- A thread moves on without touching the memory, and keeps its rights. -/
lemma Rel.go (h : Rel s a) (t : A) (ht : ThreadOk s a p' q')
    (hr : p'.rights = (s.thread t).rights) : Rel (s.setThread t p') (a.setThread t q') := by
  refine h.move t rfl rfl h.mem (.refl s a) (fun _ _ r _ => keeps_refl s r) ht
    (fun r hr' => .inl (hr ▸ hr')) fun b i hi hlt => ?_
  exact h.still t hi hlt id fun hw => .inr (hr ▸ hw)

/-- A step that shows `l` and leads to `s'` is matched from `a`. -/
def Sim (s' : St w T A) (a : Unbounded.St T A) (l : Option (Event T A)) : Prop :=
  ∃ a', (Unbounded.lts T A).Steps a l.toList a' ∧ Rel s' a'

lemma setThread_self {q : ThreadSt T} (hq : a.thread t = q) : a.setThread t q = a := by
  subst hq
  simp [Unbounded.St.setThread]

lemma Sim.stay {q : ThreadSt T} (hq : a.thread t = q)
    (h : Rel s' (a.setThread t q)) : Sim s' a none := by
  rw [setThread_self hq] at h
  exact ⟨a, .refl a, h⟩

lemma Sim.go (hs : Unbounded.Step a l a') (h : Rel s' a') : Sim s' a l := ⟨a', .one hs, h⟩

/-! ### Taking tickets -/

omit [DecidableEq A] in
/-- A push takes the next ticket. -/
lemma MemRel.takeTail (h : MemRel s a) (x : T) (hp : s.tailPos % 32 ≠ 31)
    (hb : s.tailBlock ≠ none) :
    MemRel { s with tailIndex := idx w (s.tailPos + 1) false, tailPos := s.tailPos + 1 }
      { a with pushed := a.pushed ++ [x] } := by
  have hget : ∀ {n : ℕ} {y : T}, a.pushed[n]? = some y → (a.pushed ++ [x])[n]? = some y := by
    intro n y hn
    rw [List.getElem?_append_left (List.getElem?_eq_some_iff.mp hn).1, hn]
  refine { h with
    tailIndex := rfl
    headIndex := ?_
    pushed := ?_
    le := Nat.le_succ_of_le h.le
    tailNone := fun hn => absurd hn hb
    tailSome := ?_
    next := ?_
    slot := ?_ }
  · obtain ⟨c, hc, hlt⟩ := h.headIndex
    exact ⟨c, hc, fun he => by have := hlt he; simp only; omega⟩
  · rw [tick_succ hp, ← h.pushed, List.length_append, List.length_singleton]
  · intro b hsome hp'
    obtain ⟨h1, h2⟩ := h.tailSome b hsome hp
    simp only at hp' ⊢
    omega
  · intro b m hm
    have := h.next b m hm
    simp only
    omega
  · intro b i hi
    have hs := h.slot b i hi
    refine { hs with
      fresh := fun hle => hs.fresh (by simp only [List.length_append] at hle; omega)
      written := fun hw => ?_ }
    obtain ⟨y, hy, hv⟩ := hs.written hw
    exact ⟨y, hget hy, hv⟩

lemma push_cas (hw : 6 ≤ w) (h : Rel s a) {x : T} {next : Bool} {tail : Snap w} {b : ℕ}
    (hpc : (s.thread t).rights = []) (hq : a.thread t = .called (.push x))
    (hr : TailReady s next tail)
    (htb : s.tailBlock ≠ none) (hb : tail.pos = s.tailPos → b = s.tailPos / 32)
    (hlt : s.tailPos < tail.pos + 2 ^ (w - 1)) (hcas : s.tailIndex = tail.index) :
    Sim ({ s with tailIndex := tail.index + one w, tailPos := s.tailPos + 1 }.setThread t
      (if offset tail.index + 1 = 31 then .pushStoreBlock x next (tail.index + one w) b
        else .pushWrite x b (offset tail.index))) a none := by
  have hm := h.mem
  have hpos : s.tailPos = tail.pos := by
    have he := hm.tailIndex.symm.trans (hcas.trans hr.index)
    exact (idx_inj hw hr.le hlt he).1
  have hticket : s.tailPos % 32 ≠ 31 := hpos ▸ hr.ticket
  have hblk := hb hpos.symm
  have hidx : tail.index + one w = idx w (s.tailPos + 1) false := by
    rw [hr.index, idx_add_one, hpos]
  have hoff : offset tail.index = s.tailPos % 32 := by
    rw [hr.index, offset_idx hw, hpos]
  have hi : s.tailPos % 32 < 31 := by omega
  have hlen : a.pushed.length = 31 * b + s.tailPos % 32 := by rw [hm.pushed, tick, hblk]
  rw [hidx, hoff]
  -- the new ticket is held by nobody else
  have hfresh := (hm.slot b _ hi).fresh hlen.le
  have hnobody : ∀ u, Right.write b (s.tailPos % 32) ∉ (s.thread u).rights := by
    intro u hu
    have := ((h.thread u).of_write hu).2.1
    omega
  have hnotail : ∀ u, Right.tail ∉ (s.thread u).rights :=
    fun u hu => hticket ((h.thread u).of_tail hu)
  have hok : WriteOk { s with tailIndex := idx w (s.tailPos + 1) false, tailPos := s.tailPos + 1 }
      { a with pushed := a.pushed ++ [x] } x b (s.tailPos % 32) := by
    refine ⟨hi, ?_, hfresh.1, hfresh.2⟩
    rw [← hlen]
    simp
  have hg : Grows s { s with tailIndex := idx w (s.tailPos + 1) false, tailPos := s.tailPos + 1 }
      a { a with pushed := a.pushed ++ [x] } :=
    ⟨Nat.le_succ _, le_rfl, List.prefix_append _ _, id, id⟩
  have hwrite : ∀ b' i, i < 31 → 31 * b' + i < (a.pushed ++ [x]).length →
      31 * b' + i < a.pushed.length ∨ (b' = b ∧ i = s.tailPos % 32) := by
    intro b' i hi' hlt'
    simp only [List.length_append, List.length_singleton] at hlt'
    omega
  refine .go (.push hq) (h.move t rfl rfl (hm.takeTail x hticket htb) hg ?_ ?_ ?_ ?_)
  · intro u _ r hr'
    refine keeps_of_block rfl (fun _ => rfl) (fun e => ?_) fun _ => ⟨rfl, rfl⟩
    exact absurd (e ▸ hr') (hnotail u)
  · obtain ⟨b₀, hb₀⟩ := Option.ne_none_iff_exists'.mp htb
    obtain ⟨e1, e2⟩ := hm.tailSome b₀ hb₀ hticket
    split_ifs with hlast
    · have h30 : s.tailPos % 32 = 30 := by omega
      have hspare : next = true := hr.spare (by omega)
      have hp1 : s.tailPos + 1 = 32 * b + 31 := by omega
      subst hspare
      rw [h30] at hok
      rw [hp1] at hok ⊢
      exact .pushStoreBlock x b hok rfl (by rw [hb₀, e1, hblk]) (by rw [e2, hblk])
    · exact .pushWrite x b _ hok
  · intro r hr'
    refine .inr fun u _ => ?_
    split_ifs at hr' with hlast
    · simp only [Pc.rights, List.mem_cons, List.not_mem_nil, or_false] at hr'
      rcases hr' with rfl | rfl
      · exact hnotail u
      · have h30 : s.tailPos % 32 = 30 := by omega
        exact h30 ▸ hnobody u
    · simp only [Pc.rights, List.mem_singleton] at hr'
      subst hr'
      exact hnobody u
  · intro b' i hi' hlt'
    rcases hwrite b' i hi' hlt' with hold | ⟨rfl, rfl⟩
    · exact h.still t hi' hold id fun hold' => by simp [hpc] at hold'
    · refine .inr (.inl ?_)
      split_ifs with hlast
      · have h30 : s.tailPos % 32 = 30 := by omega
        simp [Pc.rights, h30]
      · simp [Pc.rights]

/-! ### Blocks of a push -/

/-- What was pending still is, when the slots and the rights to write stay the same. -/
lemma Rel.pending_same (h : Rel s a) (t : A) (hb : ∀ b i, (s'.slot b i).write = (s.slot b i).write)
    (hr : ∀ b i, Right.write b i ∈ (s.thread t).rights → Right.write b i ∈ p'.rights) :
    ∀ b i, i < 31 → 31 * b + i < a.pushed.length → (s'.slot b i).write = true ∨
      Right.write b i ∈ p'.rights ∨ ∃ u, u ≠ t ∧ Right.write b i ∈ (s.thread u).rights :=
  fun b i hi hlt => h.still t hi hlt (fun hw => (hb b i).trans hw) fun hw => .inr (hr b i hw)

/-- Installing the first block. -/
lemma push_install (h : Rel s a) {x : T} {next : Bool} {tail : Snap w}
    (hpc : (s.thread t).rights = []) (hq : a.thread t = .called (.push x))
    (hr : TailReady s next tail) (hn : s.tailBlock = none) :
    Sim ({ s with tailBlock := some s.count, count := s.count + 1 }.setThread t
      (.pushStoreHead x next tail s.count)) a none := by
  have hm := h.mem
  obtain ⟨hp0, hc0⟩ := hm.tailNone hn
  have hle := hr.le
  have hg : Grows s { s with tailBlock := some s.count, count := s.count + 1 } a a :=
    ⟨le_rfl, le_rfl, List.prefix_refl _, by simp, id⟩
  rw [hc0] at hg ⊢
  refine .stay hq (h.move t rfl rfl ?_ hg ?_ ?_ ?_ (h.pending_same t (fun _ _ => rfl) ?_))
  · refine { hm with
      tailNone := by simp
      tailSome := ?_
      noBlock := by simp }
    rintro b ⟨⟩ -
    simp only
    omega
  · intro u _ r hru
    refine keeps_of_block rfl (fun _ => rfl) (fun e => ?_) fun _ => ⟨rfl, rfl⟩
    have := (h.thread u).of_tail (e ▸ hru)
    omega
  · exact .pushStoreHead x next tail (hr.grows hg) (by omega) (hm.noBlock hn) (by simp)
  · intro r hr'
    refine .inr fun u _ hru => ?_
    simp only [Pc.rights, List.mem_singleton] at hr'
    subst hr'
    exact ((h.thread u).of_first hru).2 hn
  · simp [hpc]

/-- Showing the first block to the pops. -/
lemma push_store_head (h : Rel s a) {x : T} {next : Bool} {tail : Snap w}
    (hpc : s.thread t = .pushStoreHead x next tail 0) (hq : a.thread t = .called (.push x))
    (hr : TailReady s next tail) (h0 : tail.pos = 0) (hh : s.headBlock = none)
    (htb : s.tailBlock ≠ none) :
    Sim ({ s with headBlock := some 0 }.setThread t (.pushCas x next tail 0)) a none := by
  have hm := h.mem
  have hp0 := hm.headNone hh
  have hg : Grows s { s with headBlock := some 0 } a a :=
    ⟨le_rfl, le_rfl, List.prefix_refl _, id, by simp⟩
  refine .stay hq (h.move t rfl rfl ?_ hg ?_ ?_ (by simp [Pc.rights])
    (h.pending_same t (fun _ _ => rfl) ?_))
  · refine { hm with
      headNone := by simp
      noBlock := fun hn => absurd hn htb
      headSome := ?_ }
    rintro b ⟨⟩ -
    simp [hp0]
  · intro u hu r hru
    refine keeps_of_block rfl (fun e => ?_) (fun _ => ⟨rfl, rfl, rfl⟩) fun e => ?_
    · exact absurd (h.exclusive u t r hru (by simp [hpc, e, Pc.rights])) hu
    · have := (h.thread u).of_head (e ▸ hru)
      omega
  · exact .pushCas x next tail 0 (hr.grows hg) htb fun he => by simp only at he ⊢; omega
  · simp [hpc, Pc.rights]

/-- The parked tail shows the next block. -/
lemma push_store_block (h : Rel s a) {x : T} {b : ℕ}
    (hpc : s.thread t = .pushStoreBlock x true (idx w (32 * b + 31) false) b)
    (hq : a.thread t = .done .pushed) (hok : WriteOk s a x b 30) (hp : s.tailPos = 32 * b + 31)
    (hc : s.count = b + 1) :
    Sim ({ s with
      tailBlock := some s.count
      count := s.count + 1
      fault := s.fault || !true }.setThread t
        (.pushStoreIndex x (idx w (32 * b + 31) false + one w) b s.count)) a none := by
  have hm := h.mem
  have hf : (s.fault || !true) = s.fault := by simp
  have hpark : s.tailPos % 32 = 31 := by omega
  rw [hf, hc, idx_add_one]
  have hg : Grows s { s with tailBlock := some (b + 1), count := b + 1 + 1 } a a :=
    ⟨le_rfl, le_rfl, List.prefix_refl _, by simp, id⟩
  refine .stay hq (h.move t rfl rfl ?_ hg ?_ ?_ ?_ (h.pending_same t (fun _ _ => rfl) ?_))
  · exact { hm with
      tailNone := by simp
      tailSome := fun _ _ hne => absurd hpark hne
      noBlock := by simp }
  · intro u hu r hru
    refine keeps_of_block rfl (fun _ => rfl) (fun e => ?_) fun _ => ⟨rfl, rfl⟩
    exact absurd (h.exclusive u t r hru (by simp [hpc, e, Pc.rights])) hu
  · exact .pushStoreIndex x b (hok.frame hg ⟨rfl, rfl⟩) hp rfl rfl
  · exact fun r hr => .inl (by simpa [hpc, Pc.rights] using hr)
  · simp [hpc, Pc.rights]

/-- The parked tail moves on. -/
lemma push_store_index (h : Rel s a) {x : T} {b : ℕ}
    (hpc : s.thread t = .pushStoreIndex x (idx w (32 * b + 32) false) b (b + 1))
    (hq : a.thread t = .done .pushed) (hok : WriteOk s a x b 30) (hp : s.tailPos = 32 * b + 31)
    (hb : s.tailBlock = some (b + 1)) (hc : s.count = b + 2) :
    Sim ({ s with tailIndex := idx w (32 * b + 32) false, tailPos := s.tailPos + 1 }.setThread t
      (.pushStoreNext x b (b + 1))) a none := by
  have hm := h.mem
  have hg : Grows s { s with tailIndex := idx w (32 * b + 32) false, tailPos := s.tailPos + 1 }
      a a :=
    ⟨Nat.le_succ _, le_rfl, List.prefix_refl _, id, id⟩
  refine .stay hq (h.move t rfl rfl ?_ hg ?_ ?_ ?_ (h.pending_same t (fun _ _ => rfl) ?_))
  · refine { hm with
      tailIndex := by simp only [hp]
      headIndex := ?_
      pushed := by rw [hm.pushed, tick_park (by omega)]
      le := Nat.le_succ_of_le hm.le
      tailNone := by simp [hb]
      tailSome := ?_
      next := ?_ }
    · obtain ⟨c, hc, hlt⟩ := hm.headIndex
      exact ⟨c, hc, fun he => by have := hlt he; simp only; omega⟩
    · intro b' hb' _
      rw [hb] at hb'
      cases hb'
      simp only
      omega
    · intro c m hcm
      have := hm.next c m hcm
      simp only
      omega
  · intro u hu r hru
    refine keeps_of_block rfl (fun _ => rfl) (fun e => ?_) fun _ => ⟨rfl, rfl⟩
    exact absurd (h.exclusive u t r hru (by simp [hpc, e, Pc.rights])) hu
  · exact .pushStoreNext x b (hok.frame hg ⟨rfl, rfl⟩) (by simp only; omega)
  · refine fun r hr => .inl ?_
    simp only [Pc.rights, List.mem_singleton] at hr
    simp [hpc, Pc.rights, hr]
  · simp [hpc, Pc.rights]

/-! ### Steps inside a block -/

omit [DecidableEq A] in
lemma slot_setBlock (b c i : ℕ) (d : Block T) :
    (s.setBlock b d).slot c i = if c = b then d.slot i else s.slot c i := by
  split_ifs with hc
  · subst hc
    simp [St.slot, St.setBlock]
  · simp [St.slot, St.setBlock, hc]

lemma Rel.inBlock (h : Rel s a) {b : ℕ} {d : Block T} (hq : a.thread t = q')
    (hm : MemRel (s.setBlock b d) a)
    (hk : ∀ u, u ≠ t → ∀ r ∈ (s.thread u).rights, Keeps s (s.setBlock b d) r)
    (ht : ThreadOk (s.setBlock b d) a p' q')
    (hr : ∀ r ∈ p'.rights, r ∈ (s.thread t).rights ∨ ∀ u, u ≠ t → r ∉ (s.thread u).rights)
    (hw : ∀ i, (s.slot b i).write = true → (d.slot i).write = true)
    (hd : ∀ c i, Right.write c i ∈ (s.thread t).rights →
      Right.write c i ∈ p'.rights ∨ c = b ∧ (d.slot i).write = true) :
    Sim ((s.setBlock b d).setThread t p') a none := by
  refine .stay hq (h.move t rfl rfl hm grows_setBlock hk ht hr fun c i hi hlt => ?_)
  refine h.still t hi hlt (fun hmark => ?_) fun hold => ?_
  · rw [slot_setBlock]
    split_ifs with hc
    · subst hc
      exact hw i hmark
    · exact hmark
  · rcases hd c i hold with hnew | ⟨rfl, hmark⟩
    · exact .inr hnew
    · exact .inl (by rw [slot_setBlock, if_pos rfl]; exact hmark)

omit [DecidableEq A] in
/-- A right that another thread has is none of this thread's. -/
lemma Rel.not_mine (h : Rel s a) {u : A} (hu : u ≠ t) {r : Right}
    (hr : r ∈ (s.thread u).rights) (ht : r ∈ (s.thread t).rights) : False :=
  hu (h.exclusive u t r hr ht)

lemma push_store_next (h : Rel s a) {x : T} {b : ℕ}
    (hpc : s.thread t = .pushStoreNext x b (b + 1)) (hq : a.thread t = .done .pushed)
    (hok : WriteOk s a x b 30) (hp : 32 * b + 32 ≤ s.tailPos) :
    Sim ((s.setBlock b { s.block b with next := some (b + 1) }).setThread t
      (.pushWrite x b 30)) a none := by
  have hm := h.mem
  refine h.inBlock hq (hm.setBlock ?_ (fun i hi => hm.slot b i hi) ?_) ?_ ?_ ?_ (fun _ => id) ?_
  · rintro m ⟨⟩
    exact ⟨rfl, hp⟩
  · exact ⟨(hm.block b).sweep, (hm.block b).freed, (hm.block b).destroy⟩
  · exact fun u _ r _ => keeps_setBlock (fun _ _ => ⟨rfl, rfl⟩)
      (fun _ _ => ⟨id, fun _ => rfl, rfl, id⟩) fun _ => ⟨rfl, rfl, fun _ => rfl⟩
  · refine .pushWrite x b 30 (hok.frame grows_setBlock ?_)
    exact keeps_setBlock (fun _ _ => ⟨rfl, rfl⟩)
      (fun _ _ => ⟨id, fun _ => rfl, rfl, id⟩) fun _ => ⟨rfl, rfl, fun _ => rfl⟩
  · refine fun r hr => .inl ?_
    simp only [Pc.rights, List.mem_singleton] at hr
    simp [hpc, Pc.rights, hr]
  · refine fun c i hci => .inl ?_
    simpa [hpc, Pc.rights] using hci

omit [DecidableEq A] in
/-- Changing one slot. -/
lemma keeps_setSlot {b i : ℕ} {sl : Slot T} {r : Right}
    (hw : r = .write b i → sl.value = (s.slot b i).value ∧ sl.write = (s.slot b i).write)
    (hr : r = .read b i → (sl.Moved → (s.slot b i).Moved) ∧
      ((s.slot b i).Moved → sl.value = (s.slot b i).value) ∧ sl.read = (s.slot b i).read ∧
      ((s.slot b i).write → sl.write))
    (hs : r = .sweep b → sl.destroy = (s.slot b i).destroy) : Keeps s (s.setSlot b i sl) r := by
  refine keeps_setBlock (fun j hj => ?_) (fun j hj => ?_) fun hj => ⟨rfl, rfl, fun j => ?_⟩
  · by_cases he : j = i
    · subst he
      simpa using hw hj
    · simp [he, St.slot]
  · by_cases he : j = i
    · subst he
      simpa using hr hj
    · simp [he, St.slot]
  · by_cases he : j = i
    · subst he
      simpa using hs hj
    · simp [he, St.slot]

lemma push_write (h : Rel s a) {x : T} {b i : ℕ} (hpc : s.thread t = .pushWrite x b i)
    (hq : a.thread t = .done .pushed) (hok : WriteOk s a x b i) :
    Sim ((s.setSlot b i { s.slot b i with value := .live x }).setThread t (.pushMark x b i)) a
      none := by
  have hm := h.mem
  have hsl := hm.slot b i hok.lt
  have hnot : ¬ (s.slot b i).Moved := by
    rintro ⟨y, hy⟩
    rw [hok.value] at hy
    cases hy
  have hlt := (List.getElem?_eq_some_iff.mp hok.pushed).1
  refine h.inBlock hq (hm.setSlot (fun _ => ?_) ?_) ?_ ?_ ?_ (fun j => ?_) ?_
  · refine ⟨fun hle => by omega, fun hle => ⟨?_, (hsl.unread hle).2⟩, fun hw => ?_, ?_,
      fun hr => absurd (hsl.read hr) hnot⟩
    · rintro ⟨y, hy⟩
      cases hy
    · rw [hok.write] at hw
      cases hw
    · rintro ⟨y, hy⟩
      cases hy
  · exact (hm.block b).setSlot (fun hmv => absurd hmv hnot) id id
  · intro u hu r hru
    refine keeps_setSlot (fun e => ?_) (fun e => ⟨?_, fun hmv => absurd hmv hnot, rfl, id⟩)
      fun _ => rfl
    · exact (h.not_mine hu hru (by simp [hpc, e, Pc.rights])).elim
    · rintro ⟨y, hy⟩
      cases hy
  · refine .pushMark x b i hok.lt hok.pushed ?_ ?_
    · simp [St.slot, St.setBlock]
    · simpa [St.slot, St.setBlock] using hok.write
  · exact fun r hr => .inl (by simpa [hpc, Pc.rights] using hr)
  · by_cases he : j = i
    · subst he
      simp
    · simp [he, St.slot]
  · exact fun c j hcj => .inl (by simpa [hpc, Pc.rights] using hcj)

lemma push_mark (h : Rel s a) {x : T} {b i : ℕ} (hpc : s.thread t = .pushMark x b i)
    (hq : a.thread t = .done .pushed) (hi : i < 31) (hx : a.pushed[31 * b + i]? = some x)
    (hv : (s.slot b i).value = .live x) :
    Sim ((s.setSlot b i { s.slot b i with write := true }).setThread t (.ret .pushed)) a none := by
  have hm := h.mem
  have hsl := hm.slot b i hi
  have hlt := (List.getElem?_eq_some_iff.mp hx).1
  refine h.inBlock hq (hm.setSlot (fun _ => ?_) ?_) ?_ (.ret .pushed) (by simp [Pc.rights])
    (fun j hj => ?_) ?_
  · exact ⟨fun hle => by omega, hsl.unread, fun _ => ⟨x, hx, .inl hv⟩, fun _ => rfl, hsl.read⟩
  · exact (hm.block b).setSlot id id id
  · intro u hu r hru
    refine keeps_setSlot (fun e => ?_) (fun _ => ⟨id, fun _ => rfl, rfl, fun _ => rfl⟩)
      fun _ => rfl
    exact (h.not_mine hu hru (by simp [hpc, e, Pc.rights])).elim
  · by_cases he : j = i
    · subst he
      simp
    · simpa [he, St.slot] using hj
  · intro c j hcj
    simp only [hpc, Pc.rights, List.mem_singleton, Right.write.injEq] at hcj
    obtain ⟨rfl, rfl⟩ := hcj
    exact .inr ⟨rfl, by simp⟩

end St3.Injector
