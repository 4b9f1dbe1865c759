import St3.InjectorPush

/-!
The steps of the injector that belong to a `pop`, the destruction of its blocks included. A
pop takes effect at its compare-exchange on the head index, or at the load of the tail index
that shows it an empty queue.
-/

namespace St3.Injector

open Words Unbounded

variable {w : ℕ} {T A : Type*} [DecidableEq A] {s s' : St w T A} {a a' : Unbounded.St T A}
  {t : A} {p' : Pc w T} {q' : ThreadSt T} {l : Option (Event T A)}

/-! ### Taking tickets -/

omit [DecidableEq A] in
/-- A pop takes the next ticket, of which a push has been. -/
lemma MemRel.takeHead (h : MemRel s a) {d : Bool} (hp : s.headPos % 32 ≠ 31)
    (hlt : s.headPos < s.tailPos) (hd : d = true → s.headPos / 32 < s.tailPos / 32)
    (hb : s.headBlock ≠ none) :
    MemRel { s with headIndex := idx w (s.headPos + 1) d, headPos := s.headPos + 1 }
      { a with popped := a.popped + 1 } := by
  refine { h with
    headIndex := ⟨d, rfl, fun he => ?_⟩
    popped := ?_
    le := hlt
    headNone := fun hn => absurd hn hb
    headSome := ?_
    slot := ?_ }
  · have := hd he
    simp only
    omega
  · rw [tick_succ hp, ← h.popped]
  · intro b hsome _
    have := h.headSome b hsome hp
    simp only at *
    omega
  · intro b i hi
    have hs := h.slot b i hi
    exact { hs with unread := fun hle => hs.unread (by simp only at hle; omega) }

omit [DecidableEq A] in
/-- A ticket that no pop has taken is there for a pop that lies behind the pushes. -/
lemma MemRel.exists_next (h : MemRel s a) (hp : s.headPos % 32 ≠ 31)
    (hlt : s.headPos < s.tailPos) : ∃ x, a.pushed[a.popped]? = some x := by
  have hle : tick (s.headPos + 1) ≤ tick s.tailPos := tick_mono hlt
  rw [tick_succ hp, ← h.popped, ← h.pushed] at hle
  exact ⟨_, List.getElem?_eq_getElem hle⟩

lemma pop_cas (hw : 6 ≤ w) (h : Rel s a) {head : Snap w} {c d : Bool} {b : ℕ}
    (hpc : (s.thread t).rights = []) (hq : a.thread t = .called .pop) (hs : HeadSnap s head c)
    (ht : head.pos % 32 ≠ 31) (hb : HeadAt s head b) (hlt : head.pos < s.tailPos)
    (hd : d = true → head.pos / 32 < s.tailPos / 32) (hturn : s.headPos < head.pos + 2 ^ (w - 1))
    (hcas : s.headIndex = head.index) :
    Sim ({ s with headIndex := idx w (head.pos + 1) d, headPos := s.headPos + 1 }.setThread t
      (if offset head.index + 1 = 31 then .popWaitNext (idx w (head.pos + 1) d) b
        else .popWaitWrite b (offset head.index))) a none := by
  have hm := h.mem
  have hpos : s.headPos = head.pos := by
    obtain ⟨e, he, -⟩ := hm.headIndex
    exact (idx_inj hw hs.le hturn (he.symm.trans (hcas.trans hs.index))).1
  have hblk := hb.2 hpos.symm
  have hoff : offset head.index = s.headPos % 32 := by rw [hs.index, offset_idx hw, hpos]
  rw [← hpos] at ht hlt hd ⊢
  rw [hoff]
  have hi : s.headPos % 32 < 31 := by omega
  have hpop : a.popped = 31 * b + s.headPos % 32 := by rw [hm.popped, tick, hblk]
  obtain ⟨x, hx⟩ := hm.exists_next ht hlt
  -- the new ticket is held by nobody else
  have hunread := (hm.slot b _ hi).unread hpop.le
  have hnobody : ∀ u, Right.read b (s.headPos % 32) ∉ (s.thread u).rights := by
    intro u hu
    have := ((h.thread u).of_read hm hu).2.1
    omega
  have hnohead : ∀ u, Right.head ∉ (s.thread u).rights :=
    fun u hu => ht ((h.thread u).of_head hu)
  have hok : ReadOk { s with headIndex := idx w (s.headPos + 1) d, headPos := s.headPos + 1 }
      { a with popped := a.popped + 1 } x b (s.headPos % 32) := by
    refine ⟨hi, ?_, ?_, hunread.1, hunread.2⟩
    · rw [← hpop]
      exact hx
    · rw [tick_succ ht, ← hm.popped, hpop]
      exact Nat.lt_succ_self _
  have hg : Grows s { s with headIndex := idx w (s.headPos + 1) d, headPos := s.headPos + 1 }
      a { a with popped := a.popped + 1 } :=
    ⟨le_rfl, Nat.le_succ _, List.prefix_refl _, id, id⟩
  refine .go (.pop hq hx) (h.move t rfl rfl (hm.takeHead ht hlt hd hb.1) hg ?_ ?_ ?_ ?_)
  · intro u _ r hr
    refine keeps_of_block rfl (fun _ => rfl) (fun _ => ⟨rfl, rfl, rfl⟩) fun e => ?_
    exact absurd (e ▸ hr) (hnohead u)
  · split_ifs with hlast
    · have h30 : s.headPos % 32 = 30 := by omega
      have hp1 : s.headPos + 1 = 32 * b + 31 := by omega
      obtain ⟨b₀, hb₀⟩ := Option.ne_none_iff_exists'.mp hb.1
      have hhead : s.headBlock = some b := by rw [hb₀, hm.headSome b₀ hb₀ ht, hblk]
      rw [h30] at hok
      rw [hp1] at hok ⊢
      exact .popWaitNext x b d hok ⟨rfl, hhead⟩
    · exact .popWaitWrite x b _ hok
  · intro r hr
    refine .inr fun u _ => ?_
    split_ifs at hr with hlast
    · simp only [Pc.rights, List.mem_cons, List.not_mem_nil, or_false] at hr
      rcases hr with rfl | rfl
      · exact hnohead u
      · have h30 : s.headPos % 32 = 30 := by omega
        exact h30 ▸ hnobody u
    · simp only [Pc.rights, List.mem_singleton] at hr
      subst hr
      exact hnobody u
  · exact h.pending_same t (fun _ _ => rfl) (by simp [hpc])

/-! ### Moving the head on -/

/-- The parked head shows the next block. -/
lemma pop_store_block (h : Rel s a) {x : T} {b : ℕ} {d : Bool}
    (hpc : s.thread t = .popStoreBlock (idx w (32 * b + 32) d) b (b + 1))
    (hq : a.thread t = .done (.popped (some x))) (hok : ReadOk s a x b 30)
    (hp : HeadParked s b b) (ht : 32 * b + 32 ≤ s.tailPos)
    (hd : d = true → b + 1 < s.tailPos / 32) :
    Sim ({ s with headBlock := some (b + 1) }.setThread t
      (.popStoreIndex (idx w (32 * b + 32) d) b)) a none := by
  have hm := h.mem
  have hpark : s.headPos % 32 = 31 := by
    have := hp.1
    omega
  have hg : Grows s { s with headBlock := some (b + 1) } a a :=
    ⟨le_rfl, le_rfl, List.prefix_refl _, id, by simp⟩
  refine .stay hq (h.move t rfl rfl ?_ hg ?_ ?_ ?_ (h.pending_same t (fun _ _ => rfl) ?_))
  · refine { hm with
      headNone := by simp
      noBlock := fun hn => ?_
      headSome := fun _ _ hne => absurd hpark hne }
    have := hm.noBlock hn
    rw [hp.2] at this
    cases this
  · intro u hu r hru
    refine keeps_of_block rfl (fun e => ?_) (fun _ => ⟨rfl, rfl, rfl⟩) fun e => ?_
    · have := ((h.thread u).of_first (e ▸ hru)).1
      rw [hp.2] at this
      cases this
    · exact absurd (h.exclusive u t r hru (by simp [hpc, e, Pc.rights])) hu
  · exact .popStoreIndex x b d (hok.frame hg ⟨id, fun _ => rfl, rfl, id⟩) ⟨hp.1, rfl⟩ ht hd
  · exact fun r hr => .inl (by simpa [hpc, Pc.rights] using hr)
  · simp [hpc, Pc.rights]

/-- The parked head moves on. -/
lemma pop_store_index (h : Rel s a) {x : T} {b : ℕ} {d : Bool}
    (hpc : s.thread t = .popStoreIndex (idx w (32 * b + 32) d) b)
    (hq : a.thread t = .done (.popped (some x))) (hok : ReadOk s a x b 30)
    (hp : HeadParked s b (b + 1)) (ht : 32 * b + 32 ≤ s.tailPos)
    (hd : d = true → b + 1 < s.tailPos / 32) :
    Sim ({ s with headIndex := idx w (32 * b + 32) d, headPos := s.headPos + 1 }.setThread t
      (.popWaitWrite b 30)) a none := by
  have hm := h.mem
  have hp1 := hp.1
  have hg : Grows s { s with headIndex := idx w (32 * b + 32) d, headPos := s.headPos + 1 } a a :=
    ⟨le_rfl, Nat.le_succ _, List.prefix_refl _, id, id⟩
  refine .stay hq (h.move t rfl rfl ?_ hg ?_ ?_ ?_ (h.pending_same t (fun _ _ => rfl) ?_))
  · refine { hm with
      headIndex := ⟨d, by simp only [hp1], fun he => ?_⟩
      popped := by rw [hm.popped, tick_park (by omega)]
      le := by simp only; omega
      headNone := by simp [hp.2]
      headSome := ?_ }
    · have := hd he
      simp only
      omega
    · intro b' hb' _
      rw [hp.2] at hb'
      cases hb'
      simp only
      omega
  · intro u hu r hru
    refine keeps_of_block rfl (fun _ => rfl) (fun _ => ⟨rfl, rfl, rfl⟩) fun e => ?_
    exact absurd (h.exclusive u t r hru (by simp [hpc, e, Pc.rights])) hu
  · exact .popWaitWrite x b 30 (hok.frame hg ⟨id, fun _ => rfl, rfl, id⟩)
  · refine fun r hr => .inl ?_
    simp only [Pc.rights, List.mem_singleton] at hr
    simp [hpc, Pc.rights, hr]
  · simp [hpc, Pc.rights]

/-! ### Reading -/

omit [DecidableEq A] in
/-- What a reader finds in a slot that is marked as written. -/
lemma ReadOk.live (hm : MemRel s a) {x : T} {b i : ℕ} (h : ReadOk s a x b i)
    (hw : (s.slot b i).write = true) : (s.slot b i).value = .live x := by
  obtain ⟨y, hy, hlive | hmoved⟩ := (hm.slot b i h.lt).written hw
  · obtain rfl : x = y := Option.some.inj (h.pushed.symm.trans hy)
    exact hlive
  · exact absurd ⟨y, hmoved⟩ h.moved

omit [DecidableEq A] in
/-- Reading a slot leaves the memory in order. -/
lemma ReadOk.slotOk (hm : MemRel s a) {x : T} {b i : ℕ} (h : ReadOk s a x b i)
    (hw : (s.slot b i).write = true) :
    SlotOk a.pushed a.popped b i { s.slot b i with value := .moved x } := by
  have hlt := (List.getElem?_eq_some_iff.mp h.pushed).1
  have hpop := hm.popped ▸ h.popped
  exact ⟨fun hle => by omega, fun hle => by omega, fun _ => ⟨x, h.pushed, .inr rfl⟩, fun _ => hw,
    fun _ => ⟨x, rfl⟩⟩

omit [DecidableEq A] in
/-- Others do not notice that the owner of a ticket reads its slot. -/
lemma Rel.keeps_read (h : Rel s a) {x : T} {b i : ℕ} (hpc : Right.read b i ∈ (s.thread t).rights)
    (hw : (s.slot b i).write = true) {u : A} (hu : u ≠ t) {r : Right}
    (hr : r ∈ (s.thread u).rights) :
    Keeps s (s.setSlot b i { s.slot b i with value := .moved x }) r := by
  refine keeps_setSlot (fun e => ?_) (fun e => ?_) fun _ => rfl
  · have := ((h.thread u).of_write (e ▸ hr)).2.2
    rw [hw] at this
    cases this
  · exact (h.not_mine hu hr (e ▸ hpc)).elim

omit [DecidableEq A] in
lemma write_setSlot {sl : Slot T} {b i j : ℕ}
    (hs : (s.slot b i).write = true → sl.write = true) (hj : (s.slot b j).write = true) :
    ((Function.update (s.block b).slot i sl) j).write = true := by
  by_cases he : j = i
  · subst he
    simpa using hs hj
  · simpa [he, St.slot] using hj

/-- The value of a slot that is not the last of its block. -/
lemma pop_read (h : Rel s a) {x : T} {b i : ℕ} (hpc : s.thread t = .popRead b i)
    (hq : a.thread t = .done (.popped (some x))) (hok : ReadOk s a x b i) (hi : i < 30)
    (hw : (s.slot b i).write = true) :
    Sim ((s.setSlot b i { s.slot b i with value := .moved x }).setThread t (.popMark x b i)) a
      none := by
  have hm := h.mem
  refine h.inBlock hq (hm.setSlot (fun _ => hok.slotOk hm hw) ?_) ?_ ?_ ?_ (fun j => ?_) ?_
  · exact (hm.block b).setSlot (fun hmv => absurd hmv hok.moved) id id
  · exact fun u hu r hru => h.keeps_read (by simp [hpc, Pc.rights]) hw hu hru
  · refine .popMark x b i hi ?_ ?_
    · simp [St.slot, St.setBlock]
    · simpa [St.slot, St.setBlock] using hok.read
  · exact fun r hr => .inl (by simpa [hpc, Pc.rights] using hr)
  · exact write_setSlot id
  · simp [hpc, Pc.rights]

/-- The value of the last slot: the block is to be destroyed. -/
lemma pop_read_last (h : Rel s a) {x : T} {b : ℕ} (hpc : s.thread t = .popRead b 30)
    (hq : a.thread t = .done (.popped (some x))) (hok : ReadOk s a x b 30)
    (hw : (s.slot b 30).write = true) :
    Sim ((s.setBlock b { s.block b with
      slot := Function.update (s.block b).slot 30 { s.slot b 30 with value := .moved x }
      sweep := some 0 }).setThread t (.destroyLoad x b 0)) a none := by
  have hm := h.mem
  have hfreed := hm.not_freed_of_moved (by omega) hok.moved
  have hsweep : (s.block b).sweep = none := by
    by_contra hne
    obtain ⟨j, hj⟩ := Option.ne_none_iff_exists'.mp hne
    exact hok.moved ((hm.block b).sweep j hj).2.1
  have hnobody : ∀ u, Right.sweep b ∉ (s.thread u).rights := by
    intro u hu
    obtain ⟨j, hj⟩ := (h.thread u).of_sweep hu
    have := hj.sweep
    rw [hsweep] at this
    cases this
  have hdestroy : (s.slot b 0).destroy = false := by
    by_contra hd
    obtain ⟨j, hj, -⟩ := (hm.block b).destroy 0 (by simpa [St.slot] using hd)
    rw [hsweep] at hj
    cases hj
  have hblock : BlockOk { s.block b with
      slot := Function.update (s.block b).slot 30 { s.slot b 30 with value := .moved x } } :=
    (hm.block b).setSlot (fun hmv => absurd hmv hok.moved) id id
  refine h.inBlock hq (hm.setBlock (fun m hn => hm.next b m hn) (fun j hj => ?_) ?_) ?_ ?_ ?_
    (fun j => write_setSlot id) ?_
  · by_cases he : j = 30
    · subst he
      simpa using hok.slotOk hm hw
    · simpa [he, St.slot] using hm.slot b j hj
  · exact hblock.begin hsweep hfreed ⟨x, by simp⟩
  · intro u hu r hru
    have hk : Keeps s (s.setSlot b 30 { s.slot b 30 with value := .moved x }) r :=
      h.keeps_read (by simp [hpc, Pc.rights]) hw hu hru
    refine keeps_setBlock (fun i e => ?_) (fun i e => ?_) fun e => absurd (e ▸ hru) (hnobody u)
    · subst e
      simpa [Keeps, St.setSlot, slot_setBlock] using hk
    · subst e
      simpa [Keeps, St.setSlot, slot_setBlock] using hk
  · refine .destroyLoad x b 0 ⟨?_, ?_, ?_⟩
    · simp [St.setBlock]
    · simpa [St.setBlock] using hfreed
    · rw [slot_setBlock, if_pos rfl]
      simpa [St.slot] using hdestroy
  · intro r hr
    simp only [Pc.rights, List.mem_singleton] at hr
    subst hr
    exact .inr fun u _ => hnobody u
  · simp [hpc, Pc.rights]

/-! ### Destroying a block -/

/-- A step of the destruction, or a reader that takes it over, in a block with unchanged
values and marks of writers. -/
lemma Rel.sweeps (h : Rel s a) {x : T} {b : ℕ} {d : Block T}
    (hq : a.thread t = .done (.popped (some x)))
    (hnw : ∀ c j, Right.write c j ∉ (s.thread t).rights)
    (hown : Right.sweep b ∈ (s.thread t).rights ∨ ∀ u, u ≠ t → Right.sweep b ∉ (s.thread u).rights)
    (hn : d.next = (s.block b).next)
    (hv : ∀ j, (d.slot j).value = (s.slot b j).value ∧ (d.slot j).write = (s.slot b j).write)
    (hr : ∀ j, (d.slot j).read = (s.slot b j).read ∨
      (d.slot j).read = true ∧ (s.slot b j).Moved ∧ Right.read b j ∈ (s.thread t).rights)
    (hd : BlockOk d)
    (ht : ThreadOk (s.setBlock b d) a p' (.done (.popped (some x))))
    (hp : p'.rights = [.sweep b] ∨ p'.rights = []) :
    Sim ((s.setBlock b d).setThread t p') a none := by
  have hm := h.mem
  have hmoved : ∀ j, (d.slot j).Moved ↔ (s.slot b j).Moved := by
    intro j
    unfold Slot.Moved
    rw [(hv j).1]
  refine h.inBlock hq (hm.setBlock (fun m hm' => hm.next b m (hn ▸ hm')) (fun j hj => ?_) hd)
    ?_ ht ?_ (fun j hj => (hv j).2 ▸ hj) fun c j hcj => absurd hcj (hnw c j)
  · have hs := hm.slot b j hj
    refine ⟨fun hle => ?_, fun hle => ?_, fun hw => ?_, fun hmv => ?_, fun hread => ?_⟩
    · rw [(hv j).1, (hv j).2]
      exact hs.fresh hle
    · obtain ⟨h1, h2⟩ := hs.unread hle
      rw [hmoved]
      rcases hr j with he | ⟨-, hmv, -⟩
      · exact ⟨h1, he.trans h2⟩
      · exact absurd hmv h1
    · rw [(hv j).1]
      exact hs.written ((hv j).2 ▸ hw)
    · rw [(hv j).2]
      exact hs.moved ((hmoved j).mp hmv)
    · rw [hmoved]
      rcases hr j with he | ⟨-, hmv, -⟩
      · exact hs.read (he ▸ hread)
      · exact hmv
  · intro u hu r hru
    refine keeps_setBlock (fun j _ => hv j) (fun j e => ?_) fun e => ?_
    · refine ⟨(hmoved j).mp, fun _ => (hv j).1, ?_, fun hw => (hv j).2 ▸ hw⟩
      rcases hr j with he | ⟨-, -, hmine⟩
      · exact he
      · exact (h.not_mine hu hru (e ▸ hmine)).elim
    · rcases hown with hmine | hfree
      · exact (h.not_mine hu hru (e ▸ hmine)).elim
      · exact absurd (e ▸ hru) (hfree u hu)
  · intro r hr'
    rcases hp with he | he
    · rw [he, List.mem_singleton] at hr'
      subst hr'
      exact hown
    · simp [he] at hr'

/-- A reader marks its slot, and the destruction has not asked for it. -/
lemma pop_mark (h : Rel s a) {x : T} {b i : ℕ} (hpc : s.thread t = .popMark x b i)
    (hq : a.thread t = .done (.popped (some x))) (hi : i < 30)
    (hv : (s.slot b i).value = .moved x) :
    Sim ((s.setSlot b i { s.slot b i with read := true }).setThread t
      (.ret (.popped (some x)))) a none := by
  have hm := h.mem
  have hs := hm.slot b i (by omega)
  have hpop := ((h.thread t).of_read hm (b := b) (i := i) (by simp [hpc, Pc.rights])).2.1
  refine h.inBlock hq (hm.setSlot (fun _ => ?_) ?_) ?_ (.ret _) (by simp [Pc.rights])
    (fun j => write_setSlot id) (by simp [hpc, Pc.rights])
  · exact ⟨hs.fresh, fun hle => by omega, hs.written, hs.moved, fun _ => ⟨x, hv⟩⟩
  · exact (hm.block b).setSlot id (fun _ => rfl) id
  · intro u hu r hru
    refine keeps_setSlot (fun _ => ⟨rfl, rfl⟩) (fun e => ?_) fun _ => rfl
    exact (h.not_mine hu hru (by simp [hpc, e, Pc.rights])).elim

/-- The destruction has asked for no slot beyond the one it has come to. -/
lemma BlockOk.destroy_succ {d : Block T} {i : ℕ} (h : BlockOk d) (hs : d.sweep = some i) :
    (d.slot (i + 1)).destroy = false := by
  by_contra hne
  obtain ⟨k, hk, hle, -⟩ := h.destroy (i + 1) (by simpa using hne)
  obtain rfl : i = k := Option.some.inj (hs.symm.trans hk)
  omega

/-- A reader that the destruction did not wait for goes on with it. -/
lemma pop_mark_destroy (h : Rel s a) {x : T} {b i : ℕ} (hpc : s.thread t = .popMark x b i)
    (hq : a.thread t = .done (.popped (some x))) (hi : i < 30)
    (hv : (s.slot b i).value = .moved x) (hr : (s.slot b i).read = false)
    (hd : (s.slot b i).destroy = true) :
    Sim ((s.setBlock b { s.block b with
      slot := Function.update (s.block b).slot i { s.slot b i with read := true }
      sweep := some (i + 1) }).setThread t (.destroyLoad x b (i + 1))) a none := by
  have hm := h.mem
  have hfreed := hm.not_freed_of_read hi hr
  obtain ⟨j, hj, hij, hji⟩ := (hm.block b).destroy i hd
  obtain rfl : j = i := hji hr
  have hblock : BlockOk { s.block b with
      slot := Function.update (s.block b).slot j { s.slot b j with read := true } } :=
    (hm.block b).setSlot id (fun _ => rfl) id
  refine h.sweeps hq (by simp [hpc, Pc.rights]) (.inr fun u _ hu => ?_) rfl (fun k => ?_)
    (fun k => ?_) (hblock.advance hj hi hfreed (by simp)) (.destroyLoad x b (j + 1) ⟨?_, ?_, ?_⟩)
    (.inl rfl)
  · -- whoever sweeps the block has not asked yet for the slot it has come to
    obtain ⟨k, hk⟩ := (h.thread u).of_sweep hu
    obtain rfl : j = k := Option.some.inj (hj.symm.trans hk.sweep)
    have := hk.destroy
    rw [hd] at this
    cases this
  · by_cases he : k = j
    · subst he
      simp
    · simp [he, St.slot]
  · by_cases he : k = j
    · subst he
      exact .inr ⟨by simp, ⟨x, hv⟩, by simp [hpc, Pc.rights]⟩
    · exact .inl (by simp [he, St.slot])
  · simp [St.setBlock]
  · simpa [St.setBlock] using hfreed
  · rw [slot_setBlock, if_pos rfl]
    simpa using (hm.block b).destroy_succ hj

/-- The destruction passes a slot that was read. -/
lemma destroy_pass (h : Rel s a) {x : T} {b i : ℕ} (hpc : s.thread t = .destroyLoad x b i)
    (hq : a.thread t = .done (.popped (some x))) (hi : i < 30) (hok : SweepOk s b i)
    (hr : (s.slot b i).read = true) :
    Sim ((s.setSweep b (i + 1)).setThread t (.destroyLoad x b (i + 1))) a none := by
  have hb := h.mem.block b
  refine h.sweeps hq (by simp [hpc, Pc.rights]) (.inl (by simp [hpc, Pc.rights])) rfl
    (fun _ => ⟨rfl, rfl⟩) (fun _ => .inl rfl) (hb.advance hok.sweep hi hok.freed hr)
    (.destroyLoad x b (i + 1) ⟨?_, ?_, ?_⟩) (.inl rfl)
  · simp [St.setBlock]
  · simpa [St.setBlock] using hok.freed
  · rw [slot_setBlock, if_pos rfl]
    exact hb.destroy_succ hok.sweep

/-- The destruction has passed every slot. -/
lemma destroy_free (h : Rel s a) {x : T} {b i : ℕ} (hpc : s.thread t = .destroyLoad x b i)
    (hq : a.thread t = .done (.popped (some x))) (hi : ¬ i < 30) (hok : SweepOk s b i) :
    Sim ((s.setBlock b { s.block b with freed := true }).setThread t
      (.ret (.popped (some x)))) a none := by
  have hb := h.mem.block b
  obtain rfl : i = 30 := by
    have := (hb.sweep i hok.sweep).1
    omega
  exact h.sweeps hq (by simp [hpc, Pc.rights]) (.inl (by simp [hpc, Pc.rights])) rfl
    (fun _ => ⟨rfl, rfl⟩) (fun _ => .inl rfl) (hb.free hok.sweep) (.ret _) (.inr rfl)

section
variable {x : T} {b i : ℕ}

/-- The destruction asks for a slot that was read in between, and passes it. -/
lemma destroy_ask_pass (h : Rel s a) (hpc : s.thread t = .destroyOr x b i)
    (hq : a.thread t = .done (.popped (some x))) (hi : i < 30) (hok : SweepOk s b i)
    (hr : (s.slot b i).read = true) :
    Sim ((s.setBlock b { s.block b with
      slot := Function.update (s.block b).slot i { s.slot b i with destroy := true }
      sweep := some (i + 1) }).setThread t (.destroyLoad x b (i + 1))) a none := by
  have hb := h.mem.block b
  have hmark := hb.mark hok.sweep
  refine h.sweeps hq (by simp [hpc, Pc.rights]) (.inl (by simp [hpc, Pc.rights])) rfl
    (fun k => ?_) (fun k => ?_) (hmark.advance hok.sweep hi hok.freed ?_)
    (.destroyLoad x b (i + 1) ⟨?_, ?_, ?_⟩) (.inl rfl)
  · by_cases he : k = i
    · subst he
      simp
    · simp [he, St.slot]
  · by_cases he : k = i
    · subst he
      simp
    · simp [he, St.slot]
  · simpa [St.slot] using hr
  · simp [St.setBlock]
  · simpa [St.setBlock] using hok.freed
  · rw [slot_setBlock, if_pos rfl]
    simpa using hb.destroy_succ hok.sweep

/-- The destruction leaves the rest of the block to a reader that is not done. -/
lemma destroy_ask (h : Rel s a) (hpc : s.thread t = .destroyOr x b i)
    (hq : a.thread t = .done (.popped (some x))) (hok : SweepOk s b i) :
    Sim ((s.setSlot b i { s.slot b i with destroy := true }).setThread t
      (.ret (.popped (some x)))) a none := by
  refine h.sweeps hq (by simp [hpc, Pc.rights]) (.inl (by simp [hpc, Pc.rights])) rfl
    (fun k => ?_) (fun k => ?_) ((h.mem.block b).mark hok.sweep) (.ret _) (.inr rfl)
  · by_cases he : k = i
    · subst he
      simp
    · simp [he, St.slot]
  · by_cases he : k = i
    · subst he
      simp
    · simp [he, St.slot]

end

end St3.Injector
