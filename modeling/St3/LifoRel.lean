import St3.Lifo

/-!
How a state of the LIFO queue stands for a state of the abstract deque.

The three words of the queue are images of unbounded counters: `pops`, `stolen` and the
number of pushes, which is their sum plus the number of stored items. The ring holds, from
the first item of the booking under way on, the booked items, the stored ones, and those the
owner has written and not published (or claimed and not read).

What a thread carries from an earlier load stays true in the form that mentions the counters
at that load, or only matters while they have not moved since.
-/

namespace St3.Lifo

open Words Slots Deque

variable {w : ℕ} {T A : Type*}

/-- The numbers every thread's knowledge is about. -/
structure Gauge where
  pops : ℕ
  stolen : ℕ
  len : ℕ
  held : ℕ

namespace Gauge

def tail (g : Gauge) : ℕ := g.stolen + g.len
def pushes (g : Gauge) : ℕ := g.tail + g.pops

/-- What one step can do to the gauge. -/
inductive Evolve (g : Gauge) : Gauge → Prop
  | same : Evolve g g
  | push (n : ℕ) : Evolve g { g with len := g.len + n }
  | pop (l : ℕ) (h : g.len = l + 1) : Evolve g { g with pops := g.pops + 1, len := l }
  | book (n : ℕ) (h0 : 0 < n) (hn : n ≤ g.len) (hh : g.held = 0) :
      Evolve g { g with stolen := g.stolen + n, len := g.len - n, held := n }
  | release : Evolve g { g with held := 0 }

/-- What a step of another thread than the owner does not change for the owner. -/
structure Keeps (g g' : Gauge) : Prop where
  evolve : Evolve g g'
  pops : g'.pops = g.pops
  tail : g'.tail = g.tail
  used : g'.held + g'.len ≤ g.held + g.len

lemma Keeps.release (g : Gauge) : Keeps g { g with held := 0 } :=
  ⟨.release, rfl, rfl, by simp only; omega⟩

lemma Keeps.book {g : Gauge} {n : ℕ} (h0 : 0 < n) (hn : n ≤ g.len) (hh : g.held = 0) :
    Keeps g { g with stolen := g.stolen + n, len := g.len - n, held := n } :=
  ⟨.book n h0 hn hh, rfl, by show g.stolen + n + (g.len - n) = g.stolen + g.len; omega,
    by simp only; omega⟩

lemma Keeps.pushes {g g' : Gauge} (h : Keeps g g') : g'.pushes = g.pushes := by
  rw [Gauge.pushes, h.tail, h.pops, Gauge.pushes]

end Gauge

open Gauge

/-! ### What a load of `pop_count_and_head` is good for -/

structure Snap.Ok (g : Gauge) (sn : Snap w) : Prop where
  packed : sn.packed = pack (word w sn.pops) (word w sn.stolen)
  pops : sn.pops ≤ g.pops
  stolen : sn.stolen ≤ g.stolen

/-- As long as nothing was stolen since the load, no booking is under way. -/
def Quiet (g : Gauge) (sn : Snap w) : Prop := sn.stolen = g.stolen → g.held = 0

/-- As long as nothing was popped or stolen since the load, `n` items are there. -/
def Fits (g : Gauge) (sn : Snap w) (n : ℕ) : Prop :=
  sn.pops = g.pops → sn.stolen = g.stolen → n ≤ g.len

section
variable {g g' : Gauge} {sn : Snap w}

lemma Snap.Ok.popCount (h : sn.Ok g) : sn.popCount = word w sn.pops := by
  rw [Snap.popCount, h.packed, unpack_pack]

lemma Snap.Ok.head (h : sn.Ok g) : sn.head = word w sn.stolen := by
  rw [Snap.head, h.packed, unpack_pack]

lemma Snap.Ok.evolve (h : sn.Ok g) (e : Evolve g g') : sn.Ok g' := by
  obtain ⟨hw, hp, hs⟩ := h
  cases e with
  | same => exact ⟨hw, hp, hs⟩
  | push n => exact ⟨hw, hp, hs⟩
  | pop l h => exact ⟨hw, by simp only; omega, hs⟩
  | book n _ _ _ => exact ⟨hw, hp, by simp only; omega⟩
  | release => exact ⟨hw, hp, hs⟩

lemma Quiet.evolve (h : Quiet g sn) (ok : sn.Ok g) (e : Evolve g g') : Quiet g' sn := by
  have := ok.stolen
  cases e with
  | book n h0 _ _ => intro he; simp only at he; omega
  | release => exact fun _ => rfl
  | _ => exact h

lemma Fits.evolve {n : ℕ} (h : Fits g sn n) (ok : sn.Ok g) (e : Evolve g g') : Fits g' sn n := by
  have h1 := ok.stolen
  have h2 := ok.pops
  cases e with
  | push m => intro hp hs; have := h hp hs; simp only; omega
  | pop l _ => intro hp; simp only at hp; omega
  | book m h0 _ _ => intro _ hs; simp only at hs; omega
  | same => exact h
  | release => exact h

/-- With the word unchanged and less than a full turn in between, nothing happened. -/
lemma Snap.Ok.current (h : sn.Ok g) (hp : g.pops < sn.pops + 2 ^ w)
    (hs : g.stolen < sn.stolen + 2 ^ w)
    (he : pack (word w g.pops) (word w g.stolen) = sn.packed) :
    g.pops = sn.pops ∧ g.stolen = sn.stolen := by
  rw [h.packed, pack_inj, word_inj h.pops hp, word_inj h.stolen hs] at he
  exact he

end

/-! ### The threads -/

def BookPc.Ok (g : Gauge) : BookPc w → Prop
  | .loadWord => True
  | .loadHead sn => sn.Ok g
  | .loadCount sn oldHead => sn.Ok g ∧ oldHead = sn.head ∧ Quiet g sn
  | .cas sn oldHead count =>
    sn.Ok g ∧ oldHead = sn.head ∧ Quiet g sn ∧ 0 < count.toNat ∧ Fits g sn count.toNat

lemma BookPc.Ok.evolve {g g' : Gauge} {b : BookPc w} (h : b.Ok g) (e : Evolve g g') :
    b.Ok g' := by
  cases b with
  | loadWord => trivial
  | loadHead sn => exact Snap.Ok.evolve h e
  | loadCount sn oldHead =>
    obtain ⟨ok, he, hq⟩ := h
    exact ⟨ok.evolve e, he, hq.evolve ok e⟩
  | cas sn oldHead count =>
    obtain ⟨ok, he, hq, h0, hf⟩ := h
    exact ⟨ok.evolve e, he, hq.evolve ok e, h0, hf.evolve ok e⟩

/-- `OwnerRel cap g p o extra`: the owner at `p` stands for `o`, with `extra` in the ring
behind the stored items. -/
inductive OwnerRel (cap : ℕ) (g : Gauge) : OwnerPc w T A → OwnerSt T A → List T → Prop
  | idle : OwnerRel cap g .idle .idle []
  | ret (r : Res T A) : OwnerRel cap g (.ret r) (.done r) []
  | pushLoadCount (x : T) : OwnerRel cap g (.pushLoadCount x) (.called (.push x)) []
  | pushLoadPops (x : T) : OwnerRel cap g (.pushLoadPops x (word w g.pushes)) (.called (.push x)) []
  | pushLoadHead (x : T) :
      OwnerRel cap g (.pushLoadHead x (word w g.pushes) (word w g.tail)) (.called (.push x)) []
  | pushWrite (x : T) (h : g.held + g.len < cap) :
      OwnerRel cap g (.pushWrite x (word w g.pushes) (word w g.tail)) (.called (.push x)) []
  | pushStore (x : T) (h : g.held + g.len < cap) :
      OwnerRel cap g (.pushStore (word w g.pushes)) (.called (.push x)) [x]
  | extendLoadCount : OwnerRel cap g .extendLoadCount (.called .extend) []
  | extendLoadPops : OwnerRel cap g (.extendLoadPops (word w g.pushes)) (.called .extend) []
  | extendLoadHead :
      OwnerRel cap g (.extendLoadHead (word w g.pops) (word w g.tail)) (.called .extend) []
  | extendNext (room : ℕ) (got : List T) (hg : got.length ≤ room)
      (h : g.held + g.len + room ≤ cap) :
      OwnerRel cap g (.extendNext (word w g.pops) (word w (g.tail + got.length))
        (word w (g.tail + room))) (.extending room got) got
  | extendWrite (x : T) (room : ℕ) (got : List T) (hg : got.length < room)
      (h : g.held + g.len + room ≤ cap) :
      OwnerRel cap g (.extendWrite x (word w g.pops) (word w (g.tail + got.length))
        (word w (g.tail + room))) (.extending room (got ++ [x])) got
  | extendStore (got : List T) (h : g.held + g.len + got.length ≤ cap) :
      OwnerRel cap g (.extendStore (word w g.pops) (word w (g.tail + got.length)))
        (.storing got .extended) got
  | popLoadWord : OwnerRel cap g .popLoadWord (.called .pop) []
  | popLoadCount (sn : Snap w) (ok : sn.Ok g) (hp : sn.pops = g.pops)
      (ht : g.tail ≤ sn.stolen + cap) : OwnerRel cap g (.popLoadCount sn) (.called .pop) []
  | popCas (sn : Snap w) (ok : sn.Ok g) (hp : sn.pops = g.pops) (hne : sn.stolen ≠ g.tail) :
      OwnerRel cap g (.popCas sn (word w g.tail) (word w (g.pops + 1))) (.called .pop) []
  | popRead (x : T) :
      OwnerRel cap g (.popRead (word w (g.tail + 1))) (.done (.popped (some x))) [x]
  | spareLoadCount : OwnerRel cap g .spareLoadCount (.called .spareCapacity) []
  | spareLoadPops : OwnerRel cap g (.spareLoadPops (word w g.pushes)) (.called .spareCapacity) []
  | spareLoadHead : OwnerRel cap g (.spareLoadHead (word w g.tail)) (.called .spareCapacity) []
  | emptyLoadCount : OwnerRel cap g .emptyLoadCount (.called .isEmpty) []
  | emptyLoadWord : OwnerRel cap g (.emptyLoadWord (word w g.pushes)) (.called .isEmpty) []
  | recvLoadCount (m : Bool) : OwnerRel cap g (.recvLoadCount m) (.called (.receive m)) []
  | recvLoadPops (m : Bool) :
      OwnerRel cap g (.recvLoadPops m (word w g.pushes)) (.called (.receive m)) []
  | recvLoadHead (m : Bool) :
      OwnerRel cap g (.recvLoadHead m (word w g.pushes) (word w g.tail)) (.called (.receive m)) []
  | recvBook (m : Bool) (room : ℕ) (h : g.held + g.len + room ≤ cap) :
      OwnerRel cap g (.recvBook m (word w g.pushes) (word w g.tail) (word w room))
        (.receiving m room) []
  | recvWrite (n : ℕ) (got : List T) (hg : got.length ≤ n) (h : g.held + g.len + n ≤ cap) :
      OwnerRel cap g (.recvWrite (word w g.pushes) (word w g.tail) got.length n)
        (.arriving n got) got
  | recvStore (got : List T) (h : g.held + g.len + got.length ≤ cap) :
      OwnerRel cap g (.recvStore (word w g.pushes) got.length)
        (.storing got (.received got.length)) got
  | drainBook (b : BookPc w) (h : b.Ok g) : OwnerRel cap g (.drainBook b) (.called .drain) []

/-- What the owner knows survives the steps of the other threads. -/
lemma OwnerRel.keeps {cap : ℕ} {g g' : Gauge} {p : OwnerPc w T A} {o : OwnerSt T A}
    {extra : List T} (h : OwnerRel cap g p o extra) (e : Keeps g g') :
    OwnerRel cap g' p o extra := by
  have hu := e.used
  cases h with
  | pushWrite x h => rw [← e.pushes, ← e.tail]; exact .pushWrite x (by omega)
  | pushStore x h => rw [← e.pushes]; exact .pushStore x (by omega)
  | extendNext room got hg h =>
    rw [← e.pops, ← e.tail]; exact .extendNext room _ hg (by omega)
  | extendWrite x room got hg h =>
    rw [← e.pops, ← e.tail]; exact .extendWrite x room _ hg (by omega)
  | extendStore got h => rw [← e.pops, ← e.tail]; exact .extendStore _ (by omega)
  | popLoadCount sn ok hp ht =>
    exact .popLoadCount sn (ok.evolve e.evolve) (by rw [hp, e.pops]) (by rw [e.tail]; exact ht)
  | popCas sn ok hp hne =>
    rw [← e.tail, ← e.pops]
    exact .popCas sn (ok.evolve e.evolve) (by rw [hp, e.pops]) (by rw [e.tail]; exact hne)
  | popRead x => rw [← e.tail]; exact .popRead x
  | recvBook m room h =>
    rw [← e.pushes, ← e.tail]; exact .recvBook m room (by omega)
  | recvWrite n got hg h =>
    rw [← e.pushes, ← e.tail]; exact .recvWrite n _ hg (by omega)
  | recvStore got h => rw [← e.pushes]; exact .recvStore _ (by omega)
  | drainBook b h => exact .drainBook b (h.evolve e.evolve)
  | pushLoadPops x => rw [← e.pushes]; exact .pushLoadPops x
  | pushLoadHead x => rw [← e.pushes, ← e.tail]; exact .pushLoadHead x
  | extendLoadPops => rw [← e.pushes]; exact .extendLoadPops
  | extendLoadHead => rw [← e.pops, ← e.tail]; exact .extendLoadHead
  | spareLoadPops => rw [← e.pushes]; exact .spareLoadPops
  | spareLoadHead => rw [← e.tail]; exact .spareLoadHead
  | emptyLoadWord => rw [← e.pushes]; exact .emptyLoadWord
  | recvLoadPops m => rw [← e.pushes]; exact .recvLoadPops m
  | recvLoadHead m => rw [← e.pushes, ← e.tail]; exact .recvLoadHead m
  | idle => exact .idle
  | ret r => exact .ret r
  | pushLoadCount x => exact .pushLoadCount x
  | extendLoadCount => exact .extendLoadCount
  | popLoadWord => exact .popLoadWord
  | spareLoadCount => exact .spareLoadCount
  | emptyLoadCount => exact .emptyLoadCount
  | recvLoadCount m => exact .recvLoadCount m

/-- A `Drain` has yielded all its items, or it has the booking under way, of which `lent` is
left. -/
def DrainRel (g : Gauge) (mine : Prop) (lent : List T) (current fin : BitVec w) (booked : ℕ) :
    Prop :=
  (¬ mine ∧ current = fin) ∨
    (mine ∧ lent ≠ [] ∧ current = word w (g.stolen - lent.length) ∧ fin = word w g.stolen ∧
      booked = g.held)

/-- `AgentRel g mine lent p q`: the agent at `p` stands for `q`; `mine` says that it has the
booking under way, of which `lent` is left. -/
inductive AgentRel (g : Gauge) (mine : Prop) (lent : List T) : AgentPc w T → AgentSt T → Prop
  | idle (hn : ¬ mine) : AgentRel g mine lent .idle .idle
  | done (r : TaskRes T) (hn : ¬ mine) : AgentRel g mine lent (.done r) (.done r)
  | book (m : Bool) (maxCount : BitVec w) (b : BookPc w) (h : b.Ok g) (hn : ¬ mine) :
      AgentRel g mine lent (.book m maxCount b) (.booking m)
  | move (m : Bool) (oldHead : BitVec w) (n : ℕ) (hm : mine)
      (ho : oldHead + word w n = word w (g.stolen - lent.length))
      (hl : m = true → lent ≠ []) :
      AgentRel g mine lent (.move m oldHead (word w g.stolen) n (n + lent.length)) (.moving m n)
  | storeHead (r : TaskRes T) (hm : mine) (hl : lent = []) :
      AgentRel g mine lent (.storeHead (word w g.stolen) r) (.releasing r)
  | drain (current fin : BitVec w) (booked : ℕ) (h : DrainRel g mine lent current fin booked) :
      AgentRel g mine lent (.drain current fin booked) .draining
  | next (d : Bool) (current fin : BitVec w) (booked : ℕ)
      (h : DrainRel g mine lent current fin booked) :
      AgentRel g mine lent (.next d current fin booked) (.pulling d)
  | nextStore (d : Bool) (x : T) (booked : ℕ) (hm : mine) (hl : lent = []) :
      AgentRel g mine lent (.nextStore d x (word w g.stolen) booked) (.lastPulled d x)
  | nextDone (d : Bool) (o : Option T) (current fin : BitVec w) (booked : ℕ)
      (h : DrainRel g mine lent current fin booked) (hn : o = none → ¬ mine) :
      AgentRel g mine lent (.nextDone d o current fin booked) (.pulled d o)

lemma DrainRel.evolve {g g' : Gauge} {mine mine' : Prop} {lent lent' : List T}
    {current fin : BitVec w} {booked : ℕ} (h : DrainRel g mine lent current fin booked)
    (hm : mine' ↔ mine) (hmine : mine → lent' = lent ∧ g'.stolen = g.stolen ∧ g'.held = g.held) :
    DrainRel g' mine' lent' current fin booked := by
  rcases h with ⟨hn, he⟩ | ⟨h1, h2, h3, h4, h5⟩
  · exact .inl ⟨fun h => hn (hm.mp h), he⟩
  · obtain ⟨rfl, hs, hh⟩ := hmine h1
    exact .inr ⟨hm.mpr h1, h2, by rw [h3, hs], by rw [h4, hs], by rw [h5, hh]⟩

/-- What an agent knows survives the steps of the other threads, which leave a booking of
its own alone. -/
lemma AgentRel.evolve {g g' : Gauge} {mine mine' : Prop} {lent lent' : List T} {p : AgentPc w T}
    {q : AgentSt T} (h : AgentRel g mine lent p q) (e : Evolve g g') (hm : mine' ↔ mine)
    (hmine : mine → lent' = lent ∧ g'.stolen = g.stolen ∧ g'.held = g.held) :
    AgentRel g' mine' lent' p q := by
  cases h with
  | idle hn => exact .idle (hm.not.mpr hn)
  | done r hn => exact .done r (hm.not.mpr hn)
  | book m maxCount b h hn => exact .book m maxCount b (h.evolve e) (hm.not.mpr hn)
  | move m oldHead n h ho hl =>
    obtain ⟨rfl, hs, -⟩ := hmine h
    rw [← hs] at ho ⊢
    exact .move m oldHead n (hm.mpr h) ho hl
  | storeHead r h hl =>
    obtain ⟨rfl, hs, -⟩ := hmine h
    rw [← hs]
    exact .storeHead r (hm.mpr h) hl
  | drain current fin booked h => exact .drain _ _ _ (h.evolve hm hmine)
  | next d current fin booked h => exact .next d _ _ _ (h.evolve hm hmine)
  | nextStore d x booked h hl =>
    obtain ⟨rfl, hs, -⟩ := hmine h
    rw [← hs]
    exact .nextStore d x booked (hm.mpr h) hl
  | nextDone d o current fin booked h hn =>
    exact .nextDone d o _ _ _ (h.evolve hm hmine) fun ho => hm.not.mpr (hn ho)

end St3.Lifo
