import St3.Fifo

/-!
How a state of the FIFO queue stands for a state of the abstract deque.

The stealer head, the end of the booking under way, the worker head and the tail are
unbounded positions in this order. Between the first two lie the booked items, between the
next two the slots of items popped past the booking, which are empty, and then the stored
items.

What a thread carries from an earlier load stays true in the form that mentions the positions
at that load, or only matters while they have not moved since.
-/

namespace St3.Fifo

open Words Slots Deque

variable {w : ℕ} {T A : Type*}

/-- The positions every thread's knowledge is about; `fin` is the end of the booking. -/
structure Gauge where
  wh : ℕ
  sh : ℕ
  fin : ℕ
  len : ℕ

namespace Gauge

def tail (g : Gauge) : ℕ := g.wh + g.len

/-- What one step can do to the gauge. -/
inductive Evolve (g : Gauge) : Gauge → Prop
  | same : Evolve g g
  | push (n : ℕ) : Evolve g { g with len := g.len + n }
  | popBoth (l : ℕ) (h : g.len = l + 1) (hs : g.sh = g.wh) :
      Evolve g { wh := g.wh + 1, sh := g.sh + 1, fin := g.wh + 1, len := l }
  | popPast (l : ℕ) (h : g.len = l + 1) (hs : g.sh ≠ g.wh) :
      Evolve g { g with wh := g.wh + 1, len := l }
  | book (n : ℕ) (h0 : 0 < n) (hn : n ≤ g.len) (hs : g.sh = g.wh) :
      Evolve g { g with wh := g.wh + n, fin := g.wh + n, len := g.len - n }
  | release (hs : g.sh ≤ g.wh) : Evolve g { g with sh := g.wh, fin := g.wh }

/-- What a step of another thread than the owner does not change for the owner. -/
structure Keeps (g g' : Gauge) : Prop where
  evolve : Evolve g g'
  tail : g'.tail = g.tail
  sh : g.sh ≤ g'.sh

lemma Keeps.release {g : Gauge} (h : g.sh ≤ g.wh) : Keeps g { g with sh := g.wh, fin := g.wh } :=
  ⟨.release h, rfl, h⟩

lemma Keeps.book {g : Gauge} {n : ℕ} (h0 : 0 < n) (hn : n ≤ g.len) (hs : g.sh = g.wh) :
    Keeps g { g with wh := g.wh + n, fin := g.wh + n, len := g.len - n } :=
  ⟨.book n h0 hn hs, by show g.wh + n + (g.len - n) = g.wh + g.len; omega, le_rfl⟩

lemma Evolve.le {g g' : Gauge} (h : Evolve g g') : g.wh ≤ g'.wh ∧ g.sh ≤ g'.sh := by
  cases h with
  | same => exact ⟨le_rfl, le_rfl⟩
  | release hs => exact ⟨le_rfl, hs⟩
  | _ => exact ⟨by simp only; omega, by simp only; omega⟩

end Gauge

open Gauge

/-! ### What a load of `heads` is good for -/

/-- `sn` is a load of the heads at positions less than a turn apart. -/
structure Snap.Ok (g : Gauge) (sn : Snap w) : Prop where
  packed : sn.packed = pack (word w sn.wh) (word w sn.sh)
  wh : sn.wh ≤ g.wh
  sh : sn.sh ≤ g.sh
  le : sn.sh ≤ sn.wh
  lt : sn.wh < sn.sh + 2 ^ w

/-- As long as the worker head has not moved since the load, `n` items are there. -/
def Fits (g : Gauge) (sn : Snap w) (n : ℕ) : Prop := sn.wh = g.wh → n ≤ g.len

section
variable {g g' : Gauge} {sn : Snap w}

lemma Snap.Ok.workerHead (h : sn.Ok g) : sn.workerHead = word w sn.wh := by
  rw [Snap.workerHead, h.packed, unpack_pack]

lemma Snap.Ok.stealerHead (h : sn.Ok g) : sn.stealerHead = word w sn.sh := by
  rw [Snap.stealerHead, h.packed, unpack_pack]

/-- The two heads never coincide by wrapping around. -/
lemma Snap.Ok.heads_eq (h : sn.Ok g) : sn.stealerHead = sn.workerHead ↔ sn.sh = sn.wh := by
  rw [h.stealerHead, h.workerHead, eq_comm, word_inj h.le h.lt, eq_comm]

lemma Snap.Ok.evolve (h : sn.Ok g) (e : Evolve g g') : sn.Ok g' :=
  ⟨h.packed, h.wh.trans e.le.1, h.sh.trans e.le.2, h.le, h.lt⟩

lemma Fits.evolve {n : ℕ} (h : Fits g sn n) (ok : sn.Ok g) (e : Evolve g g') : Fits g' sn n := by
  have h1 := ok.wh
  cases e with
  | same => exact h
  | push m => intro hw; have := h hw; simp only; omega
  | release => exact h
  | popBoth l _ _ => intro hw; simp only at hw; omega
  | popPast l _ _ => intro hw; simp only at hw; omega
  | book m h0 _ _ => intro hw; simp only at hw; omega

/-- With the word unchanged and less than a full turn in between, nothing happened. -/
lemma Snap.Ok.current (h : sn.Ok g) (hw : g.wh < sn.wh + 2 ^ w) (hs : g.sh < sn.sh + 2 ^ w)
    (he : pack (word w g.wh) (word w g.sh) = sn.packed) : g.wh = sn.wh ∧ g.sh = sn.sh := by
  rw [h.packed, pack_inj, word_inj h.wh hw, word_inj h.sh hs] at he
  exact he

end

/-! ### The threads -/

def BookPc.Ok (g : Gauge) : BookPc w → Prop
  | .loadHeads => True
  | .loadTail sn => sn.Ok g ∧ sn.sh = sn.wh
  | .cas sn count => sn.Ok g ∧ sn.sh = sn.wh ∧ 0 < count.toNat ∧ Fits g sn count.toNat

lemma BookPc.Ok.evolve {g g' : Gauge} {b : BookPc w} (h : b.Ok g) (e : Evolve g g') :
    b.Ok g' := by
  cases b with
  | loadHeads => trivial
  | loadTail sn => exact ⟨h.1.evolve e, h.2⟩
  | cas sn count =>
    obtain ⟨ok, he, h0, hf⟩ := h
    exact ⟨ok.evolve e, he, h0, hf.evolve ok e⟩

/-- `OwnerRel cap g p o extra pend`: the owner at `p` stands for `o`, with `extra` in the ring
behind the stored items, and `pend` the position and the item of a pop that has taken effect
and not read its slot yet. -/
inductive OwnerRel (cap : ℕ) (g : Gauge) :
    OwnerPc w T A → OwnerSt T A → List T → Option (ℕ × T) → Prop
  | idle : OwnerRel cap g .idle .idle [] none
  | ret (r : Res T A) : OwnerRel cap g (.ret r) (.done r) [] none
  | pushLoadHeads (x : T) : OwnerRel cap g (.pushLoadHeads x) (.called (.push x)) [] none
  | pushLoadTail (x : T) (sh : ℕ) (hs : sh ≤ g.sh) (h : g.tail < sh + cap) :
      OwnerRel cap g (.pushLoadTail x (word w sh)) (.called (.push x)) [] none
  | pushLoadTailFull (x : T) (sh : ℕ) (h : g.tail = sh + cap) :
      OwnerRel cap g (.pushLoadTail x (word w sh)) (.done (.pushErr x)) [] none
  | pushWrite (x : T) (h : g.tail < g.sh + cap) :
      OwnerRel cap g (.pushWrite x (word w g.tail)) (.called (.push x)) [] none
  | pushStore (x : T) (h : g.tail < g.sh + cap) :
      OwnerRel cap g (.pushStore (word w g.tail)) (.called (.push x)) [x] none
  | extendLoadHeads : OwnerRel cap g .extendLoadHeads (.called .extend) [] none
  | extendLoadTail (sh room : ℕ) (hs : sh ≤ g.sh) (h : g.tail + room = sh + cap) :
      OwnerRel cap g (.extendLoadTail (word w sh)) (.extending room []) [] none
  | extendNext (room : ℕ) (got : List T) (hg : got.length ≤ room)
      (h : g.tail + room ≤ g.sh + cap) :
      OwnerRel cap g (.extendNext (word w (g.tail + got.length)) (word w (g.tail + room)))
        (.extending room got) got none
  | extendWrite (x : T) (room : ℕ) (got : List T) (hg : got.length < room)
      (h : g.tail + room ≤ g.sh + cap) :
      OwnerRel cap g (.extendWrite x (word w (g.tail + got.length)) (word w (g.tail + room)))
        (.extending room (got ++ [x])) got none
  | extendStore (got : List T) (h : g.tail + got.length ≤ g.sh + cap) :
      OwnerRel cap g (.extendStore (word w (g.tail + got.length))) (.storing got .extended)
        got none
  | popLoadHeads : OwnerRel cap g .popLoadHeads (.called .pop) [] none
  | popLoadTail (sn : Snap w) (ok : sn.Ok g) (hlt : sn.wh < g.tail)
      (hcap : g.tail ≤ sn.wh + cap) :
      OwnerRel cap g (.popLoadTail sn) (.called .pop) [] none
  | popLoadTailNone (sn : Snap w) (ok : sn.Ok g) (he : sn.wh = g.tail) :
      OwnerRel cap g (.popLoadTail sn) (.done (.popped none)) [] none
  | popCas (sn : Snap w) (ok : sn.Ok g) (hlt : sn.wh < g.tail) :
      OwnerRel cap g (.popCas sn) (.called .pop) [] none
  | popRead (x : T) (n : ℕ) :
      OwnerRel cap g (.popRead (word w n)) (.done (.popped (some x))) [] (some (n, x))
  | spareLoadHeads : OwnerRel cap g .spareLoadHeads (.called .spareCapacity) [] none
  | spareLoadTail (sh room : ℕ) (h : g.tail + room = sh + cap) (hs : sh ≤ g.tail) :
      OwnerRel cap g (.spareLoadTail (word w sh)) (.done (.spare room)) [] none
  | emptyLoadHeads : OwnerRel cap g .emptyLoadHeads (.called .isEmpty) [] none
  | emptyLoadTail (wh : ℕ) (b : Bool) (hle : wh ≤ g.tail) (hcap : g.tail ≤ wh + cap)
      (hb : b = true ↔ g.tail = wh) :
      OwnerRel cap g (.emptyLoadTail (word w wh)) (.done (.isEmpty b)) [] none
  | recvLoadTail (m : Bool) : OwnerRel cap g (.recvLoadTail m) (.called (.receive m)) [] none
  | recvLoadHeads (m : Bool) :
      OwnerRel cap g (.recvLoadHeads m (word w g.tail)) (.called (.receive m)) [] none
  | recvBook (m : Bool) (room : ℕ) (h : g.tail + room ≤ g.sh + cap) (hr : room ≤ cap) :
      OwnerRel cap g (.recvBook m (word w g.tail) (word w room)) (.receiving m room) [] none
  | recvWrite (n : ℕ) (got : List T) (hg : got.length ≤ n) (h : g.tail + n ≤ g.sh + cap) :
      OwnerRel cap g (.recvWrite (word w g.tail) got.length n) (.arriving n got) got none
  | recvStore (got : List T) (h : g.tail + got.length ≤ g.sh + cap) :
      OwnerRel cap g (.recvStore (word w g.tail) got.length)
        (.storing got (.received got.length)) got none
  | drainBook (b : BookPc w) (h : b.Ok g) :
      OwnerRel cap g (.drainBook b) (.called .drain) [] none

/-- What the owner knows survives the steps of the other threads. -/
lemma OwnerRel.keeps {cap : ℕ} {g g' : Gauge} {p : OwnerPc w T A} {o : OwnerSt T A}
    {extra : List T} {pend : Option (ℕ × T)} (h : OwnerRel cap g p o extra pend)
    (e : Keeps g g') : OwnerRel cap g' p o extra pend := by
  have hu := e.sh
  have ht := e.tail
  cases h with
  | pushLoadTail x sh hs h => exact .pushLoadTail x sh (hs.trans hu) (by omega)
  | pushLoadTailFull x sh h => exact .pushLoadTailFull x sh (by omega)
  | pushWrite x h => rw [← ht]; exact .pushWrite x (by omega)
  | pushStore x h => rw [← ht]; exact .pushStore x (by omega)
  | extendLoadTail sh room hs h => exact .extendLoadTail sh room (hs.trans hu) (by omega)
  | extendNext room got hg h => rw [← ht]; exact .extendNext room _ hg (by omega)
  | extendWrite x room got hg h => rw [← ht]; exact .extendWrite x room _ hg (by omega)
  | extendStore got h => rw [← ht]; exact .extendStore _ (by omega)
  | popLoadTail sn ok hlt hcap =>
    exact .popLoadTail sn (ok.evolve e.evolve) (by omega) (by omega)
  | popLoadTailNone sn ok he => exact .popLoadTailNone sn (ok.evolve e.evolve) (by omega)
  | popCas sn ok hlt => exact .popCas sn (ok.evolve e.evolve) (by omega)
  | popRead x n => exact .popRead x n
  | spareLoadTail sh room h hs => exact .spareLoadTail sh room (by omega) (by omega)
  | emptyLoadTail wh b hle hcap hb =>
    exact .emptyLoadTail wh b (by omega) (by omega) (by rw [ht]; exact hb)
  | recvLoadHeads m => rw [← ht]; exact .recvLoadHeads m
  | recvBook m room h hr => rw [← ht]; exact .recvBook m room (by omega) hr
  | recvWrite n got hg h => rw [← ht]; exact .recvWrite n _ hg (by omega)
  | recvStore got h => rw [← ht]; exact .recvStore _ (by omega)
  | drainBook b h => exact .drainBook b (h.evolve e.evolve)
  | idle => exact .idle
  | ret r => exact .ret r
  | pushLoadHeads x => exact .pushLoadHeads x
  | extendLoadHeads => exact .extendLoadHeads
  | popLoadHeads => exact .popLoadHeads
  | spareLoadHeads => exact .spareLoadHeads
  | emptyLoadHeads => exact .emptyLoadHeads
  | recvLoadTail m => exact .recvLoadTail m

/-- A `Drain` has yielded all its items, or it has the booking under way, of which `lent` is
left. -/
def DrainRel (g : Gauge) (mine : Prop) (lent : List T) (head fromHead toHead : BitVec w) : Prop :=
  (¬ mine ∧ head = toHead) ∨
    (mine ∧ lent ≠ [] ∧ head = word w (g.fin - lent.length) ∧ fromHead = word w g.sh ∧
      toHead = word w g.fin)

/-- `AgentRel g mine lent p q`: the agent at `p` stands for `q`; `mine` says that it has the
booking under way, of which `lent` is left. -/
inductive AgentRel (g : Gauge) (mine : Prop) (lent : List T) : AgentPc w T → AgentSt T → Prop
  | idle (hn : ¬ mine) : AgentRel g mine lent .idle .idle
  | done (r : TaskRes T) (hn : ¬ mine) : AgentRel g mine lent (.done r) (.done r)
  | book (m : Bool) (maxCount : BitVec w) (b : BookPc w) (h : b.Ok g) (hn : ¬ mine) :
      AgentRel g mine lent (.book m maxCount b) (.booking m)
  | move (m : Bool) (n : ℕ) (hm : mine)
      (ho : g.sh + n + lent.length = g.fin) (hl : m = true → lent ≠ []) :
      AgentRel g mine lent (.move m (word w g.sh) n (n + lent.length)) (.moving m n)
  | endLoad (r : TaskRes T) (hm : mine) (hl : lent = []) :
      AgentRel g mine lent (.endLoad (word w g.sh) r) (.releasing r)
  | endCas (r : TaskRes T) (sn : Snap w) (hm : mine) (hl : lent = []) (ok : sn.Ok g) :
      AgentRel g mine lent (.endCas (word w g.sh) sn r) (.releasing r)
  | drain (head fromHead toHead : BitVec w) (h : DrainRel g mine lent head fromHead toHead) :
      AgentRel g mine lent (.drain head fromHead toHead) .draining
  | next (d : Bool) (head fromHead toHead : BitVec w)
      (h : DrainRel g mine lent head fromHead toHead) :
      AgentRel g mine lent (.next d head fromHead toHead) (.pulling d)
  | nextLoad (d : Bool) (x : T) (toHead : BitVec w) (hm : mine) (hl : lent = []) :
      AgentRel g mine lent (.nextLoad d x (word w g.sh) toHead) (.lastPulled d x)
  | nextCas (d : Bool) (x : T) (toHead : BitVec w) (sn : Snap w) (hm : mine) (hl : lent = [])
      (ok : sn.Ok g) :
      AgentRel g mine lent (.nextCas d x (word w g.sh) toHead sn) (.lastPulled d x)
  | nextDone (d : Bool) (o : Option T) (head fromHead toHead : BitVec w)
      (h : DrainRel g mine lent head fromHead toHead) (hn : o = none → ¬ mine) :
      AgentRel g mine lent (.nextDone d o head fromHead toHead) (.pulled d o)

lemma DrainRel.evolve {g g' : Gauge} {mine mine' : Prop} {lent lent' : List T}
    {head fromHead toHead : BitVec w} (h : DrainRel g mine lent head fromHead toHead)
    (hm : mine' ↔ mine) (hmine : mine → lent' = lent ∧ g'.fin = g.fin ∧ g'.sh = g.sh) :
    DrainRel g' mine' lent' head fromHead toHead := by
  rcases h with ⟨hn, he⟩ | ⟨h1, h2, h3, h4, h5⟩
  · exact .inl ⟨fun h => hn (hm.mp h), he⟩
  · obtain ⟨rfl, hf, hs⟩ := hmine h1
    exact .inr ⟨hm.mpr h1, h2, by rw [h3, hf], by rw [h4, hs], by rw [h5, hf]⟩

/-- What an agent knows survives the steps of the other threads, which leave a booking of
its own alone. -/
lemma AgentRel.evolve {g g' : Gauge} {mine mine' : Prop} {lent lent' : List T} {p : AgentPc w T}
    {q : AgentSt T} (h : AgentRel g mine lent p q) (e : Evolve g g') (hm : mine' ↔ mine)
    (hmine : mine → lent' = lent ∧ g'.fin = g.fin ∧ g'.sh = g.sh) :
    AgentRel g' mine' lent' p q := by
  cases h with
  | idle hn => exact .idle (hm.not.mpr hn)
  | done r hn => exact .done r (hm.not.mpr hn)
  | book m maxCount b h hn => exact .book m maxCount b (h.evolve e) (hm.not.mpr hn)
  | move m n h ho hl =>
    obtain ⟨rfl, hf, hs⟩ := hmine h
    rw [← hs]
    exact .move m n (hm.mpr h) (by omega) hl
  | endLoad r h hl =>
    obtain ⟨rfl, -, hs⟩ := hmine h
    rw [← hs]
    exact .endLoad r (hm.mpr h) hl
  | endCas r sn h hl ok =>
    obtain ⟨rfl, -, hs⟩ := hmine h
    rw [← hs]
    exact .endCas r sn (hm.mpr h) hl (ok.evolve e)
  | drain head fromHead toHead h => exact .drain _ _ _ (h.evolve hm hmine)
  | next d head fromHead toHead h => exact .next d _ _ _ (h.evolve hm hmine)
  | nextLoad d x toHead h hl =>
    obtain ⟨rfl, -, hs⟩ := hmine h
    rw [← hs]
    exact .nextLoad d x toHead (hm.mpr h) hl
  | nextCas d x toHead sn h hl ok =>
    obtain ⟨rfl, -, hs⟩ := hmine h
    rw [← hs]
    exact .nextCas d x toHead sn (hm.mpr h) hl (ok.evolve e)
  | nextDone d o head fromHead toHead h hn =>
    exact .nextDone d o _ _ _ (h.evolve hm hmine) fun ho => hm.not.mpr (hn ho)

end St3.Fifo
