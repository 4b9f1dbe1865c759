import Mathlib.Logic.Basic
import Mathlib.Tactic.Lemma

/-!
Sleepers that announce themselves before they look, and wakers that publish before they look.

A sleeper sets its bit, then checks its places one by one, then blocks until it has a permit.
A waker fills a place, then looks at the bits; the one that takes a bit owes its sleeper a
permit. What is proved here is that no place stays full while all that read it are asleep.
-/

namespace St3

/-- What the handshake is about, at one moment: sleepers `W`, places `P`, threads `T`. -/
structure Wakeup (W P T : Type*) where
  /-- The sleeper has set its bit, and has not given up since. -/
  announced : W → Prop
  bit : W → Prop
  permit : W → Prop
  /-- The sleeper has found the place empty since it announced itself. -/
  checked : W → P → Prop
  full : P → Prop
  /-- The thread has yet to look for a sleeper on behalf of the place. -/
  owes : T → P → Prop
  /-- The thread has taken the bit of the sleeper and has yet to unpark it. -/
  unparks : T → W → Prop

namespace Wakeup

variable {W P T : Type*} (reads : W → P → Prop)

/-- Somebody is about to wake the sleeper, or has. -/
def Woken (v : Wakeup W P T) (w : W) : Prop := v.permit w ∨ ∃ t, v.unparks t w

/-- The invariant of the handshake. -/
structure Inv (v : Wakeup W P T) : Prop where
  bit : ∀ w, v.announced w → v.bit w ∨ v.Woken w
  checked : ∀ w p, v.checked w p → v.announced w
  full : ∀ p, v.full p → (∀ w, reads w p → v.checked w p) →
    (∃ t, v.owes t p) ∨ ∃ w, reads w p ∧ v.Woken w

/-- What the steps of the threads may do to it. -/
structure Step (v v' : Wakeup W P T) : Prop where
  announce : ∀ w, v'.announced w → v.announced w ∨ v'.bit w
  bit : ∀ w, v'.announced w → v.bit w → v'.bit w ∨ v'.Woken w
  permit : ∀ w, v'.announced w → v.permit w → v'.Woken w
  unparks : ∀ t w, v.unparks t w → v'.Woken w
  announced : ∀ w p, v'.checked w p → v'.announced w
  check : ∀ w p, reads w p → v'.checked w p → v.checked w p ∨ ¬ v'.full p
  fill : ∀ p, v'.full p → v.full p ∨ (∃ t, v'.owes t p) ∨ ∃ w, reads w p ∧ ¬ v'.checked w p
  owes : ∀ t p, v.owes t p →
    (∃ t, v'.owes t p) ∨ ∃ w, reads w p ∧ (¬ v.bit w ∨ v'.Woken w)

variable {reads}

/-- A wake under way stays under way, or has arrived. -/
lemma Step.woken {v v' : Wakeup W P T} (h : Step reads v v') {w : W} (ha : v'.announced w)
    (hw : v.Woken w) : v'.Woken w := by
  rcases hw with hp | ⟨t, ht⟩
  · exact h.permit w ha hp
  · exact h.unparks t w ht

/-- The steps keep the invariant. -/
theorem Step.inv {v v' : Wakeup W P T} (h : Step reads v v') (hi : Inv reads v) :
    Inv reads v' where
  bit w ha := by
    by_cases hold : v.announced w
    · rcases hi.bit w hold with hb | hw
      · exact h.bit w ha hb
      · exact .inr (h.woken ha hw)
    · exact .inl ((h.announce w ha).resolve_left hold)
  checked := h.announced
  full p hp hr := by
    have hann : ∀ w, reads w p → v'.announced w := fun w hw => h.announced w p (hr w hw)
    rcases h.fill p hp with hold | ho | ⟨w, hw, hn⟩
    · have hr' : ∀ w, reads w p → v.checked w p := fun w hw =>
        (h.check w p hw (hr w hw)).resolve_right fun hn => hn hp
      rcases hi.full p hold hr' with ⟨t, ht⟩ | ⟨w, hw, hwoken⟩
      · rcases h.owes t p ht with ho | ⟨w, hw, hb | hwoken⟩
        · exact .inl ho
        · -- a cleared bit was cleared by a thread that wakes the sleeper
          have hwoken := (hi.bit w (hi.checked w p (hr' w hw))).resolve_left hb
          exact .inr ⟨w, hw, h.woken (hann w hw) hwoken⟩
        · exact .inr ⟨w, hw, hwoken⟩
      · exact .inr ⟨w, hw, h.woken (hann w hw) hwoken⟩
    · exact .inl ho
    · exact absurd (hr w hw) hn

/-- **No lost wakeup**: while nobody is about to wake anyone, a place is empty when all that
read it have checked it and have no permit. -/
theorem Inv.empty {v : Wakeup W P T} (h : Inv reads v) {p : P} (ho : ∀ t, ¬ v.owes t p)
    (hu : ∀ t w, reads w p → ¬ v.unparks t w) (hc : ∀ w, reads w p → v.checked w p)
    (hp : ∀ w, reads w p → ¬ v.permit w) : ¬ v.full p := by
  intro hf
  rcases h.full p hf hc with ⟨t, ht⟩ | ⟨w, hw, hperm | ⟨t, ht⟩⟩
  · exact ho t ht
  · exact hp w hw hperm
  · exact hu t w hw ht

end Wakeup

end St3
