import Mathlib.Logic.Function.Basic
import Mathlib.Tactic.Common

/-!
# Lib.Overlays

Two memories that are the same but for one cell, where the first one shows a mark and the second
one what the mark covers.

* `Overlay p under A v v'`: `v` has a mark at `p` that covers `u`, when `under = some u`, and no
  mark when `under = none`. In the region `A` the memories may differ.
* `Overlay.store`, `Overlay.read`: a store to both memories, and a read from both.
* `Overlay.move`: the mark moves to another cell.
-/

namespace Overlays

variable {α β : Type*} {p q a : α} {under : Option β} {A : α → Prop} {v v' : α → β} {b b' : β}

/-- `b` is what is covered, or nothing is covered. -/
def Agrees (under : Option β) (b : β) : Prop := ∀ u, under = some u → b = u

theorem Agrees.getD (h : Agrees under b) : under.getD b = b := by
  cases under with
  | none => rfl
  | some u => exact (h u rfl).symm

theorem agrees_none (b : β) : Agrees none b := by
  intro u hu
  cases hu

theorem agrees_some {u b : β} : Agrees (some u) b ↔ b = u :=
  ⟨fun h => h u rfl, fun h _ hu => h.trans (Option.some.inj hu)⟩

instance [DecidableEq β] (under : Option β) (b : β) : Decidable (Agrees under b) :=
  match under with
  | none => isTrue (agrees_none b)
  | some _ => decidable_of_iff _ agrees_some.symm

structure Overlay (p : α) (under : Option β) (A : α → Prop) (v v' : α → β) : Prop where
  outside : ¬ A p
  apart : ∀ a, a ≠ p → ¬ A a → v' a = v a
  cell : v' p = under.getD (v p)

namespace Overlay

/-- With no mark the memories are the same. -/
theorem refl (v : α → β) (h : ¬ A p) : Overlay p none A v v := ⟨h, fun _ _ _ => rfl, rfl⟩

/-- A read gives the same, unless it is of the mark or of the region. -/
theorem read (h : Overlay p under A v v') (hp : a = p → Agrees under (v p)) :
    v' a = v a ∨ A a := by
  by_cases ha : a = p
  · subst ha
    rw [h.cell, (hp rfl).getD]
    exact Or.inl rfl
  · by_cases hA : A a
    · exact Or.inr hA
    · exact Or.inl (h.apart a ha hA)

variable [DecidableEq α]

/-- A store of one value, or of two values in the region. Under the mark it has to be what the mark
covers. -/
theorem store (h : Overlay p under A v v') (hb : b' = b ∨ A a) (hp : a = p → Agrees under b) :
    Overlay p under A (Function.update v a b) (Function.update v' a b') := by
  refine ⟨h.outside, fun x hx hA => ?_, ?_⟩
  · by_cases hxa : x = a
    · subst hxa
      rw [Function.update_self, Function.update_self]
      exact hb.resolve_right hA
    · rw [Function.update_of_ne hxa, Function.update_of_ne hxa]
      exact h.apart x hx hA
  · by_cases ha : p = a
    · subst ha
      rw [Function.update_self, Function.update_self, (hp rfl).getD]
      exact hb.resolve_right h.outside
    · rw [Function.update_of_ne ha, Function.update_of_ne ha]
      exact h.cell

/-- `r` is put back under the mark, and the mark `g` is put on `q`. -/
theorem move (h : Overlay p under A v v') {r g : β} (hr : under.getD (v p) = r) (hq : ¬ A q) :
    Overlay q (some (Function.update v p r q)) A
      (Function.update (Function.update v p r) q g) v' := by
  have hlift : ∀ x, ¬ A x → v' x = Function.update v p r x := by
    intro x hA
    by_cases hx : x = p
    · subst hx
      rw [Function.update_self, h.cell, hr]
    · rw [Function.update_of_ne hx]
      exact h.apart x hx hA
  refine ⟨hq, fun x hx hA => ?_, hlift q hq⟩
  rw [Function.update_of_ne hx]
  exact hlift x hA

end Overlay
end Overlays
