import Mathlib.Data.Nat.Bitwise

/-!
# Lib.BitFields

Machine words divided into bit fields, as a C `struct` of bit fields or a hardware register is.

* `Field.get`, `Field.set`: the value of a field, and the word in which one field is given a value.
* `assign`: several fields are given values one after another.
* `get_set`, `get_set_of_disjoint`: a field reads back what fits into it of the value it was given,
  and no other field changes.

Two layouts of one word (a `union`) are two families of fields: a field of the one changes a field
of the other only where they share bits.
-/

namespace BitFields

/-- `width` bits, from bit `lo` on. -/
structure Field where
  lo : Nat
  width : Nat
  deriving DecidableEq

namespace Field

variable {n : Nat}

def mask (n : Nat) (f : Field) : BitVec n := BitVec.ofNat n (2 ^ f.width - 1) <<< f.lo

def get (f : Field) (w : BitVec n) : Nat := (w.toNat >>> f.lo) % 2 ^ f.width

/-- The bits of `v` that the field has no room for are dropped. -/
def set (f : Field) (v : Nat) (w : BitVec n) : BitVec n :=
  (w &&& ~~~f.mask n) ||| (BitVec.ofNat n (v % 2 ^ f.width) <<< f.lo)

/-- The fields have no bit in common. -/
def Disjoint (f g : Field) : Prop := f.lo + f.width ≤ g.lo ∨ g.lo + g.width ≤ f.lo

instance (f g : Field) : Decidable (Disjoint f g) := inferInstanceAs (Decidable (_ ∨ _))

theorem getLsbD_mask (f : Field) {i : Nat} (hi : i < n) :
    (f.mask n).getLsbD i = decide (f.lo ≤ i ∧ i < f.lo + f.width) := by
  simp only [mask, BitVec.getLsbD_shiftLeft, BitVec.getLsbD_ofNat, Nat.testBit_two_pow_sub_one]
  by_cases h1 : f.lo ≤ i
  · by_cases h2 : i < f.lo + f.width
    · simp [h1, h2]
      omega
    · simp [h1, h2]
      omega
  · simp [h1]

theorem getLsbD_set (f : Field) (v : Nat) (w : BitVec n) {i : Nat} (hi : i < n) :
    (f.set v w).getLsbD i =
      if f.lo ≤ i ∧ i < f.lo + f.width then v.testBit (i - f.lo) else w.getLsbD i := by
  simp only [set, BitVec.getLsbD_or, BitVec.getLsbD_and, BitVec.getLsbD_not, f.getLsbD_mask hi,
    BitVec.getLsbD_shiftLeft, BitVec.getLsbD_ofNat, Nat.testBit_mod_two_pow]
  by_cases h : f.lo ≤ i ∧ i < f.lo + f.width
  · have h1 : i - f.lo < n := by omega
    have h2 : i - f.lo < f.width := by omega
    simp [h, hi, h1, h2]
  · have h1 : i < f.lo ∨ ¬ i - f.lo < f.width := by omega
    rcases h1 with h1 | h1
    · simp [h, hi, h1]
    · simp [h, hi, h1]

theorem testBit_get (f : Field) (w : BitVec n) (j : Nat) :
    (f.get w).testBit j = (decide (j < f.width) && w.getLsbD (f.lo + j)) := by
  simp [get, Nat.testBit_mod_two_pow, Nat.testBit_shiftRight, BitVec.testBit_toNat]

theorem get_set (f : Field) (v : Nat) (w : BitVec n) (h : f.lo + f.width ≤ n) :
    f.get (f.set v w) = v % 2 ^ f.width := by
  apply Nat.eq_of_testBit_eq
  intro j
  rw [testBit_get, Nat.testBit_mod_two_pow]
  by_cases hj : j < f.width
  · rw [f.getLsbD_set v w (by omega), if_pos (by omega), Nat.add_sub_cancel_left]
  · simp [hj]

theorem get_set_of_disjoint (f g : Field) (v : Nat) (w : BitVec n) (h : f.Disjoint g) :
    f.get (g.set v w) = f.get w := by
  apply Nat.eq_of_testBit_eq
  intro j
  rw [testBit_get, testBit_get]
  by_cases hj : j < f.width
  · by_cases hn : f.lo + j < n
    · have hnot : ¬ (g.lo ≤ f.lo + j ∧ f.lo + j < g.lo + g.width) := by
        rcases h with h | h <;> omega
      rw [g.getLsbD_set v w hn, if_neg hnot]
    · rw [BitVec.getLsbD_of_ge _ _ (by omega), BitVec.getLsbD_of_ge _ _ (by omega)]
  · simp [hj]

end Field

/-- The assignments, from the first to the last. -/
def assign {n : Nat} (l : List (Field × Nat)) (w : BitVec n) : BitVec n :=
  l.foldl (fun w x => x.1.set x.2 w) w

end BitFields
