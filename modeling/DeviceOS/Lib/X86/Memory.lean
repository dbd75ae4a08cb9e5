import Mathlib.Data.BitVec

/-!
# Lib.X86.Memory

Memory of a 32-bit processor: a byte at every address that is mapped. Addresses wrap around, so a
range is a start and a number of bytes, and `x` is in it when `x - a` is below that number.

* `Mem.load`, `Mem.store`: byte after byte; `none` when an address is not mapped.
* `Mem.Holds m a bs`: the bytes `bs` stand from address `a` on. `Holds.load`: they are loaded.
* `Mem.overwrite m a bs`: `m` with `bs` from address `a` on. `Mapped.store`: this is what a store
  leaves. `overwrite_append`, `overwrite_prepend`: one piece after or before the other.
* `bytesOf`, `ofBytes`: a 32-bit word as four bytes, the lowest first.
-/

namespace X86

abbrev W := BitVec 32
abbrev Byte := BitVec 8

def ofN (n : Nat) : W := BitVec.ofNat 32 n

theorem ofN_zero : ofN 0 = 0 := rfl

theorem ofN_add (a b : Nat) : ofN a + ofN b = ofN (a + b) := by
  simp [ofN, BitVec.ofNat_add]

theorem toNat_ofN {n : Nat} (h : n < 2 ^ 32) : (ofN n).toNat = n := by
  rw [ofN, BitVec.toNat_ofNat, Nat.mod_eq_of_lt h]

theorem ofN_toNat (a : W) : ofN a.toNat = a := by simp [ofN]

theorem ofN_succ (n : Nat) : ofN (n + 1) = ofN n + 1 := (ofN_add n 1).symm

/-- The distance of an address from the start of a range. -/
theorem sub_ofN_sub (a : W) (i j : Nat) : a - ofN i - ofN j = a - ofN (i + j) := by
  apply BitVec.eq_of_toNat_eq
  simp only [ofN, BitVec.toNat_sub, BitVec.toNat_ofNat]
  omega

theorem add_ofN_sub (a : W) {i : Nat} (h : i < 2 ^ 32) : (a + ofN i - a).toNat = i := by
  rw [BitVec.add_comm, BitVec.add_sub_cancel, toNat_ofN h]

theorem add_toNat_sub (a x : W) : a + ofN (x - a).toNat = x := by
  rw [ofN_toNat, BitVec.add_comm, BitVec.sub_add_cancel]

theorem sub_add_ofN (x a : W) (n : Nat) : x - (a + ofN n) = x - a - ofN n := by
  apply BitVec.eq_of_toNat_eq
  simp only [BitVec.toNat_sub, BitVec.toNat_add]
  omega

/-- The distance from a later address. -/
theorem toNat_sub_ofN {d : W} {n : Nat} (h : n ≤ d.toNat) : (d - ofN n).toNat = d.toNat - n := by
  have hd := d.isLt
  simp only [ofN, BitVec.toNat_sub, BitVec.toNat_ofNat, Nat.mod_eq_of_lt (by omega : n < 2 ^ 32)]
  omega

theorem toNat_sub_ofN_of_lt {d : W} {n : Nat} (h : d.toNat < n) (hn : n ≤ 2 ^ 32) :
    (d - ofN n).toNat = d.toNat + (2 ^ 32 - n) := by
  by_cases heq : n = 2 ^ 32
  · subst heq
    simp [ofN]
  · simp only [ofN, BitVec.toNat_sub, BitVec.toNat_ofNat,
      Nat.mod_eq_of_lt (by omega : n < 2 ^ 32)]
    omega

/-! ## Words -/

def bytesOf (w : W) : List Byte :=
  [w.setWidth 8, (w >>> 8).setWidth 8, (w >>> 16).setWidth 8, (w >>> 24).setWidth 8]

def ofBytes : List Byte → W
  | [] => 0
  | b :: bs => b.setWidth 32 ||| ofBytes bs <<< 8

@[simp] theorem bytesOf_length (w : W) : (bytesOf w).length = 4 := rfl

@[simp] theorem ofBytes_bytesOf (w : W) : ofBytes (bytesOf w) = w := by
  ext i hi
  simp [ofBytes, bytesOf]
  grind

/-! ## Memory -/

abbrev Mem := W → Option Byte

namespace Mem

def load (m : Mem) : W → Nat → Option (List Byte)
  | _, 0 => some []
  | a, n + 1 => (m a).bind fun b => (m.load (a + 1) n).map (b :: ·)

def store (m : Mem) : W → List Byte → Option Mem
  | _, [] => some m
  | a, b :: bs => if (m a).isSome then Mem.store (Function.update m a (some b)) (a + 1) bs else none

def Mapped (m : Mem) (a : W) (n : Nat) : Prop := ∀ i < n, (m (a + ofN i)).isSome

def Holds (m : Mem) (a : W) (bs : List Byte) : Prop := ∀ i < bs.length, m (a + ofN i) = bs[i]?

def overwrite (m : Mem) (a : W) (bs : List Byte) : Mem :=
  fun x => if (x - a).toNat < bs.length then bs[(x - a).toNat]? else m x

variable {m : Mem} {a b : W} {bs cs : List Byte} {n k : Nat}

theorem Mapped.shift (h : m.Mapped a (n + k)) : m.Mapped (a + ofN n) k := by
  intro i hi
  rw [BitVec.add_assoc, ofN_add]
  exact h (n + i) (by omega)

theorem Mapped.le (h : m.Mapped a n) (hk : k ≤ n) : m.Mapped a k :=
  fun i hi => h i (by omega)

theorem Holds.mapped (h : m.Holds a bs) : m.Mapped a bs.length := by
  intro i hi
  rw [h i hi, List.getElem?_eq_getElem hi]
  rfl

theorem Holds.shift (h : m.Holds a (bs ++ cs)) : m.Holds (a + ofN bs.length) cs := by
  intro i hi
  rw [BitVec.add_assoc, ofN_add, h _ (by rw [List.length_append]; omega),
    List.getElem?_append_right (by omega), Nat.add_sub_cancel_left]

theorem Holds.left (h : m.Holds a (bs ++ cs)) : m.Holds a bs := by
  intro i hi
  rw [h i (by rw [List.length_append]; omega), List.getElem?_append_left hi]

/-- What stands in memory is loaded. -/
theorem Holds.load (h : m.Holds a bs) : m.load a bs.length = some bs := by
  induction bs generalizing a with
  | nil => rfl
  | cons x bs ih =>
    have hx : m a = some x := by
      have := h 0 (by simp)
      simpa [ofN_zero] using this
    have htail : m.Holds (a + 1) bs := @Holds.shift m a [x] bs h
    rw [List.length_cons, Mem.load, hx, Option.bind_some, ih htail, Option.map_some]

/-- Two memories with the same bytes in a range. -/
theorem Holds.congr {m' : Mem} (h : m.Holds a bs)
    (hm : ∀ i < bs.length, m' (a + ofN i) = m (a + ofN i)) : m'.Holds a bs := by
  intro i hi
  rw [hm i hi, h i hi]

@[simp] theorem overwrite_nil (m : Mem) (a : W) : m.overwrite a [] = m := by
  funext x
  simp [overwrite]

theorem overwrite_get (m : Mem) (a : W) {i : Nat} (hi : i < bs.length) (hn : bs.length ≤ 2 ^ 32) :
    m.overwrite a bs (a + ofN i) = bs[i]? := by
  rw [overwrite, add_ofN_sub a (by omega), if_pos hi]

theorem overwrite_outside (m : Mem) {x : W} (h : bs.length ≤ (x - a).toNat) :
    m.overwrite a bs x = m x := by
  rw [overwrite, if_neg (by omega)]

theorem overwrite_isSome (hm : m.Mapped a bs.length) (x : W) :
    (m.overwrite a bs x).isSome = (m x).isSome := by
  by_cases h : (x - a).toNat < bs.length
  · have := hm _ h
    rw [add_toNat_sub] at this
    rw [overwrite, if_pos h, List.getElem?_eq_getElem h, this]
    rfl
  · rw [overwrite_outside m (by omega)]

theorem Mapped.overwrite (h : m.Mapped b n) (hm : m.Mapped a bs.length) :
    (m.overwrite a bs).Mapped b n := by
  intro i hi
  rw [overwrite_isSome hm]
  exact h i hi

/-- One piece right behind the other. -/
theorem overwrite_append (m : Mem) (a : W) (h : (bs ++ cs).length ≤ 2 ^ 32) :
    (m.overwrite a bs).overwrite (a + ofN bs.length) cs = m.overwrite a (bs ++ cs) := by
  funext x
  rw [List.length_append] at h
  simp only [Mem.overwrite, sub_add_ofN, List.length_append]
  by_cases h1 : (x - a).toNat < bs.length
  · have hd := (x - a).isLt
    rw [toNat_sub_ofN_of_lt h1 (by omega), if_neg (by omega), if_pos h1, if_pos (by omega),
      List.getElem?_append_left h1]
  · rw [toNat_sub_ofN (by omega)]
    by_cases h2 : (x - a).toNat - bs.length < cs.length
    · rw [if_pos h2, if_pos (by omega), List.getElem?_append_right (by omega)]
    · rw [if_neg h2, if_neg h1, if_neg (by omega)]

/-- One piece right before the other. -/
theorem overwrite_prepend (m : Mem) (a : W) (h : (bs ++ cs).length ≤ 2 ^ 32) :
    (m.overwrite (a + ofN bs.length) cs).overwrite a bs = m.overwrite a (bs ++ cs) := by
  funext x
  rw [← overwrite_append m a h]
  rw [List.length_append] at h
  simp only [Mem.overwrite, sub_add_ofN]
  by_cases h1 : (x - a).toNat < bs.length
  · rw [if_pos h1, toNat_sub_ofN_of_lt h1 (by omega), if_neg (by omega), if_pos h1]
  · rw [if_neg h1, if_neg h1]

theorem overwrite_singleton (m : Mem) (a : W) (x : Byte) :
    m.overwrite a [x] = Function.update m a (some x) := by
  funext y
  by_cases hy : y = a
  · subst hy
    simp [Mem.overwrite]
  · have hpos : (y - a).toNat ≠ 0 := by
      intro h0
      have := add_toNat_sub a y
      rw [h0, ofN_zero] at this
      exact hy (by simpa using this.symm)
    rw [Function.update_of_ne hy, overwrite_outside m (by rw [List.length_singleton]; omega)]

/-- A store to mapped addresses. -/
theorem Mapped.store (h : m.Mapped a bs.length) (hn : bs.length ≤ 2 ^ 32) :
    m.store a bs = some (m.overwrite a bs) := by
  induction bs generalizing m a with
  | nil => simp [Mem.store]
  | cons x bs ih =>
    have ha : (m a).isSome := by simpa [ofN_zero] using h 0 (by simp)
    have h1 : m.Mapped a [x].length := h.le (by simp)
    have htail : (m.overwrite a [x]).Mapped (a + ofN 1) bs.length :=
      (Mapped.shift (by rw [List.length_cons, Nat.add_comm] at h; exact h)).overwrite h1
    rw [Mem.store, if_pos ha, ← overwrite_singleton]
    have hstore := ih htail (by rw [List.length_cons] at hn; omega)
    have happ := @overwrite_append [x] bs m a hn
    exact hstore.trans (congrArg some happ)

end Mem
end X86
