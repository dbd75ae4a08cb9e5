import Mathlib.Tactic.Common

/-!
# Lib.Framing

A reader that cuts a stream into chunks. It looks at the first element of a chunk to decide how many
elements the chunk has.

* `start take stream i`: where chunk `i` begins.
* `InStep take stream size n`: the first `n` chunks are the first `n` frames of `size` elements.
  `inStep_iff`: the reader stays in step exactly as long as it takes each frame as a whole.
-/

namespace Framing

variable {α : Type*} {take : α → Nat} {stream : Nat → α} {size n : Nat}

def start (take : α → Nat) (stream : Nat → α) : Nat → Nat
  | 0 => 0
  | i + 1 => start take stream i + take (stream (start take stream i))

def InStep (take : α → Nat) (stream : Nat → α) (size n : Nat) : Prop :=
  ∀ i < n, start take stream i = size * i ∧ start take stream (i + 1) = size * (i + 1)

theorem start_of_whole (h : ∀ i < n, take (stream (size * i)) = size) :
    start take stream n = size * n := by
  induction n with
  | zero => rfl
  | succ n ih =>
    have hprev := ih fun i hi => h i (Nat.lt_succ_of_lt hi)
    rw [start, hprev, h n (Nat.lt_succ_self n), Nat.mul_succ]

theorem inStep_iff : InStep take stream size n ↔ ∀ i < n, take (stream (size * i)) = size := by
  constructor
  · intro h i hi
    obtain ⟨hstart, hnext⟩ := h i hi
    rw [start, hstart, Nat.mul_succ] at hnext
    exact Nat.add_left_cancel hnext
  · intro h i hi
    exact ⟨start_of_whole fun j hj => h j (by omega), start_of_whole fun j hj => h j (by omega)⟩

end Framing
