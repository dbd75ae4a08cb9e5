import Mathlib.Data.Nat.Digits.Lemmas
import Mathlib.Data.Nat.Size

/-!
# Lib.Numerals

Numerals over any alphabet. `char` is the character of a digit, `digit` the digit that a character
stands for.

* `read radix digit xs`: the number that `xs` denotes, most significant digit first. It is `none`
  when a character is not a digit below the radix.
* `format radix char n`: the numeral of `n` without leading zeros; empty for zero. `read_format`:
  reading it gives `n` back. `read_padded`: zeros in front do not change the number.
* `format_head`: the first digit is not zero. `format_length_le_iff`: how long a numeral is.
* `size_two_pow_div`: the binary digits of a power of two divided by `n`.
-/

namespace Numerals

variable {α : Type*} {radix : Nat} {char : Nat → α} {digit : α → Option Nat}

/-- One more digit to the right of a number. -/
def push (radix : Nat) (digit : α → Option Nat) (acc : Option Nat) (x : α) : Option Nat :=
  acc.bind fun a => (digit x).bind fun d => if d < radix then some (radix * a + d) else none

def read (radix : Nat) (digit : α → Option Nat) (xs : List α) : Option Nat :=
  xs.foldl (push radix digit) (some 0)

def format (radix : Nat) (char : Nat → α) (n : Nat) : List α :=
  (Nat.digits radix n).reverse.map char

theorem push_some {x : α} {d : Nat} (a : Nat) (hx : digit x = some d) (hd : d < radix) :
    push radix digit (some a) x = some (radix * a + d) := by
  simp [push, hx, hd]

theorem read_append (xs ys : List α) :
    read radix digit (xs ++ ys) = ys.foldl (push radix digit) (read radix digit xs) :=
  List.foldl_append ..

theorem read_digits (hchar : ∀ d < radix, digit (char d) = some d) (ds : List Nat)
    (hds : ∀ d ∈ ds, d < radix) :
    read radix digit (ds.reverse.map char) = some (Nat.ofDigits radix ds) := by
  induction ds with
  | nil => rfl
  | cons d ds ih =>
    have hd : d < radix := hds d (List.mem_cons_self ..)
    have hrest := ih fun e he => hds e (List.mem_cons_of_mem _ he)
    rw [List.reverse_cons, List.map_append, read_append, hrest, List.map_singleton,
      List.foldl_cons, List.foldl_nil, push_some _ (hchar d hd) hd, Nat.ofDigits_cons]
    simp [Nat.add_comm]

theorem read_format (hradix : 1 < radix) (hchar : ∀ d < radix, digit (char d) = some d) (n : Nat) :
    read radix digit (format radix char n) = some n := by
  have hread := read_digits hchar (Nat.digits radix n) fun d hd => Nat.digits_lt_base hradix hd
  rw [Nat.ofDigits_digits] at hread
  exact hread

theorem read_zeros (hradix : 0 < radix) (hchar : ∀ d < radix, digit (char d) = some d) (k : Nat) :
    read radix digit (List.replicate k (char 0)) = some 0 := by
  induction k with
  | zero => rfl
  | succ k ih =>
    rw [List.replicate_succ', read_append, ih, List.foldl_cons, List.foldl_nil,
      push_some _ (hchar 0 hradix) hradix]
    simp

theorem read_padded (hradix : 0 < radix) (hchar : ∀ d < radix, digit (char d) = some d) (k : Nat)
    (xs : List α) :
    read radix digit (List.replicate k (char 0) ++ xs) = read radix digit xs := by
  rw [read_append, read_zeros hradix hchar]
  rfl

/-- The first character of a numeral is that of a digit other than zero. -/
theorem format_head (char : Nat → α) (hradix : 1 < radix) {n : Nat} (hn : n ≠ 0) :
    ∃ d xs, d ≠ 0 ∧ d < radix ∧ format radix char n = char d :: xs := by
  have hne : Nat.digits radix n ≠ [] := Nat.digits_ne_nil_iff_ne_zero.2 hn
  have hlast : (Nat.digits radix n).getLast hne ≠ 0 := Nat.getLast_digit_ne_zero radix hn
  have hlt := Nat.digits_lt_base hradix (List.getLast_mem hne)
  refine ⟨_, ((Nat.digits radix n).dropLast.reverse).map char, hlast, hlt, ?_⟩
  have hsplit := congrArg List.reverse (List.dropLast_append_getLast hne)
  rw [List.reverse_append, List.reverse_singleton, List.singleton_append] at hsplit
  rw [format, ← hsplit, List.map_cons]

theorem format_length_le_iff (hradix : 1 < radix) (n k : Nat) :
    (format radix char n).length ≤ k ↔ n < radix ^ k := by
  rw [format, List.length_map, List.length_reverse]
  exact Nat.digits_length_le_iff hradix n

/-! ## Binary digits -/

theorem size_div_two {n : Nat} (hn : 0 < n) : Nat.size n = Nat.size (n / 2) + 1 := by
  refine eq_of_forall_ge_iff fun k => ?_
  cases k with
  | zero =>
    rw [Nat.size_le]
    omega
  | succ k =>
    rw [Nat.add_le_add_iff_right, Nat.size_le, Nat.size_le, Nat.pow_succ]
    omega

/-- Dividing `2 ^ m` by `n` drops as many binary digits as the next power of two from `n` on has
zeros. -/
theorem size_two_pow_div {n m : Nat} (hn : 0 < n) (hm : n ≤ 2 ^ m) :
    Nat.size (2 ^ m / n) = m + 1 - Nat.clog 2 n := by
  have hclog : Nat.clog 2 n ≤ m := Nat.clog_le_of_le_pow hm
  refine eq_of_forall_lt_iff fun k => ?_
  rw [Nat.lt_size, Nat.le_div_iff_mul_le hn]
  constructor
  · intro h
    have hk : k ≤ m := by
      have hpow : 2 ^ k ≤ 2 ^ m := le_trans (Nat.le_mul_of_pos_right _ hn) h
      exact (Nat.pow_le_pow_iff_right (by decide)).1 hpow
    have hle : n ≤ 2 ^ (m - k) := by
      rw [← Nat.sub_add_cancel hk, Nat.add_comm, Nat.pow_add] at h
      exact Nat.le_of_mul_le_mul_left h (by positivity)
    have := Nat.clog_le_of_le_pow hle
    omega
  · intro h
    have hle : n ≤ 2 ^ (m - k) := by
      rw [← Nat.clog_le_iff_le_pow (by decide)]
      omega
    calc 2 ^ k * n ≤ 2 ^ k * 2 ^ (m - k) := Nat.mul_le_mul_left _ hle
      _ = 2 ^ m := by
        rw [← Nat.pow_add]
        congr 1
        omega

end Numerals
