import Mathlib.Data.List.TakeWhile
import Mathlib.Logic.Function.Basic

/-!
# Lib.Buffers

Arrays of unknown size as functions on the index, and the strings in them.

* `fill f start xs`: the array `f` after `xs` is stored from index `start` on. `fill_cons`: one
  element at a time, in ascending order. `fill_append`, `fill_prepend`: one piece after the other.
  `fill_get`, `fill_outside`: the elements inside and outside of the piece stored.
* `reversed f start n`: the array `f` with `n` elements from index `start` on in the opposite order.
  `reversed_swap`: exchanging the outer two leaves the inner ones. `reversed_fill`: a piece stored.
* `Holds f xs`: the array begins with `xs`.
* `string stop n f`: the elements of `f` before the first `stop`, at most `n` of them.
  `string_fill`: a string that was stored is read back. `string_get`, `string_stop`: the elements of
  a string that ends before index `n`.
-/

namespace Buffers

variable {α : Type*} {f : Nat → α} {xs : List α} {n : Nat}

def fill (f : Nat → α) (start : Nat) (xs : List α) (i : Nat) : α :=
  if start ≤ i then (xs[i - start]?).getD (f i) else f i

@[simp] theorem fill_nil (f : Nat → α) (start : Nat) : fill f start [] = f := by
  funext i
  simp [fill]

theorem fill_cons (f : Nat → α) (start : Nat) (x : α) (xs : List α) :
    fill f start (x :: xs) = fill (Function.update f start x) (start + 1) xs := by
  funext i
  unfold fill
  by_cases hi : i = start
  · subst hi
    rw [if_pos (Nat.le_refl i), if_neg (by omega), Nat.sub_self]
    simp
  · rw [Function.update_of_ne hi]
    by_cases hlt : start ≤ i
    · have hsub : i - start = i - (start + 1) + 1 := by omega
      rw [if_pos hlt, if_pos (by omega), hsub, List.getElem?_cons_succ]
    · rw [if_neg hlt, if_neg (by omega)]

theorem fill_zero (f : Nat → α) (xs : List α) (i : Nat) : fill f 0 xs i = (xs[i]?).getD (f i) := by
  simp [fill]

theorem fill_of_le {i : Nat} (hi : xs.length ≤ i) : fill f 0 xs i = f i := by
  rw [fill_zero, List.getElem?_eq_none hi]
  rfl

/-- A store of what is there already, right behind the string. -/
theorem update_fill_end (f : Nat → α) (xs : List α) :
    Function.update (fill f 0 xs) xs.length (f xs.length) = fill f 0 xs := by
  have hend : fill f 0 xs xs.length = f xs.length := fill_of_le (Nat.le_refl _)
  rw [← hend, Function.update_eq_self]

/-- Two stores, the second one right behind the first. -/
theorem fill_append (f : Nat → α) (start : Nat) (xs ys : List α) :
    fill (fill f start xs) (start + xs.length) ys = fill f start (xs ++ ys) := by
  induction xs generalizing f start with
  | nil => simp
  | cons x xs ih =>
    rw [fill_cons, List.cons_append, fill_cons, ← ih, List.length_cons, Nat.add_comm xs.length 1,
      Nat.add_assoc]

theorem fill_get (f : Nat → α) (start : Nat) {i : Nat} (hi : i < xs.length) :
    fill f start xs (start + i) = xs[i] := by
  unfold fill
  rw [if_pos (by omega), Nat.add_sub_cancel_left, List.getElem?_eq_getElem hi]
  rfl

theorem fill_outside (f : Nat → α) {start i : Nat} (hi : i < start ∨ start + xs.length ≤ i) :
    fill f start xs i = f i := by
  unfold fill
  rcases hi with hlt | hge
  · rw [if_neg (by omega)]
  · rw [if_pos (by omega), List.getElem?_eq_none (by omega)]
    rfl

/-- Two stores, the second one right in front of the first. -/
theorem fill_prepend (f : Nat → α) (start : Nat) (xs ys : List α) :
    fill (fill f (start + xs.length) ys) start xs = fill f start (xs ++ ys) := by
  funext i
  by_cases hin : start ≤ i ∧ i < start + xs.length
  · obtain ⟨j, rfl⟩ := Nat.exists_eq_add_of_le hin.1
    have hj : j < xs.length := by omega
    rw [fill_get _ start hj, fill_get _ start (by rw [List.length_append]; omega),
      List.getElem_append_left hj]
  · rw [fill_outside _ (by omega), ← fill_append]
    by_cases hys : start + xs.length ≤ i ∧ i < start + xs.length + ys.length
    · obtain ⟨j, rfl⟩ := Nat.exists_eq_add_of_le hys.1
      rw [fill_get _ _ (by omega), fill_get _ _ (by omega)]
    · rw [fill_outside _ (by omega), fill_outside _ (by omega), fill_outside _ (by omega)]

theorem range_map_fill (f : Nat → α) (xs : List α) :
    (List.range xs.length).map (fill f 0 xs) = xs := by
  apply List.ext_getElem
  · simp
  · intro i h1 h2
    simp [fill, h2]

/-! ## Reversal -/

def reversed (f : Nat → α) (start n i : Nat) : α :=
  if start ≤ i ∧ i < start + n then f (2 * start + n - 1 - i) else f i

theorem reversed_of_le_one (f : Nat → α) (start : Nat) (h : n ≤ 1) : reversed f start n = f := by
  funext i
  unfold reversed
  split
  · congr 1
    omega
  · rfl

theorem reversed_swap (f : Nat → α) (start n : Nat) :
    reversed (Function.update (Function.update f (start + n + 1) (f start)) start
      (f (start + n + 1))) (start + 1) n = reversed f start (n + 2) := by
  funext i
  unfold reversed
  by_cases hinner : start + 1 ≤ i ∧ i < start + 1 + n
  · rw [if_pos hinner, if_pos (by omega), Function.update_of_ne (by omega),
      Function.update_of_ne (by omega)]
    congr 1
    omega
  · rw [if_neg hinner]
    by_cases hfirst : i = start
    · subst hfirst
      rw [Function.update_self, if_pos (by omega)]
      congr 1
      omega
    · rw [Function.update_of_ne hfirst]
      by_cases hlast : i = start + n + 1
      · subst hlast
        rw [Function.update_self, if_pos (by omega)]
        congr 1
        omega
      · rw [Function.update_of_ne hlast, if_neg (by omega)]

theorem reversed_fill (f : Nat → α) (start : Nat) (xs : List α) :
    reversed (fill f start xs) start xs.length = fill f start xs.reverse := by
  funext i
  unfold reversed
  split
  · rename_i hin
    obtain ⟨j, rfl⟩ := Nat.exists_eq_add_of_le hin.1
    have hj : j < xs.length := by omega
    have hmirror : 2 * start + xs.length - 1 - (start + j) = start + (xs.length - 1 - j) := by omega
    rw [hmirror, fill_get f start (by omega), fill_get f start (by simpa using hj),
      List.getElem_reverse]
  · rename_i hout
    rw [fill_outside f (by omega), fill_outside f (by simp; omega)]

/-- Only the first part of the piece is reversed. -/
theorem reversed_fill_append (f : Nat → α) (start : Nat) (xs ys : List α) :
    reversed (fill f start (xs ++ ys)) start xs.length = fill f start (xs.reverse ++ ys) := by
  rw [← fill_prepend, reversed_fill, ← fill_prepend, List.length_reverse]

/-! ## Beginnings -/

def Holds (f : Nat → α) (xs : List α) : Prop := (List.range xs.length).map f = xs

instance [DecidableEq α] : Decidable (Holds f xs) :=
  inferInstanceAs (Decidable ((List.range xs.length).map f = xs))

theorem Holds.take (h : Holds f xs) (hn : n ≤ xs.length) : (List.range n).map f = xs.take n := by
  obtain ⟨m, hm⟩ := Nat.exists_eq_add_of_le hn
  have hall : (List.range xs.length).map f = xs := h
  rw [hm, List.range_add, List.map_append] at hall
  rw [← hall, List.take_left' (by simp)]

theorem Holds.get (h : Holds f xs) {i : Nat} (hi : i < xs.length) : f i = xs[i] := by
  have hget := congrArg (fun l => l[i]?) h
  rw [List.getElem?_map, List.getElem?_range hi, List.getElem?_eq_getElem hi] at hget
  simpa using hget

section Strings

variable [DecidableEq α] {stop : α}

def string (stop : α) (n : Nat) (f : Nat → α) : List α :=
  ((List.range n).map f).takeWhile (· ≠ stop)

theorem string_succ (stop : α) (n : Nat) (f : Nat → α) :
    string stop (n + 1) f = if f 0 = stop then [] else f 0 :: string stop n fun i => f (i + 1) := by
  unfold string
  rw [List.range_succ_eq_map, List.map_cons, List.map_map, List.takeWhile_cons]
  by_cases h : f 0 = stop
  · simp [h]
  · simp [h, Function.comp_def]

theorem string_length_le (stop : α) (n : Nat) (f : Nat → α) : (string stop n f).length ≤ n := by
  unfold string
  calc (((List.range n).map f).takeWhile (· ≠ stop)).length
      ≤ ((List.range n).map f).length := (List.takeWhile_prefix _).length_le
    _ = n := by simp

/-- A string cut off at `m`. -/
theorem string_take (stop : α) (n m : Nat) (f : Nat → α) :
    string stop (min m n) f = (string stop n f).take m := by
  induction n generalizing m f with
  | zero => simp [string]
  | succ n ih =>
    cases m with
    | zero => simp [string]
    | succ m =>
      rw [Nat.succ_min_succ, string_succ, string_succ]
      split
      · rfl
      · rw [List.take_succ_cons, ih]

/-- A list as an array that ends with a `stop`, up to the first one. -/
theorem string_getD (xs : List α) {n : Nat} (h : (xs.takeWhile (· ≠ stop)).length ≤ n) :
    string stop n (fun i => xs.getD i stop) = xs.takeWhile (· ≠ stop) := by
  induction xs generalizing n with
  | nil =>
    cases n with
    | zero => rfl
    | succ n => simp [string_succ]
  | cons x xs ih =>
    by_cases hx : x = stop
    · cases n with
      | zero => simp [string, hx]
      | succ n => simp [string_succ, hx]
    · rw [List.takeWhile_cons_of_pos (by simpa using hx)] at h ⊢
      rw [List.length_cons] at h
      obtain ⟨m, rfl⟩ : ∃ m, n = m + 1 := ⟨n - 1, by omega⟩
      rw [string_succ]
      simp only [List.getD_cons_zero, List.getD_cons_succ, if_neg hx]
      rw [ih (by omega)]

theorem string_fill (hxs : ∀ x ∈ xs, x ≠ stop) (hn : xs.length < n) (hstop : f xs.length = stop) :
    string stop n (fill f 0 xs) = xs := by
  obtain ⟨k, rfl⟩ := Nat.exists_eq_add_of_lt hn
  have hend : fill f 0 xs xs.length = stop := by
    rw [fill_of_le (Nat.le_refl _), hstop]
  unfold string
  rw [Nat.add_assoc, List.range_add, List.map_append, range_map_fill,
    List.takeWhile_append_of_pos (by simpa using hxs), List.range_succ_eq_map]
  simp [hend]

/-- A string with its `stop` is read from an array that begins with both. -/
theorem Holds.string_eq (h : Holds f (xs ++ [stop])) (hxs : ∀ x ∈ xs, x ≠ stop)
    (hn : xs.length < n) : string stop n f = xs := by
  have hf : f = fill f 0 xs := by
    funext i
    by_cases hi : i < xs.length
    · have hget := fill_get f 0 hi
      rw [Nat.zero_add] at hget
      rw [hget, h.get (by simp; omega), List.getElem_append_left hi]
    · rw [fill_of_le (by omega)]
  have hstop : f xs.length = stop := by
    rw [h.get (by simp)]
    simp
  rw [hf]
  exact string_fill hxs hn hstop

theorem string_congr {g : Nat → α} (h : ∀ i < n, f i = g i) : string stop n f = string stop n g := by
  have hmap : (List.range n).map f = (List.range n).map g :=
    List.map_congr_left fun i hi => h i (List.mem_range.mp hi)
  unfold string
  rw [hmap]

theorem string_ne {x : α} (hx : x ∈ string stop n f) : x ≠ stop := by
  simpa using List.mem_takeWhile_imp hx

/-- The elements of a string. -/
theorem string_get {i : Nat} (hi : i < (string stop n f).length) : (string stop n f)[i] = f i := by
  have hpre : string stop n f <+: (List.range n).map f := List.takeWhile_prefix _
  rw [hpre.getElem hi]
  simp

/-- A string that does not fill the array ends at a `stop`. -/
theorem string_stop (h : (string stop n f).length < n) : f (string stop n f).length = stop := by
  have hsplit : string stop n f ++ ((List.range n).map f).dropWhile (· ≠ stop) =
      (List.range n).map f := List.takeWhile_append_dropWhile
  cases hrest : ((List.range n).map f).dropWhile (· ≠ stop) with
  | nil =>
    rw [hrest, List.append_nil] at hsplit
    rw [hsplit] at h
    simp at h
  | cons x xs =>
    have hx : x = stop := by
      have := List.head?_dropWhile_not (· ≠ stop) ((List.range n).map f)
      rw [hrest] at this
      simpa using this
    have hget := congrArg (fun l => l[(string stop n f).length]?) hsplit
    rw [hrest] at hget
    simp only [List.getElem?_append_right (Nat.le_refl _), Nat.sub_self] at hget
    rw [List.getElem?_map, List.getElem?_range h] at hget
    simpa [hx] using hget.symm

end Strings

end Buffers
