import Mathlib.Data.Fin.Basic
import Mathlib.Logic.Function.Basic
import Mathlib.Tactic.Common

/-!
# Lib.TextScreen

A screen of text: `h + 1` rows of `w + 1` cells and a cursor on one of them, and its layout in
linear memory, row after row.

* `Screen.put`, `Screen.lineFeed`, `Screen.scroll`: output of one cell, and of a new line.
* `Laid f s`: the linear memory `f` shows the cells of `s`.
* `shift_loop`, `fill_loop`: the loops that scroll a screen in linear memory.
  `Laid.scroll_loops`, `Laid.store`: what they and a store do to the screen that the memory shows.
-/

namespace TextScreen

variable {α : Type*} {h w : Nat}

@[ext]
structure Screen (h w : Nat) (α : Type*) where
  cells : Fin (h + 1) → Fin (w + 1) → α
  row : Fin (h + 1)
  col : Fin (w + 1)

namespace Screen

/-- Every row moves up by one, the last one becomes blank, and the cursor goes to its start. -/
def scroll (blank : α) (s : Screen h w α) : Screen h w α where
  cells r c := if hr : r.val < h then s.cells ⟨r.val + 1, by omega⟩ c else blank
  row := Fin.last h
  col := 0

/-- The cursor goes to the start of the next row. -/
def lineFeed (blank : α) (s : Screen h w α) : Screen h w α :=
  if hr : s.row.val < h then { s with row := ⟨s.row.val + 1, by omega⟩, col := 0 }
  else s.scroll blank

/-- The cell at the cursor becomes `a`. -/
def store (a : α) (s : Screen h w α) : Screen h w α :=
  { s with cells := fun r c => if r = s.row ∧ c = s.col then a else s.cells r c }

/-- Output of `a`: the cursor moves on by one cell. -/
def put (blank a : α) (s : Screen h w α) : Screen h w α :=
  if hc : s.col.val < w then { s.store a with col := ⟨s.col.val + 1, by omega⟩ }
  else (s.store a).lineFeed blank

end Screen

/-! ## Linear memory -/

/-- The index of a cell. -/
def index (w r c : Nat) : Nat := (w + 1) * r + c

theorem index_lt {r : Fin (h + 1)} {c : Fin (w + 1)} : index w r c < (h + 1) * (w + 1) := by
  have hr : (w + 1) * r.val ≤ (w + 1) * h := Nat.mul_le_mul_left _ (by omega)
  have hmul : (h + 1) * (w + 1) = (w + 1) * h + (w + 1) := by
    rw [Nat.add_mul, Nat.one_mul, Nat.mul_comm]
  simp only [index]
  omega

theorem index_inj {r r' : Nat} {c c' : Fin (w + 1)} (he : index w r c = index w r' c') :
    r = r' ∧ c = c' := by
  simp only [index] at he
  have hrow : r = r' := by
    have h1 : ((w + 1) * r + c.val) / (w + 1) = r := by
      rw [Nat.mul_add_div (by omega), Nat.div_eq_of_lt c.isLt, Nat.add_zero]
    have h2 : ((w + 1) * r' + c'.val) / (w + 1) = r' := by
      rw [Nat.mul_add_div (by omega), Nat.div_eq_of_lt c'.isLt, Nat.add_zero]
    rw [← h1, he, h2]
  subst hrow
  exact ⟨rfl, Fin.ext (by omega)⟩

/-- The memory `f` shows the cells of the screen `s`. -/
def Laid (f : Nat → α) (s : Screen h w α) : Prop := ∀ r c, f (index w r.val c.val) = s.cells r c

/-- Only the memory of the screen matters. -/
theorem Laid.congr {f g : Nat → α} {s : Screen h w α} (hl : Laid f s)
    (hfg : ∀ i < (h + 1) * (w + 1), g i = f i) : Laid g s := by
  intro r c
  rw [hfg _ index_lt]
  exact hl r c

/-- A store to the cell at the cursor. -/
theorem Laid.store {f : Nat → α} {s : Screen h w α} (hl : Laid f s) (a : α) :
    Laid (Function.update f (index w s.row s.col) a) (s.store a) := by
  intro r c
  simp only [Screen.store]
  split
  · rename_i heq
    obtain ⟨rfl, rfl⟩ := heq
    exact Function.update_self ..
  · rename_i hne
    rw [Function.update_of_ne]
    · exact hl r c
    · intro heq
      obtain ⟨hr, hc⟩ := index_inj heq
      exact hne ⟨Fin.ext hr, hc⟩

/-- The loop that copies cell `i + d` to cell `i`, in ascending order. -/
theorem shift_loop {d : Nat} (hd : 0 < d) (f : Nat → α) :
    ∀ n, (List.range n).foldl (fun g i => Function.update g i (g (i + d))) f =
      fun j => if j < n then f (j + d) else f j := by
  intro n
  induction n with
  | zero => simp
  | succ n ih =>
    rw [List.range_succ, List.foldl_append, ih]
    funext j
    simp only [List.foldl_cons, List.foldl_nil]
    by_cases hj : j = n
    · subst hj
      rw [Function.update_self, if_neg (by omega), if_pos (by omega)]
    · rw [Function.update_of_ne hj]
      by_cases hlt : j < n
      · rw [if_pos hlt, if_pos (by omega)]
      · rw [if_neg hlt, if_neg (by omega)]

/-- The loop that stores `a` to `n` cells from cell `b` on. -/
theorem fill_loop (f : Nat → α) (a : α) (b : Nat) :
    ∀ n, (List.range n).foldl (fun g i => Function.update g (b + i) a) f =
      fun j => if b ≤ j ∧ j < b + n then a else f j := by
  intro n
  induction n with
  | zero =>
    funext j
    rw [if_neg (by omega)]
    rfl
  | succ n ih =>
    rw [List.range_succ, List.foldl_append, ih]
    funext j
    simp only [List.foldl_cons, List.foldl_nil]
    by_cases hj : j = b + n
    · subst hj
      rw [Function.update_self, if_pos (by omega)]
    · rw [Function.update_of_ne hj]
      by_cases hin : b ≤ j ∧ j < b + n
      · rw [if_pos hin, if_pos (by omega)]
      · rw [if_neg hin, if_neg (by omega)]

/-- Scrolling in linear memory: `h` rows are copied up by one row, and the last row is filled. -/
theorem Laid.scroll {f : Nat → α} {s : Screen h w α} (hl : Laid f s) (blank : α) :
    Laid (fun j => if h * (w + 1) ≤ j ∧ j < h * (w + 1) + (w + 1) then blank
      else if j < h * (w + 1) then f (j + (w + 1)) else f j) (s.scroll blank) := by
  intro r c
  have hlast : h * (w + 1) = (w + 1) * h := Nat.mul_comm _ _
  have hidx : index w r.val c.val = (w + 1) * r.val + c.val := rfl
  simp only [Screen.scroll]
  by_cases hr : r.val < h
  · have hup : (w + 1) * r.val + (w + 1) ≤ (w + 1) * h := by
      rw [← Nat.mul_succ]
      exact Nat.mul_le_mul_left _ hr
    have hnext : index w (r.val + 1) c.val = index w r.val c.val + (w + 1) := by
      simp only [index, Nat.mul_add, Nat.mul_one]
      omega
    rw [dif_pos hr, if_neg (by omega), if_pos (by omega), ← hnext]
    exact hl ⟨r.val + 1, by omega⟩ c
  · have hrow : (w + 1) * r.val = (w + 1) * h := by rw [show r.val = h by omega]
    rw [dif_neg hr, if_pos (by omega)]

/-- The two loops that scroll. -/
theorem Laid.scroll_loops {f : Nat → α} {s : Screen h w α} (hl : Laid f s) (blank : α) :
    Laid ((List.range (w + 1)).foldl (fun g i => Function.update g (h * (w + 1) + i) blank)
      ((List.range (h * (w + 1))).foldl (fun g i => Function.update g i (g (i + (w + 1)))) f))
      (s.scroll blank) := by
  rw [fill_loop, shift_loop (Nat.succ_pos w)]
  exact hl.scroll blank

end TextScreen
