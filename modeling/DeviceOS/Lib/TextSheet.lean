import DeviceOS.Lib.TextScreen

/-!
# Lib.TextSheet

An unbounded sheet of text in rows of `w + 1` cells, and a screen as a window on its end.

* `Sheet.put`, `Sheet.newRow`: output of one cell, and of a new line. Nothing ever scrolls.
* `Sheet.window`: the last `h + 1` rows of the sheet; when it has fewer, blank rows follow.
* `window_put`, `window_newRow`: a screen that scrolls is the window on a sheet.
-/

namespace TextScreen

variable {α : Type*} {h w : Nat} {blank : α}

/-- The rows below the current one are blank. -/
structure Sheet (w : Nat) (blank : α) where
  cells : Nat → Fin (w + 1) → α
  row : Nat
  col : Fin (w + 1)
  rest : ∀ r c, row < r → cells r c = blank

namespace Sheet

def empty (w : Nat) (blank : α) : Sheet w blank where
  cells _ _ := blank
  row := 0
  col := ⟨0, Nat.succ_pos w⟩
  rest _ _ _ := rfl

def newRow (s : Sheet w blank) : Sheet w blank where
  cells := s.cells
  row := s.row + 1
  col := ⟨0, Nat.succ_pos w⟩
  rest r c hr := s.rest r c (by omega)

/-- The cell at the end of the text becomes `a`. -/
def store (a : α) (s : Sheet w blank) : Sheet w blank where
  cells r c := if r = s.row ∧ c = s.col then a else s.cells r c
  row := s.row
  col := s.col
  rest r c hr := by
    rw [if_neg fun he => by omega]
    exact s.rest r c hr

/-- Output of `a`; after the last cell of a row a new row starts. -/
def put (a : α) (s : Sheet w blank) : Sheet w blank :=
  if hc : s.col.val < w then { s.store a with col := ⟨s.col.val + 1, by omega⟩ }
  else (s.store a).newRow

/-- The last `h + 1` rows. -/
def window (h : Nat) (s : Sheet w blank) : Screen h w α where
  cells r c := s.cells (s.row - h + r.val) c
  row := ⟨min s.row h, by omega⟩
  col := s.col

theorem window_newRow (s : Sheet w blank) : s.newRow.window h = (s.window h).lineFeed blank := by
  unfold Screen.lineFeed
  by_cases hr : s.row < h
  · have hwin : (s.window h).row.val < h := by
      simp only [window]
      omega
    rw [dif_pos hwin]
    ext r c
    · have htop : s.row + 1 - h = s.row - h := by omega
      simp only [window, newRow, htop]
    · simp only [window, newRow]
      omega
    · rfl
  · have hwin : ¬ (s.window h).row.val < h := by
      simp only [window]
      omega
    rw [dif_neg hwin]
    ext r c
    · simp only [window, newRow, Screen.scroll]
      split
      · have hnext : s.row + 1 - h + r.val = s.row - h + (r.val + 1) := by omega
        rw [hnext]
      · exact s.rest _ c (by omega)
    · simp only [window, newRow, Screen.scroll, Fin.val_last]
      omega
    · rfl

theorem window_store (a : α) (s : Sheet w blank) :
    (s.store a).window h = (s.window h).store a := by
  ext r c
  · -- the current row is in the window
    have hrow : s.row - h + r.val = s.row ↔ r = (s.window h).row := by
      rw [Fin.ext_iff]
      simp only [window]
      omega
    show (if s.row - h + r.val = s.row ∧ c = s.col then a else s.cells (s.row - h + r.val) c) =
      if r = (s.window h).row ∧ c = (s.window h).col then a else (s.window h).cells r c
    by_cases he : r = (s.window h).row ∧ c = (s.window h).col
    · rw [if_pos ⟨hrow.mpr he.1, he.2⟩, if_pos he]
    · rw [if_neg fun hn => he ⟨hrow.mp hn.1, hn.2⟩, if_neg he]
      rfl
  · rfl
  · rfl

theorem window_put (a : α) (s : Sheet w blank) :
    (s.put a).window h = (s.window h).put blank a := by
  unfold put Screen.put
  by_cases hc : s.col.val < w
  · rw [dif_pos hc, dif_pos (by exact hc), ← window_store]
    rfl
  · rw [dif_neg hc, dif_neg (by exact hc), window_newRow, window_store]

end Sheet
end TextScreen
