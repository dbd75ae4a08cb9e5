import DeviceOS.Lib.TextScreen

/-!
# Lib.TextStrip

A screen of text as one strip of cells, row after row, and a line that is typed on it.

* `Strip.put`: output of one cell. At the end of the strip everything moves back by one row.
  `Strip.Lays.put`: that is `Screen.put`.
* `Typed`: the line is in the cells before the cursor, and every other cell is blank or has been
  there before. `Typed.put`, `Typed.erase`, `Typed.clear`: what output does to it.
-/

namespace TextScreen

variable {α : Type*} {h w : Nat}

structure Strip (α : Type*) where
  cells : Nat → α
  pos : Nat

namespace Strip

/-- Output of `a`, on a strip of `size` cells in rows of `width`. -/
def put (size width : Nat) (blank a : α) (st : Strip α) : Strip α :=
  let cells := Function.update st.cells st.pos a
  if st.pos + 1 < size then ⟨cells, st.pos + 1⟩
  else ⟨fun i => if i + width < size then cells (i + width) else blank, size - width⟩

/-- The two do not differ in the first `size` cells. -/
structure Same (size : Nat) (st st' : Strip α) : Prop where
  pos : st'.pos = st.pos
  cells : ∀ i < size, st'.cells i = st.cells i

/-- The strip is the screen `s`. -/
structure Lays (st : Strip α) (s : Screen h w α) : Prop where
  laid : Laid st.cells s
  pos : st.pos = index w s.row s.col

theorem Lays.same {st st' : Strip α} {s : Screen h w α} (h1 : st.Lays s) (h2 : st'.Lays s) :
    Same ((h + 1) * (w + 1)) st st' := by
  refine ⟨h2.pos.trans h1.pos.symm, fun i hi => ?_⟩
  have hrow : i / (w + 1) < h + 1 := (Nat.div_lt_iff_lt_mul (Nat.succ_pos w)).mpr hi
  have hcol : i % (w + 1) < w + 1 := Nat.mod_lt i (Nat.succ_pos w)
  have hidx : index w (i / (w + 1)) (i % (w + 1)) = i := Nat.div_add_mod i (w + 1)
  rw [← hidx]
  exact (h2.laid ⟨_, hrow⟩ ⟨_, hcol⟩).trans (h1.laid ⟨_, hrow⟩ ⟨_, hcol⟩).symm

theorem Lays.put {st : Strip α} {s : Screen h w α} (hs : st.Lays s) (blank a : α) :
    (st.put ((h + 1) * (w + 1)) (w + 1) blank a).Lays (s.put blank a) := by
  have hlaid := hs.laid.store a
  have hpos := hs.pos
  rw [← hpos] at hlaid
  simp only [index] at hpos
  have hsize : (h + 1) * (w + 1) = (w + 1) * h + (w + 1) := by
    rw [Nat.add_mul, Nat.one_mul, Nat.mul_comm]
  have hcol := s.col.isLt
  unfold Strip.put Screen.put Screen.lineFeed
  dsimp only
  by_cases hc : s.col.val < w
  · have hlt := @index_lt h w s.row ⟨s.col.val + 1, by omega⟩
    simp only [index] at hlt
    rw [dif_pos hc, if_pos (by omega)]
    refine ⟨hlaid, ?_⟩
    simp only [index, Screen.store]
    omega
  · rw [dif_neg hc]
    by_cases hr : s.row.val < h
    · have hnext : (w + 1) * (s.row.val + 1) = (w + 1) * s.row.val + (w + 1) := Nat.mul_succ ..
      have hle : (w + 1) * (s.row.val + 1) ≤ (w + 1) * h := Nat.mul_le_mul_left _ hr
      rw [dif_pos (by exact hr), if_pos (by omega)]
      refine ⟨hlaid, ?_⟩
      simp only [index, Screen.store, Fin.val_zero]
      omega
    · have hlast : (w + 1) * s.row.val = (w + 1) * h := by rw [show s.row.val = h by omega]
      rw [dif_neg (by exact hr), if_neg (by omega)]
      have hcomm : h * (w + 1) = (w + 1) * h := Nat.mul_comm _ _
      refine ⟨(hlaid.scroll blank).congr fun i hi => ?_, ?_⟩
      · dsimp only
        by_cases htop : i < h * (w + 1)
        · have hup : i + (w + 1) < (h + 1) * (w + 1) := by omega
          have hnot : ¬ (h * (w + 1) ≤ i ∧ i < h * (w + 1) + (w + 1)) := by omega
          rw [if_pos hup, if_neg hnot, if_pos htop]
        · have hup : ¬ i + (w + 1) < (h + 1) * (w + 1) := by omega
          have hin : h * (w + 1) ≤ i ∧ i < h * (w + 1) + (w + 1) := by omega
          rw [if_neg hup, if_pos hin]
      · simp only [index, Screen.scroll, Fin.val_last, Fin.val_zero]
        omega

end Strip

/-! ## A line on the strip -/

/-- The `n` cells before the cursor show `text`. Every other cell is blank, or shows what was in
`first`, some rows further down. -/
structure Typed (size width : Nat) (blank : α) (first text : Nat → α) (n : Nat) (st : Strip α) :
    Prop where
  inside : st.pos < size
  room : n ≤ st.pos
  text : ∀ j < n, st.cells (st.pos - n + j) = text j
  rest : ∃ k, ∀ i < size, i < st.pos - n ∨ st.pos ≤ i →
    st.cells i = blank ∨ (i + k * width < size ∧ st.cells i = first (i + k * width))

namespace Typed

variable {size width : Nat} {blank a : α} {first text text' : Nat → α} {n : Nat} {st st' : Strip α}

theorem same (h : Typed size width blank first text n st) (hs : Strip.Same size st st') :
    Typed size width blank first text n st' := by
  obtain ⟨k, hrest⟩ := h.rest
  have hin := h.inside
  have hroom := h.room
  refine ⟨by rw [hs.pos]; exact hin, by rw [hs.pos]; exact hroom, fun j hj => ?_, k, fun i hi => ?_⟩
  · rw [hs.pos, hs.cells _ (by omega)]
    exact h.text j hj
  · rw [hs.pos, hs.cells i hi]
    exact hrest i hi

theorem congr (h : Typed size width blank first text n st) (ht : ∀ j < n, text' j = text j) :
    Typed size width blank first text' n st :=
  ⟨h.inside, h.room, fun j hj => (h.text j hj).trans (ht j hj).symm, h.rest⟩

/-- The line grows by one cell, also when the strip moves back. -/
theorem put (h : Typed size width blank first text n st) (hw : 0 < width)
    (hn : n + 1 + width ≤ size) (ht : ∀ j < n, text' j = text j) (ha : text' n = a) :
    Typed size width blank first text' (n + 1) (st.put size width blank a) := by
  obtain ⟨k, hrest⟩ := h.rest
  have hin := h.inside
  have hroom := h.room
  have hupd : ∀ i, i ≠ st.pos → Function.update st.cells st.pos a i = st.cells i :=
    fun i hi => Function.update_of_ne hi ..
  have hself : Function.update st.cells st.pos a st.pos = a := Function.update_self ..
  have htext : ∀ j < n + 1, Function.update st.cells st.pos a (st.pos - n + j) = text' j := by
    intro j hj
    rcases Nat.lt_succ_iff_lt_or_eq.mp hj with hlt | rfl
    · rw [hupd _ (by omega), ht j hlt]
      exact h.text j hlt
    · rw [Nat.sub_add_cancel hroom, hself, ha]
  unfold Strip.put
  dsimp only
  by_cases hend : st.pos + 1 < size
  · rw [if_pos hend]
    refine ⟨hend, by dsimp only; omega, fun j hj => ?_, k, fun i hi hout => ?_⟩
    · have hidx : st.pos + 1 - (n + 1) + j = st.pos - n + j := by omega
      dsimp only
      rw [hidx]
      exact htext j hj
    · dsimp only at hout ⊢
      rw [hupd i (by omega)]
      exact hrest i hi (by omega)
  · rw [if_neg hend]
    have hpos : st.pos = size - 1 := by omega
    refine ⟨by dsimp only; omega, by dsimp only; omega, fun j hj => ?_, k + 1, fun i hi hout => ?_⟩
    · have hidx : size - width - (n + 1) + j + width = st.pos - n + j := by omega
      dsimp only
      rw [if_pos (by omega), hidx]
      exact htext j hj
    · dsimp only at hout ⊢
      have hmul : (k + 1) * width = k * width + width := Nat.succ_mul k width
      by_cases hup : i + width < size
      · rw [if_pos hup, hupd _ (by omega)]
        rcases hrest (i + width) hup (by omega) with hb | ⟨hlt, hf⟩
        · exact Or.inl hb
        · exact Or.inr ⟨by omega, hf.trans (congrArg first (by omega))⟩
      · rw [if_neg hup]
        exact Or.inl rfl

/-- The last `m` cells of the line become blank, and the cursor goes back over them. When that is
the whole line, cells before it can become blank too. -/
theorem erase (h : Typed size width blank first text n st) {m k : Nat} (hm : m ≤ n) (hk : m ≤ k)
    (hline : m < n → k = m) (hpos : st'.pos = st.pos - m)
    (hcells : ∀ i < size, st'.cells i =
      if st.pos - k ≤ i ∧ i < st.pos then blank else st.cells i) :
    Typed size width blank first text (n - m) st' := by
  obtain ⟨up, hrest⟩ := h.rest
  have hin := h.inside
  have hroom := h.room
  refine ⟨by omega, by omega, fun j hj => ?_, up, fun i hi hout => ?_⟩
  · have hkm := hline (by omega)
    rw [hcells _ (by omega), if_neg (by omega), hpos]
    have hidx : st.pos - m - (n - m) + j = st.pos - n + j := by omega
    rw [hidx]
    exact h.text j (by omega)
  · rw [hcells i hi]
    split
    · exact Or.inl rfl
    · exact hrest i hi (by omega)

/-- A blank before an empty line. -/
theorem space (h : Typed size width blank first text 0 st) (hw : 0 < width) (hsize : width < size) :
    Typed size width blank first text 0 (st.put size width blank blank) := by
  have hput : Typed size width blank first (fun _ => blank) 1 (st.put size width blank blank) :=
    h.put hw (by omega) (by simp) rfl
  have hin := hput.inside
  obtain ⟨k, hrest⟩ := hput.rest
  have hroom := hput.room
  refine ⟨hin, Nat.zero_le _, by simp, k, fun i hi _ => ?_⟩
  by_cases hlast : i = (st.put size width blank blank).pos - 1
  · have ht := hput.text 0 (by omega)
    rw [hlast]
    exact Or.inl ht
  · exact hrest i hi (by omega)

theorem clear (hpos : st.pos = 0) (hsize : 0 < size) (hcells : ∀ i < size, st.cells i = blank) :
    Typed size width blank first text 0 st :=
  ⟨by omega, Nat.zero_le _, by simp, 0, fun i hi _ => Or.inl (hcells i hi)⟩

theorem start (st : Strip α) (hin : st.pos < size) :
    Typed size width blank st.cells text 0 st :=
  ⟨hin, Nat.zero_le _, by simp, 0, fun i hi _ => Or.inr ⟨by omega, by rw [Nat.zero_mul]; rfl⟩⟩

end Typed
end TextScreen
