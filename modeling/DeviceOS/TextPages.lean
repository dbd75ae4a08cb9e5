import DeviceOS.ConsoleFrame
import DeviceOS.Lib.TextScreen

/-!
# DeviceOS.TextPages

Output to one text page, while kernel addresses are physical ones (`vidmapped = false`).

* `Confined c c'`: only the page and the cursor that output is for changed.
* `TargetShows c s`: that page and that cursor are the screen `s`. `putc_targetShows`: `putc` is
  `screenPutc` on it.
-/

namespace DeviceOS
namespace Console

open TextScreen

/-- A character and its attribute. -/
abbrev TextCell := UInt8 × UInt8

/-- 25 rows of 80 cells. -/
abbrev TextScreen := Screen 24 79 TextCell

/-- Cell `i` of the text page at `p`. -/
def cellsAt (c : Console) (p i : Nat) : TextCell := (c.vram (p + 2 * i), c.vram (p + 2 * i + 1))

/-- `vmem_Array`. -/
def vmemArray (o : Option Term) : Nat :=
  match o with
  | none => video
  | some t => vmemTerm t

variable {c c' c'' : Console} {s : TextScreen}

theorem videoMem_eq (c : Console) : c.videoMem = vmemArray c.writeTermIdx := rfl

theorem vmemArray_far {o o' : Option Term} (h : o ≠ o') :
    vmemArray o + 0x1000 ≤ vmemArray o' ∨ vmemArray o' + 0x1000 ≤ vmemArray o := by
  cases o with
  | none =>
    cases o' with
    | none => exact absurd rfl h
    | some u => simp only [vmemArray, video, vmemTerm]; omega
  | some t =>
    cases o' with
    | none => simp only [vmemArray, video, vmemTerm]; omega
    | some u =>
      have htu : t.val ≠ u.val := fun hval => h (congrArg some (Fin.ext hval))
      simp only [vmemArray, vmemTerm]
      omega

theorem phys_eq (hv : c.vidmapped = false) (a : Nat) : c.phys a = a := by
  simp [phys, hv]

theorem Drawn.videoMem (h : Drawn c c') : c'.videoMem = c.videoMem := by
  rw [videoMem_eq, videoMem_eq, h.writeTermIdx]

theorem Drawn.target (h : Drawn c c') : c'.target = c.target := by
  unfold Console.target
  rw [h.writeTermIdx, h.curTerminal]

theorem Drawn.attrib (h : Drawn c c') : c'.attrib = c.attrib := by
  unfold Console.attrib
  rw [h.target]

/-! ## The frame -/

structure Confined (c c' : Console) : Prop where
  drawn : Drawn c c'
  vram : ∀ a, a < c.videoMem ∨ c.videoMem + 0x1000 ≤ a → c'.vram a = c.vram a
  others : ∀ t, t ≠ c.target → c'.terminalStruct t = c.terminalStruct t

theorem Confined.refl (c : Console) : Confined c c := ⟨.refl c, fun _ _ => rfl, fun _ _ => rfl⟩

theorem Confined.trans (h1 : Confined c c') (h2 : Confined c' c'') : Confined c c'' where
  drawn := h1.drawn.trans h2.drawn
  vram a ha := by
    rw [h2.vram a (by rwa [h1.drawn.videoMem])]
    exact h1.vram a ha
  others t ht := by
    rw [h2.others t (by rwa [h1.drawn.target])]
    exact h1.others t ht

theorem foldl_confined {f : Console → Nat → Console} {l : List Nat}
    (hf : ∀ d : Console, d.vidmapped = false → ∀ i ∈ l, Confined d (f d i)) :
    ∀ c : Console, c.vidmapped = false → Confined c (l.foldl f c) := by
  induction l with
  | nil =>
    intro c _
    exact .refl c
  | cons i l ih =>
    intro c hv
    have h1 : Confined c (f c i) := hf c hv i (List.mem_cons_self ..)
    have hrest := ih fun d hd j hj => hf d hd j (List.mem_cons_of_mem i hj)
    exact h1.trans (hrest (f c i) (by rw [h1.drawn.vidmapped, hv]))

/-- A loop over the cells of the page, as a loop over its contents. -/
theorem foldl_cells {f : Console → Nat → Console} {g : (Nat → TextCell) → Nat → Nat → TextCell}
    {l : List Nat} {p : Nat} (hd : ∀ d i, Drawn d (f d i))
    (hf : ∀ d : Console, d.vidmapped = false → d.videoMem = p →
      ∀ i, (f d i).cellsAt p = g (d.cellsAt p) i) :
    ∀ c : Console, c.vidmapped = false → c.videoMem = p →
      (l.foldl f c).cellsAt p = l.foldl g (c.cellsAt p) := by
  induction l with
  | nil =>
    intro c _ _
    rfl
  | cons i l ih =>
    intro c hv hp
    have h1 := hd c i
    rw [List.foldl_cons, List.foldl_cons, ← hf c hv hp i]
    exact ih (f c i) (by rw [h1.vidmapped, hv]) (by rw [h1.videoMem, hp])

theorem poke_vram (hv : c.vidmapped = false) (a : Nat) (b : UInt8) :
    (c.poke a b).vram = Function.update c.vram a b := by
  unfold poke
  rw [phys_eq hv]

theorem poke_confined (hv : c.vidmapped = false) {a : Nat} (b : UInt8) (hlo : c.videoMem ≤ a)
    (hhi : a < c.videoMem + 0x1000) : Confined c (c.poke a b) where
  drawn := poke_drawn c a b
  vram a' ha' := by
    rw [poke_vram hv]
    exact Function.update_of_ne (by omega) ..
  others _ _ := rfl

/-- Cell `i` becomes the two bytes stored to it. -/
theorem poke_cells (hv : c.vidmapped = false) (p i : Nat) (ch attr : UInt8) :
    ((c.poke (p + 2 * i) ch).poke (p + 2 * i + 1) attr).cellsAt p =
      Function.update (c.cellsAt p) i (ch, attr) := by
  funext j
  unfold cellsAt
  rw [poke_vram (c := c.poke _ _) hv, poke_vram hv]
  by_cases hj : j = i
  · subst hj
    rw [Function.update_of_ne (by omega)]
    simp only [Function.update_self]
  · rw [Function.update_of_ne hj]
    repeat rw [Function.update_of_ne (by omega)]

theorem putCell_cells (hv : c.vidmapped = false) (i : Nat) (ch attr : UInt8) :
    (c.putCell i ch attr).cellsAt c.videoMem =
      Function.update (c.cellsAt c.videoMem) i (ch, attr) :=
  poke_cells hv _ i ch attr

theorem copyCell_cells (hv : c.vidmapped = false) (i j : Nat) :
    (c.copyCell i j).cellsAt c.videoMem =
      Function.update (c.cellsAt c.videoMem) i (c.cellsAt c.videoMem j) := by
  unfold copyCell
  rw [poke_cells hv]
  -- the second read comes after the first store, which is to a character
  have hattr : (c.poke (c.videoMem + 2 * i) (c.peek (c.videoMem + 2 * j))).peek
      (c.videoMem + 2 * j + 1) = c.vram (c.videoMem + 2 * j + 1) := by
    unfold peek
    rw [poke_vram hv, phys_eq hv, phys_eq (c := c.poke _ _) hv]
    exact Function.update_of_ne (by omega) ..
  rw [hattr]
  simp only [peek, phys_eq hv, cellsAt]

theorem putCell_confined (hv : c.vidmapped = false) {i : Nat} (hi : i < 2000) (ch attr : UInt8) :
    Confined c (c.putCell i ch attr) := by
  have h1 := poke_confined hv (a := c.videoMem + 2 * i) ch (by omega) (by omega)
  exact h1.trans (poke_confined (h1.drawn.vidmapped.trans hv) attr
    (by rw [h1.drawn.videoMem]; omega) (by rw [h1.drawn.videoMem]; omega))

theorem copyCell_confined (hv : c.vidmapped = false) {i : Nat} (hi : i < 2000) (j : Nat) :
    Confined c (c.copyCell i j) := by
  have h1 := poke_confined hv (a := c.videoMem + 2 * i) (c.peek (c.videoMem + 2 * j)) (by omega)
    (by omega)
  exact h1.trans (poke_confined (h1.drawn.vidmapped.trans hv) _
    (by rw [h1.drawn.videoMem]; omega) (by rw [h1.drawn.videoMem]; omega))

theorem setCursor_vram (c : Console) (x y : Nat) : (c.setCursor x y).vram = c.vram := by
  unfold setCursor
  split <;> rfl

theorem setCursor_terminalStruct (c : Console) (x y : Nat) :
    (c.setCursor x y).terminalStruct = Function.update c.terminalStruct c.target
      { c.terminalStruct c.target with cursorX := x % 256, cursorY := y % 256 } := by
  unfold setCursor
  split <;> rfl

theorem setCursor_confined (c : Console) (x y : Nat) : Confined c (c.setCursor x y) where
  drawn := setCursor_drawn c x y
  vram a _ := by rw [setCursor_vram]
  others t ht := by
    rw [setCursor_terminalStruct]
    exact Function.update_of_ne ht ..

theorem shiftScreen_confined (hv : c.vidmapped = false) : Confined c c.shiftScreen := by
  have h1 : Confined c ((List.range ((numRows - 1) * numCols)).foldl
      (fun d i => d.copyCell i (i + numCols)) c) :=
    foldl_confined (fun d hd i hi => copyCell_confined hd
      (by rw [List.mem_range] at hi; simp only [numRows, numCols] at hi; omega) _) c hv
  have h2 := foldl_confined (l := List.range numCols)
    (fun d hd i hi => putCell_confined (i := (numRows - 1) * numCols + i) hd
      (by rw [List.mem_range] at hi; simp only [numRows, numCols] at hi ⊢; omega) 32 c.attrib)
    _ (h1.drawn.vidmapped.trans hv)
  exact (h1.trans h2).trans (setCursor_confined _ 0 24)

/-! ## The page that output goes to -/

structure TargetShows (c : Console) (s : TextScreen) : Prop where
  laid : Laid (c.cellsAt c.videoMem) s
  row : c.getCursorY = s.row.val
  col : c.getCursorX = s.col.val

theorem setCursor_targetShows (hl : Laid (c.cellsAt c.videoMem) s) {x y : Nat}
    (hy : s.row.val = y) (hx : s.col.val = x) : TargetShows (c.setCursor x y) s := by
  have hd := setCursor_drawn c x y
  have hrow := s.row.isLt
  have hcol := s.col.isLt
  refine ⟨?_, ?_, ?_⟩
  · rw [hd.videoMem]
    unfold cellsAt
    rw [setCursor_vram]
    exact hl
  · unfold getCursorY
    rw [hd.target, setCursor_terminalStruct, Function.update_self]
    exact (Nat.mod_eq_of_lt (by omega)).trans hy.symm
  · unfold getCursorX
    rw [hd.target, setCursor_terminalStruct, Function.update_self]
    exact (Nat.mod_eq_of_lt (by omega)).trans hx.symm

theorem shiftScreen_targetShows (hv : c.vidmapped = false)
    (hl : Laid (c.cellsAt c.videoMem) s) :
    TargetShows c.shiftScreen (s.scroll (32, c.attrib)) := by
  have hd1 : Drawn c ((List.range ((numRows - 1) * numCols)).foldl
      (fun d i => d.copyCell i (i + numCols)) c) :=
    foldl_drawn (fun d i => copyCell_drawn d i _) _ c
  have hd2 := foldl_drawn
    (fun d i => putCell_drawn d ((numRows - 1) * numCols + i) 32 c.attrib) (List.range numCols)
    ((List.range ((numRows - 1) * numCols)).foldl (fun d i => d.copyCell i (i + numCols)) c)
  unfold shiftScreen
  refine setCursor_targetShows ?_ rfl rfl
  rw [(hd1.trans hd2).videoMem]
  rw [foldl_cells (g := fun g i => Function.update g ((numRows - 1) * numCols + i) (32, c.attrib))
    (fun d i => putCell_drawn d _ _ _) (fun d hd hp i => by rw [← hp]; exact putCell_cells hd ..)
    _ (hd1.vidmapped.trans hv) hd1.videoMem]
  rw [foldl_cells (g := fun g i => Function.update g i (g (i + numCols)))
    (fun d i => copyCell_drawn d _ _) (fun d hd hp i => by rw [← hp]; exact copyCell_cells hd ..)
    _ hv rfl]
  exact hl.scroll_loops _

/-- What `putc` is for: output of one character in the colour `attr`. -/
def screenPutc (attr : UInt8) (s : TextScreen) (ch : UInt8) : TextScreen :=
  if ch = 10 ∨ ch = 13 then s.lineFeed (32, attr) else s.put (32, attr) (ch, attr)

theorem TargetShows.putCell (h : TargetShows c s) (hv : c.vidmapped = false) (ch attr : UInt8) :
    Laid ((c.putCell (numCols * c.getCursorY + c.getCursorX) ch attr).cellsAt c.videoMem)
      (s.store (ch, attr)) := by
  rw [putCell_cells hv, h.row, h.col]
  exact h.laid.store (ch, attr)

theorem putc_confined (hv : c.vidmapped = false) (hx : c.getCursorX < 80)
    (hy : c.getCursorY < 25) (ch : UInt8) : Confined c (c.putc ch) := by
  have hcell : numCols * c.getCursorY + c.getCursorX < 2000 := by
    simp only [numCols]
    omega
  have h1 := putCell_confined hv hcell ch c.attrib
  have hv1 := h1.drawn.vidmapped.trans hv
  unfold putc advance
  dsimp only
  split
  · split
    · exact shiftScreen_confined hv
    · exact setCursor_confined c _ _
  · split
    · split
      · exact h1.trans (shiftScreen_confined hv1)
      · exact h1.trans (setCursor_confined _ _ _)
    · exact h1.trans (setCursor_confined _ _ _)

theorem putc_targetShows (hv : c.vidmapped = false) (h : TargetShows c s) (ch : UInt8) :
    TargetShows (c.putc ch) (screenPutc c.attrib s ch) := by
  have hrow := s.row.isLt
  have hcol := s.col.isLt
  have hd1 := putCell_drawn c (numCols * c.getCursorY + c.getCursorX) ch c.attrib
  have hv1 := hd1.vidmapped.trans hv
  have hl1 := h.putCell hv ch c.attrib
  rw [← hd1.videoMem] at hl1
  unfold putc screenPutc advance Screen.lineFeed Screen.put Screen.lineFeed
  dsimp only
  by_cases hnl : ch = 10 ∨ ch = 13
  · rw [if_pos hnl, if_pos hnl]
    by_cases hlast : c.getCursorY + 1 > 24
    · rw [if_pos hlast, dif_neg (by rw [← h.row]; omega)]
      exact shiftScreen_targetShows hv h.laid
    · rw [if_neg hlast, dif_pos (by rw [← h.row]; omega)]
      refine setCursor_targetShows ?_ ?_ ?_
      · exact h.laid
      · simp only [numCols, numRows, ← h.row]
        omega
      · rfl
  · rw [if_neg hnl, if_neg hnl]
    by_cases hend : c.getCursorX + 1 > 79
    · rw [if_pos hend, dif_neg (by rw [← h.col]; omega)]
      by_cases hlast : c.getCursorY + 1 > 24
      · rw [if_pos hlast, dif_neg (by simp only [Screen.store]; rw [← h.row]; omega)]
        have := shiftScreen_targetShows hv1 hl1
        rwa [hd1.attrib] at this
      · rw [if_neg hlast, dif_pos (by simp only [Screen.store]; rw [← h.row]; omega)]
        refine setCursor_targetShows ?_ ?_ ?_
        · exact hl1
        · simp only [numCols, numRows, Screen.store, ← h.row]
          omega
        · simp only [numCols, Fin.val_zero]
          have := h.col
          omega
    · rw [if_neg hend, dif_pos (by rw [← h.col]; omega)]
      refine setCursor_targetShows ?_ ?_ ?_
      · exact hl1
      · simp only [numCols, numRows, Screen.store, ← h.row]
        have := h.row
        omega
      · simp only [numCols, ← h.col]
        omega

end Console
end DeviceOS
