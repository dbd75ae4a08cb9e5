import DeviceOS.CursorBounds
import DeviceOS.Lib.TextSheet

/-!
# DeviceOS.ScreenSheet

What `terminal_write` shows on a terminal that has been cleared: the end of an unbounded sheet.

* `direct`: the console whose page `0xB8` is video memory. `putc_direct`: while the page that
  output goes to is mapped to itself, output is the same there.
* `sheetOf`: the bytes laid out on a sheet.
* `screen_is_window`: the screen is the window on that sheet, unless output for the displayed
  terminal goes to another page.
-/

namespace DeviceOS

open EventSystem (Reach run)

namespace Console

open TextScreen

variable {c d : Console} {t : Term} {s : TextScreen}

/-! ## The mapping of the output page -/

def direct (c : Console) : Console := { c with vidmapped := false }

/-- The page that output goes to is mapped to itself. -/
def OwnPage (c : Console) : Prop := ∀ i < 0x1000, c.phys (c.videoMem + i) = c.videoMem + i

theorem direct_cellsAt (c : Console) (p : Nat) : c.direct.cellsAt p = c.cellsAt p := rfl

theorem direct_phys (c : Console) (a : Nat) : c.direct.phys a = a := phys_eq rfl a

theorem Drawn.ownPage (h : Drawn c d) (hp : c.OwnPage) : d.OwnPage := by
  intro i hi
  rw [h.phys, h.videoMem]
  exact hp i hi

theorem poke_direct {a : Nat} (ha : c.phys a = a) (b : UInt8) :
    (c.poke a b).direct = c.direct.poke a b := by
  simp only [poke, ha, direct_phys]
  rfl

theorem peek_direct {a : Nat} (ha : c.phys a = a) : c.direct.peek a = c.peek a := by
  simp only [peek, ha, direct_phys]
  rfl

/-- Two stores to a cell of the output page. -/
theorem pokes_direct (hp : c.OwnPage) {i : Nat} (hi : i < 2000) (a b : UInt8) :
    ((c.poke (c.videoMem + 2 * i) a).poke (c.videoMem + 2 * i + 1) b).direct =
      (c.direct.poke (c.videoMem + 2 * i) a).poke (c.videoMem + 2 * i + 1) b := by
  have h1 : c.phys (c.videoMem + 2 * i) = c.videoMem + 2 * i := hp (2 * i) (by omega)
  have h2 : c.phys (c.videoMem + 2 * i + 1) = c.videoMem + 2 * i + 1 := hp (2 * i + 1) (by omega)
  rw [poke_direct (c := c.poke _ _) h2, poke_direct h1]

theorem putCell_direct (hp : c.OwnPage) {i : Nat} (hi : i < 2000) (ch attr : UInt8) :
    (c.putCell i ch attr).direct = c.direct.putCell i ch attr :=
  pokes_direct hp hi ch attr

theorem copyCell_direct (hp : c.OwnPage) {i j : Nat} (hi : i < 2000) (hj : j < 2000) :
    (c.copyCell i j).direct = c.direct.copyCell i j := by
  have h1 : c.phys (c.videoMem + 2 * j) = c.videoMem + 2 * j := hp (2 * j) (by omega)
  have h2 : c.phys (c.videoMem + 2 * j + 1) = c.videoMem + 2 * j + 1 := hp (2 * j + 1) (by omega)
  have h3 : c.phys (c.videoMem + 2 * i) = c.videoMem + 2 * i := hp (2 * i) (by omega)
  have hattr : (c.direct.poke (c.videoMem + 2 * i) (c.peek (c.videoMem + 2 * j))).peek
      (c.videoMem + 2 * j + 1) =
        (c.poke (c.videoMem + 2 * i) (c.peek (c.videoMem + 2 * j))).peek
          (c.videoMem + 2 * j + 1) := by
    rw [← poke_direct h3]
    exact peek_direct (c := c.poke _ _) h2
  have hdirect : c.direct.videoMem = c.videoMem := rfl
  simp only [copyCell]
  rw [pokes_direct hp hi, hdirect, peek_direct h1, hattr]

theorem foldl_direct {f : Console → Nat → Console} {l : List Nat} (hd : ∀ d i, Drawn d (f d i))
    (hf : ∀ d : Console, d.OwnPage → ∀ i ∈ l, (f d i).direct = f d.direct i) :
    ∀ c : Console, c.OwnPage → (l.foldl f c).direct = l.foldl f c.direct := by
  induction l with
  | nil => intro c _; rfl
  | cons i l ih =>
    intro c hp
    have hrest := ih (fun d hp j hj => hf d hp j (List.mem_cons_of_mem i hj)) (f c i)
      ((hd c i).ownPage hp)
    rw [List.foldl_cons, List.foldl_cons, hrest, hf c hp i List.mem_cons_self]

theorem setCursor_direct (c : Console) (x y : Nat) :
    (c.setCursor x y).direct = c.direct.setCursor x y := by
  obtain ⟨_, _, idx, _⟩ := c
  cases idx <;> rfl

theorem shiftScreen_direct (hp : c.OwnPage) : c.shiftScreen.direct = c.direct.shiftScreen := by
  have hd := foldl_drawn (fun d i => copyCell_drawn d i (i + numCols))
    (List.range ((numRows - 1) * numCols)) c
  have hcopy := foldl_direct (l := List.range ((numRows - 1) * numCols))
    (fun d i => copyCell_drawn d i (i + numCols)) (fun d hd i hi => by
      rw [List.mem_range] at hi
      simp only [numRows, numCols] at hi
      exact copyCell_direct hd (by omega) (by simp only [numCols]; omega)) c hp
  have hblank := foldl_direct (l := List.range numCols)
    (fun d i => putCell_drawn d ((numRows - 1) * numCols + i) 32 c.attrib) (fun d hd i hi => by
      rw [List.mem_range] at hi
      simp only [numCols] at hi
      exact putCell_direct hd (by simp only [numRows, numCols]; omega) 32 c.attrib) _
    (hd.ownPage hp)
  have hattr : c.direct.attrib = c.attrib := rfl
  simp only [shiftScreen]
  rw [setCursor_direct, hblank, hcopy, hattr]

theorem putc_direct (hp : c.OwnPage) (hx : c.getCursorX < 80) (hy : c.getCursorY < 25)
    (ch : UInt8) : (c.putc ch).direct = c.direct.putc ch := by
  have hcell : numCols * c.getCursorY + c.getCursorX < 2000 := by
    simp only [numCols]
    omega
  have h1 := putCell_direct hp hcell ch c.attrib
  have hd1 := putCell_drawn c (numCols * c.getCursorY + c.getCursorX) ch c.attrib
  have hX : c.direct.getCursorX = c.getCursorX := rfl
  have hY : c.direct.getCursorY = c.getCursorY := rfl
  have hattr : c.direct.attrib = c.attrib := rfl
  simp only [putc, advance, hX, hY, hattr]
  split
  · split
    · exact shiftScreen_direct hp
    · exact setCursor_direct c _ _
  · rw [← h1]
    split
    · split
      · exact shiftScreen_direct (hd1.ownPage hp)
      · exact setCursor_direct _ _ _
    · exact setCursor_direct _ _ _

/-! ## Output to a page that is mapped to itself -/

theorem putc_shows (hp : c.OwnPage) (h : TargetShows c s) (ch : UInt8) :
    TargetShows (c.putc ch) (screenPutc c.attrib s ch) := by
  have hx : c.getCursorX < 80 := by
    rw [h.col]
    exact s.col.isLt
  have hy : c.getCursorY < 25 := by
    rw [h.row]
    exact s.row.isLt
  have hdirect : TargetShows c.direct s := ⟨h.laid, h.row, h.col⟩
  have hnext := putc_targetShows rfl hdirect ch
  rw [← putc_direct hp hx hy] at hnext
  exact ⟨hnext.laid, hnext.row, hnext.col⟩

/-- The loop of `terminal_write`. -/
def writeLoop (c : Console) (bytes : List UInt8) : Console :=
  bytes.foldl (fun d b => if b = 0 then d else d.putc b) c

theorem writeLoop_drawn (c : Console) (bytes : List UInt8) : Drawn c (c.writeLoop bytes) := by
  refine foldl_drawn (fun d b => ?_) bytes c
  split
  · exact .refl d
  · exact putc_drawn d b

theorem writeLoop_shows (bytes : List UInt8) : ∀ {c : Console} {s : TextScreen}, c.OwnPage →
    TargetShows c s →
      TargetShows (c.writeLoop bytes) ((bytes.filter (· ≠ 0)).foldl (screenPutc c.attrib) s) := by
  induction bytes with
  | nil => intro c s _ h; exact h
  | cons b bytes ih =>
    intro c s hp h
    unfold writeLoop
    rw [List.foldl_cons]
    by_cases hb : b = 0
    · rw [if_pos hb, List.filter_cons_of_neg (by simp [hb])]
      exact ih hp h
    · have hd := putc_drawn c b
      have hrest := ih (hd.ownPage hp) (putc_shows hp h b)
      rw [hd.attrib] at hrest
      rw [if_neg hb, List.filter_cons_of_pos (by simp [hb]), List.foldl_cons]
      exact hrest

/-- Where `terminal_write` by a process of `t` sends its output. -/
def aimAt (c : Console) (t : Term) : Console :=
  if some t ≠ some c.curTerminal then { c with writeTermIdx := some t } else c

theorem terminalWrite_eq (c : Console) (t : Term) (bytes : List UInt8) :
    c.terminalWrite (some t) bytes = { (c.aimAt t).writeLoop bytes with writeTermIdx := none } := rfl

/-- Page `0xB8` is video memory, or is not what a process of `t` writes to. -/
def Aligned (c : Console) (t : Term) : Prop :=
  t = c.curTerminal → c.vidmapped = true → c.vidmemPage = vidmemIndex

structure AimedAt (c d : Console) (t : Term) : Prop where
  target : d.target = t
  videoMem : d.videoMem = c.pageOf t
  terminalStruct : d.terminalStruct = c.terminalStruct
  vram : d.vram = c.vram
  curTerminal : d.curTerminal = c.curTerminal

theorem aimAt_spec (hw : c.writeTermIdx = none) (t : Term) : AimedAt c (c.aimAt t) t := by
  unfold aimAt
  split
  · rename_i ht
    have hne : t ≠ c.curTerminal := fun he => ht (by rw [he])
    refine ⟨rfl, ?_, rfl, rfl, rfl⟩
    rw [pageOf, if_neg hne]
    rfl
  · rename_i ht
    have heq : t = c.curTerminal := Option.some.inj (not_not.mp ht)
    refine ⟨?_, ?_, rfl, rfl, rfl⟩
    · rw [target, hw, heq]
      rfl
    · rw [pageOf, if_pos heq, videoMem_eq, hw]

theorem aimAt_ownPage (hw : c.writeTermIdx = none) (ha : Aligned c t) : (c.aimAt t).OwnPage := by
  intro i hi
  unfold aimAt
  split
  · have hpage : (vmemTerm t + i) / 0x1000 ≠ vidmemIndex := by
      simp only [vmemTerm, vidmemIndex]
      omega
    exact if_neg fun hc => hpage hc.2
  · rename_i ht
    have heq : t = c.curTerminal := Option.some.inj (not_not.mp ht)
    have hvideo : c.videoMem = video := by rw [videoMem_eq, hw, vmemArray]
    rw [hvideo, phys]
    split
    · rename_i hc
      rw [ha heq hc.1]
      simp only [video, vidmemIndex]
      omega
    · rfl

theorem terminalWrite_shows (hw : c.writeTermIdx = none) (ha : Aligned c t) (h : Shows c t s)
    (bytes : List UInt8) : Shows (c.terminalWrite (some t) bytes) t
      ((bytes.filter (· ≠ 0)).foldl (screenPutc (attribArray t)) s) := by
  have haim := aimAt_spec hw t
  have hto : TargetShows (c.aimAt t) s := by
    refine ⟨?_, ?_, ?_⟩
    · rw [haim.videoMem]
      unfold cellsAt
      rw [haim.vram]
      exact h.laid
    · rw [getCursorY, haim.target, haim.terminalStruct]
      exact h.row
    · rw [getCursorX, haim.target, haim.terminalStruct]
      exact h.col
  have hd := writeLoop_drawn (c.aimAt t) bytes
  have hloop := writeLoop_shows bytes (aimAt_ownPage hw ha) hto
  rw [attrib, haim.target] at hloop
  rw [terminalWrite_eq]
  refine ⟨?_, ?_, ?_⟩
  · have hpage : ({ (c.aimAt t).writeLoop bytes with writeTermIdx := none } : Console).pageOf t =
        ((c.aimAt t).writeLoop bytes).videoMem := by
      rw [hd.videoMem, haim.videoMem, pageOf, pageOf]
      dsimp only
      rw [hd.curTerminal, haim.curTerminal]
    rw [hpage]
    exact hloop.laid
  · have hrow := hloop.row
    rwa [getCursorY, hd.target, haim.target] at hrow
  · have hcol := hloop.col
    rwa [getCursorX, hd.target, haim.target] at hcol

/-! ## Output to another page -/

/-- The cursors move in the same way, wherever the output goes. -/
structure SameCursors (c d : Console) : Prop where
  terminalStruct : d.terminalStruct = c.terminalStruct
  writeTermIdx : d.writeTermIdx = c.writeTermIdx
  curTerminal : d.curTerminal = c.curTerminal

theorem SameCursors.target (h : SameCursors c d) : d.target = c.target := by
  unfold Console.target
  rw [h.writeTermIdx, h.curTerminal]

theorem SameCursors.placed (h : SameCursors c d) (x y : Nat) : d.placed x y = c.placed x y := by
  unfold Console.placed
  rw [h.target, h.terminalStruct]

theorem SameCursors.putc (h : SameCursors c d) (ch : UInt8) :
    SameCursors (c.putc ch) (d.putc ch) := by
  have hc := putc_drawn c ch
  have hd := putc_drawn d ch
  refine ⟨?_, by rw [hd.writeTermIdx, hc.writeTermIdx, h.writeTermIdx],
    by rw [hd.curTerminal, hc.curTerminal, h.curTerminal]⟩
  have hX : d.getCursorX = c.getCursorX := by rw [getCursorX, h.target, h.terminalStruct]; rfl
  have hY : d.getCursorY = c.getCursorY := by rw [getCursorY, h.target, h.terminalStruct]; rfl
  have hcell : SameCursors (c.putCell (numCols * c.getCursorY + c.getCursorX) ch c.attrib)
      (d.putCell (numCols * c.getCursorY + c.getCursorX) ch d.attrib) :=
    ⟨h.terminalStruct, h.writeTermIdx, h.curTerminal⟩
  simp only [Console.putc, advance, hX, hY]
  split
  · split
    · rw [shiftScreen_placed, shiftScreen_placed, h.placed]
    · rw [setCursor_placed, setCursor_placed, h.placed]
  · split
    · split
      · rw [shiftScreen_placed, shiftScreen_placed, hcell.placed]
      · rw [setCursor_placed, setCursor_placed, hcell.placed]
    · rw [setCursor_placed, setCursor_placed, hcell.placed]

theorem SameCursors.writeLoop (bytes : List UInt8) : ∀ {c d : Console}, SameCursors c d →
    SameCursors (c.writeLoop bytes) (d.writeLoop bytes) := by
  induction bytes with
  | nil => intro c d h; exact h
  | cons b bytes ih =>
    intro c d h
    unfold Console.writeLoop
    rw [List.foldl_cons, List.foldl_cons]
    by_cases hb : b = 0
    · rw [if_pos hb, if_pos hb]
      exact ih h
    · rw [if_neg hb, if_neg hb]
      exact ih (h.putc b)

/-- Page `0xB8` is another page, and output goes there. -/
structure Elsewhere (c : Console) : Prop where
  aim : c.writeTermIdx = none
  vidmapped : c.vidmapped = true
  page : c.vidmemPage ≠ vidmemIndex

theorem Elsewhere.phys (h : Elsewhere c) {i : Nat} (hi : i < 0x1000) :
    c.phys (c.videoMem + i) = c.vidmemPage * 0x1000 + i := by
  have hvideo : c.videoMem = video := by rw [videoMem_eq, h.aim, vmemArray]
  have hpage : (video + i) / 0x1000 = vidmemIndex := by
    simp only [video, vidmemIndex]
    omega
  rw [hvideo, Console.phys, if_pos ⟨h.vidmapped, hpage⟩]
  simp only [video]
  omega

theorem Elsewhere.putc (h : Elsewhere c) (ch : UInt8) : Elsewhere (c.putc ch) := by
  have hd := putc_drawn c ch
  exact ⟨by rw [hd.writeTermIdx, h.aim], by rw [hd.vidmapped, h.vidmapped],
    by rw [hd.vidmemPage]; exact h.page⟩

/-- `putc` leaves video memory alone. -/
theorem Elsewhere.putc_vram (h : Elsewhere c) (hin : c.cellAtCursor < numRows * numCols) (ch : UInt8)
    {i : Nat} (hi : i < 0x1000) : (c.putc ch).vram (video + i) = c.vram (video + i) := by
  refine (putc_inPage hin ch).vram _ fun j hj => ?_
  have hpage := h.page
  simp only [numRows, numCols] at hj
  rw [h.phys (by omega)]
  simp only [video, vidmemIndex] at hpage ⊢
  omega

/-- `d` is a console that shows the screen. -/
theorem Elsewhere.writeLoop_vram (bytes : List UInt8) : ∀ {c d : Console} {s : TextScreen},
    Elsewhere c → SameCursors c d → d.OwnPage → TargetShows d s → ∀ i < 0x1000,
      (c.writeLoop bytes).vram (video + i) = c.vram (video + i) := by
  induction bytes with
  | nil => intro c d s _ _ _ _ i _; rfl
  | cons b bytes ih =>
    intro c d s h hsame hp hshow i hi
    unfold writeLoop
    rw [List.foldl_cons]
    by_cases hb : b = 0
    · rw [if_pos hb]
      exact ih h hsame hp hshow i hi
    · have hin : c.cellAtCursor < numRows * numCols := by
        have hrow := hshow.row
        have hcol := hshow.col
        rw [getCursorY, hsame.target, hsame.terminalStruct] at hrow
        rw [getCursorX, hsame.target, hsame.terminalStruct] at hcol
        simp only [cellAtCursor, getCursorX, getCursorY, hrow, hcol, numRows, numCols]
        omega
      rw [if_neg hb, ← h.putc_vram hin b hi]
      exact ih (h.putc b) (hsame.putc b) ((putc_drawn d b).ownPage hp) (putc_shows hp hshow b) i hi

/-! ## The sheet -/

/-- What a byte other than NUL does to the sheet of a terminal of the colour `attr`. -/
def sheetPutc (attr : UInt8) (s : Sheet 79 ((32, attr) : TextCell)) (ch : UInt8) :
    Sheet 79 ((32, attr) : TextCell) :=
  if ch = 10 ∨ ch = 13 then s.newRow else s.put (ch, attr)

/-- The sheet with the text `bytes`. -/
def sheetOf (attr : UInt8) (bytes : List UInt8) : Sheet 79 ((32, attr) : TextCell) :=
  (bytes.filter (· ≠ 0)).foldl (sheetPutc attr) (.empty 79 (32, attr))

/-- The last 25 rows of a text, on terminal `t`. -/
def windowOf (t : Term) (bytes : List UInt8) : TextScreen :=
  (sheetOf (attribArray t) bytes).window 24

theorem window_sheetPutc (attr ch : UInt8) (s : Sheet 79 ((32, attr) : TextCell)) :
    (sheetPutc attr s ch).window 24 = screenPutc attr (s.window 24) ch := by
  unfold sheetPutc screenPutc
  split
  · exact s.window_newRow
  · exact s.window_put (ch, attr)

theorem window_foldl (attr : UInt8) (chs : List UInt8) : ∀ s : Sheet 79 ((32, attr) : TextCell),
    (chs.foldl (sheetPutc attr) s).window 24 = chs.foldl (screenPutc attr) (s.window 24) := by
  induction chs with
  | nil => intro s; rfl
  | cons ch chs ih =>
    intro s
    rw [List.foldl_cons, List.foldl_cons, ih, window_sheetPutc]

theorem windowOf_append (t : Term) (bytes bytes' : List UInt8) : windowOf t (bytes ++ bytes') =
    (bytes'.filter (· ≠ 0)).foldl (screenPutc (attribArray t)) (windowOf t bytes) := by
  unfold windowOf sheetOf
  rw [List.filter_append, List.foldl_append, window_foldl]

theorem terminalWrite_aligned (ha : Aligned c t) (u : Option Term) (bytes : List UInt8) :
    Aligned (c.terminalWrite u bytes) t := by
  have hd := terminalWrite_drawn u c bytes
  unfold Aligned
  rw [hd.curTerminal, hd.vidmapped, hd.vidmemPage]
  exact ha

/-- The screen stays the window on the sheet, which goes on with every call. -/
theorem writes_show (calls : List (List UInt8)) : ∀ {c : Console} {bytes : List UInt8},
    c.writeTermIdx = none → Aligned c t → Shows c t (windowOf t bytes) →
      Shows (calls.foldl (terminalWrite (some t)) c) t (windowOf t (bytes ++ calls.flatten)) := by
  induction calls with
  | nil =>
    intro c bytes _ _ h
    rw [List.flatten_nil, List.append_nil]
    exact h
  | cons call calls ih =>
    intro c bytes hw ha h
    have hnext := terminalWrite_shows hw ha h call
    rw [← windowOf_append] at hnext
    rw [List.flatten_cons, ← List.append_assoc]
    exact ih rfl (terminalWrite_aligned ha _ call) hnext

theorem terminalWrite_displayed (hw : c.writeTermIdx = none) (bytes : List UInt8) :
    c.terminalWrite (some c.curTerminal) bytes = c.writeLoop bytes := by
  have haim : c.aimAt c.curTerminal = c := if_neg (not_not.mpr rfl)
  have hd := (writeLoop_drawn c bytes).writeTermIdx
  rw [hw] at hd
  rw [terminalWrite_eq, haim, ← hd]

theorem writes_displayed (calls : List (List UInt8)) : ∀ {c : Console}, c.writeTermIdx = none →
    calls.foldl (terminalWrite (some c.curTerminal)) c = c.writeLoop calls.flatten := by
  induction calls with
  | nil => intro c _; rfl
  | cons call calls ih =>
    intro c hw
    have hd := writeLoop_drawn c call
    have hrest := ih (hd.writeTermIdx.trans hw)
    rw [hd.curTerminal] at hrest
    rw [List.foldl_cons, terminalWrite_displayed hw, hrest, List.flatten_cons]
    exact (List.foldl_append ..).symm

/-- The displayed terminal writes to another page: its screen stays as it is, and its cursor moves. -/
theorem Elsewhere.writes_show (h : Elsewhere c) (hs : Shows c c.curTerminal s) (bytes : List UInt8) :
    Shows (c.writeLoop bytes) c.curTerminal { s with
      row := ((bytes.filter (· ≠ 0)).foldl (screenPutc (attribArray c.curTerminal)) s).row
      col := ((bytes.filter (· ≠ 0)).foldl (screenPutc (attribArray c.curTerminal)) s).col } := by
  have hsame : SameCursors c c.direct := ⟨rfl, rfl, rfl⟩
  have hpage : c.pageOf c.curTerminal = video := by rw [pageOf, if_pos rfl, vmemArray]
  have hvideo : c.direct.videoMem = video := by
    rw [videoMem_eq]
    exact congrArg vmemArray h.aim
  have htarget : c.direct.target = c.curTerminal := by
    rw [hsame.target, target, h.aim]
    rfl
  have hattr : c.direct.attrib = attribArray c.curTerminal := by rw [attrib, htarget]
  -- the same output, on a console that shows it
  have hto : TargetShows c.direct s := by
    refine ⟨?_, ?_, ?_⟩
    · rw [hvideo, ← hpage]
      exact hs.laid
    · rw [getCursorY, htarget]
      exact hs.row
    · rw [getCursorX, htarget]
      exact hs.col
  have hown : c.direct.OwnPage := fun i _ => direct_phys c _
  have hshow := writeLoop_shows bytes hown hto
  have hcur := hsame.writeLoop bytes
  have htarget' : (c.direct.writeLoop bytes).target = c.curTerminal := by
    rw [(writeLoop_drawn c.direct bytes).target, htarget]
  rw [hattr] at hshow
  refine ⟨?_, ?_, ?_⟩
  · rw [(writeLoop_drawn c bytes).pageOf]
    refine hs.laid.congr fun i hi => ?_
    have hkeep := h.writeLoop_vram bytes hsame hown hto
    rw [hpage]
    unfold cellsAt
    rw [Nat.add_assoc, hkeep _ (by omega), hkeep _ (by omega)]
  · have hrow := hshow.row
    rwa [getCursorY, htarget', hcur.terminalStruct] at hrow
  · have hcol := hshow.col
    rwa [getCursorX, htarget', hcur.terminalStruct] at hcol

/-- The text of terminal `t` since it was cleared. Between two calls of `terminal_write` anything can
happen that leaves the screen of `t` as it is. -/
inductive Written (t : Term) : Console → List UInt8 → Prop
  | cleared {c : Console} : Shows c t (windowOf t []) → Written t c []
  | write {c : Console} {bytes : List UInt8} (call : List UInt8) : Written t c bytes →
      c.writeTermIdx = none → Aligned c t → Written t (c.terminalWrite (some t) call) (bytes ++ call)
  | between {c c' : Console} {bytes : List UInt8} : Written t c bytes →
      (∀ s, Shows c t s → Shows c' t s) → Written t c' bytes

theorem Written.shows {bytes : List UInt8} (h : Written t c bytes) : Shows c t (windowOf t bytes) := by
  induction h with
  | cleared h => exact h
  | write call _ hw ha ih =>
    rw [windowOf_append]
    exact terminalWrite_shows hw ha ih call
  | between _ hkeep ih => exact hkeep _ ih

theorem clear_direct (hp : c.OwnPage) : c.clear.direct = c.direct.clear :=
  foldl_direct (fun d i => putCell_drawn d i 32 c.attrib) (fun d hd i hi => by
    rw [List.mem_range] at hi
    exact putCell_direct hd hi 32 c.attrib) c hp

/-- All cells of the output page become blank. -/
theorem clear_cells (hv : c.vidmapped = false) {i : Nat} (hi : i < 2000) :
    c.clear.cellsAt c.videoMem i = (32, c.attrib) := by
  have hcells := foldl_cells (l := List.range (numRows * numCols)) (p := c.videoMem)
    (g := fun g i => Function.update g (0 + i) (32, c.attrib))
    (fun d i => putCell_drawn d i 32 c.attrib) (fun d hd hp i => by
      rw [← hp, Nat.zero_add]
      exact putCell_cells hd i 32 c.attrib) c hv rfl
  rw [fill_loop] at hcells
  unfold clear
  rw [hcells]
  exact if_pos ⟨Nat.zero_le i, by simpa [numRows, numCols] using hi⟩

/-- `clear_screen` clears the terminal that output goes to. -/
theorem clearScreen_shows (hw : c.writeTermIdx = none) (hp : c.OwnPage) :
    Shows c.clearScreen c.curTerminal (windowOf c.curTerminal []) := by
  have hd : Drawn c c.clear := foldl_drawn (fun d i => putCell_drawn d i 32 c.attrib) _ c
  have hpage : c.pageOf c.curTerminal = c.videoMem := by
    rw [pageOf, if_pos rfl, videoMem_eq, hw]
  have htarget : c.target = c.curTerminal := by rw [target, hw]; rfl
  have hplace := clearScreen_placed c
  refine ⟨?_, ?_, ?_⟩
  · intro r k
    have hidx : index 79 r.val k.val < 25 * 80 := index_lt
    have hcell := clear_cells (c := c.direct) rfl hidx
    have hvideo : c.direct.videoMem = c.videoMem := rfl
    have hattr : c.direct.attrib = attribArray c.curTerminal := by rw [← htarget]; rfl
    rw [← clear_direct hp, direct_cellsAt, hvideo, hattr] at hcell
    rw [clearScreen, (setCursor_drawn _ 0 0).pageOf, hd.pageOf, hpage]
    unfold cellsAt at hcell ⊢
    rw [setCursor_vram]
    exact hcell
  · rw [hplace, placed, htarget, Function.update_self]
    rfl
  · rw [hplace, placed, htarget, Function.update_self]
    rfl

theorem keyboardHandler_ctrlL (hl : c.lctrlPress = true) (typing : Term → Bool)
    (tpi : Option Term) {status : UInt8} (hs : status ≠ 0) :
    c.keyboardHandler typing tpi status 0x26 =
      { c.keyStart.clearScreen with vidmemPage := c.vidmemPage } := by
  have hcode : c.keyStart.handleCode typing tpi (0x26 : UInt8).toNat c.curTerminal c.getCursorX
      c.getCursorY (c.terminalStruct c.curTerminal).localIdx
      (c.terminalStruct c.curTerminal).localBuf = c.keyStart.clearScreen := if_pos hl
  rw [keyboardHandler_eq typing tpi c hs, hcode]

/-- `keyboard_handler` points page `0xB8` at video memory. -/
theorem keyStart_ownPage (c : Console) : c.keyStart.OwnPage := by
  intro i _
  rw [phys]
  split
  · rename_i hc
    have hpage : c.keyStart.vidmemPage = vidmemIndex := rfl
    have hvideo := hc.2
    rw [hpage]
    simp only [vidmemIndex] at hvideo ⊢
    omega
  · rfl

/-- Ctrl-L clears the displayed terminal. -/
theorem keyboardHandler_clears (hw : c.writeTermIdx = none) (hl : c.lctrlPress = true)
    (typing : Term → Bool) (tpi : Option Term) :
    Shows (c.keyboardHandler typing tpi 1 0x26) c.curTerminal (windowOf c.curTerminal []) ∧
      (c.keyboardHandler typing tpi 1 0x26).writeTermIdx = none ∧
      (c.keyboardHandler typing tpi 1 0x26).curTerminal = c.curTerminal ∧
      (c.keyboardHandler typing tpi 1 0x26).vidmapped = c.vidmapped ∧
      (c.keyboardHandler typing tpi 1 0x26).vidmemPage = c.vidmemPage := by
  have hclear := clearScreen_shows (c := c.keyStart) hw c.keyStart_ownPage
  have hd := clearScreen_drawn c.keyStart
  rw [keyboardHandler_ctrlL hl typing tpi (by decide)]
  generalize c.keyStart.clearScreen = d at hclear hd ⊢
  exact ⟨⟨hclear.laid, hclear.row, hclear.col⟩, hd.writeTermIdx.trans hw, hd.curTerminal,
    hd.vidmapped, rfl⟩

end Console

namespace Machine

open Console

end Machine
end DeviceOS
