import DeviceOS.LineStrings
import DeviceOS.ScreenSheet
import DeviceOS.Lib.TextStrip

/-!
# DeviceOS.Echo

The line that is edited and its echo on the screen.

* `strip`: the text page that output goes to, and the cell of the cursor in it. `putc_strip`: `putc`
  is `Strip.put` on it.
* `Echo first buf n c`: the `n` cells before the cursor show `buf`, and all others are blank or come
  from the screen `first`.
* `Echoes`: a scan code that draws what it stores. The tab and Ctrl-L do not, unless the line is
  empty, and neither does an arrow that blanks out less than the line.
* `line_is_shown`: such scan codes keep the line and its echo in step. `TabDrawn`, `Cleared`: what
  the tab and Ctrl-L draw. `echo_breaks`: they, and arrows, can break the echo.
-/

namespace DeviceOS

open EventSystem (Reach run)

/-- No character of the buffer is a new line for `putc`. -/
def NoBreaks (buf : Nat → UInt8) : Prop := ∀ j, ¬ (buf j = 10 ∨ buf j = 13)

theorem NoBreaks.nil : NoBreaks fun _ => 0 := by
  intro j
  show ¬ ((0 : UInt8) = 10 ∨ (0 : UInt8) = 13)
  decide

theorem NoBreaks.update {buf : Nat → UInt8} (h : NoBreaks buf) {ch : UInt8}
    (hch : ¬ (ch = 10 ∨ ch = 13)) (i : Nat) : NoBreaks (Function.update buf i ch) := by
  intro j
  by_cases hj : j = i
  · subst hj
    rwa [Function.update_self]
  · rw [Function.update_of_ne hj]
    exact h j

/-- Neither the line nor a row of the history has a new line in it. -/
structure OneLine (s : Terminal) : Prop where
  line : NoBreaks s.keyboardBuf
  rows : ∀ k, NoBreaks (s.commandBuf k)

namespace OneLine

variable {s s' : Terminal}

theorem sameLine (h : OneLine s) (hs : SameLine s s') : OneLine s' := by
  refine ⟨?_, fun k => ?_⟩
  · rw [hs.keyboardBuf]
    exact h.line
  · rw [hs.commandBuf]
    exact h.rows k

theorem flagged (h : OneLine s) : OneLine { s with enterFlag := true } := ⟨h.line, h.rows⟩

theorem localLine (h : OneLine s) : NoBreaks s.localBuf := by
  simp only [Terminal.localBuf]
  split
  · exact .nil
  · exact h.line

theorem setDraft (h : OneLine s) {buf : Nat → UInt8} (hbuf : NoBreaks buf) (k : Nat) :
    NoBreaks (Function.update s.commandBuf 0 buf k) := by
  by_cases hk : k = 0
  · subst hk
    rwa [Function.update_self]
  · rw [Function.update_of_ne hk]
    exact h.rows k

theorem showRow (h : OneLine s) (k : Nat) : OneLine (s.showRow k) := ⟨h.rows k, h.rows⟩

theorem older (h : OneLine s) : OneLine s.older := by
  simp only [Terminal.older]
  split
  · have hsave : OneLine s.saveDraft := ⟨h.line, h.setDraft h.line⟩
    exact hsave.showRow _
  · exact h.showRow _

theorem finishRead (h : OneLine s) (shell : Bool) : OneLine (s.finishRead shell) := by
  simp only [Terminal.finishRead]
  split
  · exact ⟨.nil, Terminal.pushHistory_rows (P := fun buf _ => NoBreaks buf) .nil h.line
      fun k _ => h.rows k⟩
  · exact ⟨.nil, h.rows⟩

theorem stable : LineStable OneLine := ⟨sameLine, flagged, finishRead⟩

theorem lineEdit (h : OneLine s) {typing : Bool} {ch : UInt8} {code : Nat}
    (he : Console.LineEdit typing ch code s s')
    (hch : code < 0x3A → code ∉ Console.handled → ¬ (ch = 10 ∨ ch = 13)) : OneLine s' := by
  have hclear : OneLine s.clearFlag := ⟨h.line, h.rows⟩
  cases he with
  | kept => exact hclear
  | typed _ hlt hcode => exact ⟨h.localLine.update (hch hlt hcode) _, h.rows⟩
  | erased => exact ⟨h.line.update (by decide) _, h.setDraft h.localLine⟩
  | oldest => exact ⟨h.line, h.rows⟩
  | older => exact hclear.older
  | newer => exact hclear.showRow _
  | entered => exact h.flagged

end OneLine

namespace Console

open TextScreen

variable {c d : Console} {t : Term} {s : TextScreen}

def strip (c : Console) : Strip TextCell := ⟨c.cellsAt c.videoMem, c.cellAtCursor⟩

/-- The cursor of the target is on the screen. -/
structure Inside (c : Console) : Prop where
  col : c.getCursorX < numCols
  row : c.getCursorY < numRows

theorem TargetShows.inside (h : TargetShows c s) : Inside c :=
  ⟨by rw [h.col]; exact s.col.isLt, by rw [h.row]; exact s.row.isLt⟩

theorem TargetShows.lays (h : TargetShows c s) : c.strip.Lays s := by
  refine ⟨h.laid, ?_⟩
  simp only [strip, cellAtCursor, index, h.row, h.col, numCols]

theorem Inside.shows (h : Inside c) : ∃ s, TargetShows c s :=
  ⟨⟨fun r k => c.cellsAt c.videoMem (index 79 r.val k.val), ⟨_, h.row⟩, ⟨_, h.col⟩⟩,
    fun _ _ => rfl, rfl, rfl⟩

theorem putc_strip (hp : c.OwnPage) (hin : Inside c) {ch : UInt8} (hch : ¬ (ch = 10 ∨ ch = 13)) :
    Inside (c.putc ch) ∧ Strip.Same 2000 (c.strip.put 2000 80 (32, c.attrib) (ch, c.attrib))
      (c.putc ch).strip := by
  obtain ⟨s, hs⟩ := hin.shows
  have hnext := putc_shows hp hs ch
  refine ⟨hnext.inside, ?_⟩
  rw [screenPutc, if_neg hch] at hnext
  exact (hs.lays.put (32, c.attrib) (ch, c.attrib)).same hnext.lays

/-- `set_cursor`, and the routine that sets the fields alone. -/
theorem placed_strip {x y : Nat} (hd : Drawn c d) (hv : d.vram = c.vram)
    (hs : d.terminalStruct = c.placed (x % 256) (y % 256)) (hx : x < numCols) (hy : y < numRows) :
    Inside d ∧ d.strip = ⟨c.strip.cells, numCols * y + x⟩ := by
  have hx256 : x % 256 = x := Nat.mod_eq_of_lt (Nat.lt_trans hx (by decide))
  have hy256 : y % 256 = y := Nat.mod_eq_of_lt (Nat.lt_trans hy (by decide))
  have hX : d.getCursorX = x := by
    rw [getCursorX, hd.target, hs, placed, Function.update_self, hx256]
  have hY : d.getCursorY = y := by
    rw [getCursorY, hd.target, hs, placed, Function.update_self, hy256]
  refine ⟨⟨by rw [hX]; exact hx, by rw [hY]; exact hy⟩, ?_⟩
  simp only [strip, cellAtCursor, hX, hY, hd.videoMem]
  unfold cellsAt
  rw [hv]

theorem setCursor_strip (c : Console) {x y : Nat} (hx : x < numCols) (hy : y < numRows) :
    Inside (c.setCursor x y) ∧ (c.setCursor x y).strip = ⟨c.strip.cells, numCols * y + x⟩ :=
  placed_strip (setCursor_drawn c x y) (setCursor_vram c x y) (setCursor_placed c x y) hx hy

theorem updateTermStruct_strip (c : Console) {x y : Nat} (hx : x < numCols) (hy : y < numRows) :
    Inside (c.updateTermStruct x y) ∧
      (c.updateTermStruct x y).strip = ⟨c.strip.cells, numCols * y + x⟩ :=
  placed_strip (updateTermStruct_drawn c x y) rfl (updateTermStruct_placed c x y) hx hy

/-- The loop that overwrites `m` cells with blanks. -/
theorem blanks_strip (hp : c.OwnPage) (hin : Inside c) {m : Nat} (hm : c.strip.pos + m < 2000) :
    let d := (List.range m).foldl (fun d _ => d.putc 32) c
    Drawn c d ∧ Inside d ∧ d.strip.pos = c.strip.pos + m ∧ ∀ i < 2000, d.strip.cells i =
      if c.strip.pos ≤ i ∧ i < c.strip.pos + m then (32, c.attrib) else c.strip.cells i := by
  induction m with
  | zero =>
    refine ⟨.refl c, hin, rfl, fun i _ => ?_⟩
    rw [if_neg (by omega)]
    rfl
  | succ m ih =>
    obtain ⟨hd, hin', hpos, hcells⟩ := ih (by omega)
    rw [List.range_succ, List.foldl_append]
    generalize (List.range m).foldl (fun d _ => d.putc 32) c = d at hd hin' hpos hcells
    have hblank : ¬ ((32 : UInt8) = 10 ∨ (32 : UInt8) = 13) := by decide
    obtain ⟨hin2, hsame⟩ := putc_strip (hd.ownPage hp) hin' hblank
    have hnext : d.strip.pos + 1 < 2000 := by omega
    have hput : d.strip.put 2000 80 (32, d.attrib) (32, d.attrib) =
        ⟨Function.update d.strip.cells d.strip.pos (32, d.attrib), d.strip.pos + 1⟩ := if_pos hnext
    rw [hput] at hsame
    refine ⟨hd.trans (putc_drawn d 32), hin2, ?_, fun i hi => ?_⟩
    · exact hsame.pos.trans (by dsimp only; omega)
    · refine (hsame.cells i hi).trans ?_
      dsimp only
      by_cases hlast : i = d.strip.pos
      · rw [hlast, Function.update_self, if_pos (by omega), hd.attrib]
      · rw [Function.update_of_ne hlast, hcells i hi]
        by_cases hold : c.strip.pos ≤ i ∧ i < c.strip.pos + m
        · rw [if_pos hold, if_pos (by omega)]
        · rw [if_neg hold, if_neg (by omega)]

theorem setTerm_cursors {s : Terminal} (hX : s.cursorX = (c.terminalStruct t).cursorX)
    (hY : s.cursorY = (c.terminalStruct t).cursorY) :
    (c.setTerm t s).getCursorX = c.getCursorX ∧ (c.setTerm t s).getCursorY = c.getCursorY :=
  setTerm_cursor hX hY c.target

theorem clearScreen_strip (hw : c.writeTermIdx = none) (hp : c.OwnPage) :
    Inside c.clearScreen ∧ c.clearScreen.strip.pos = 0 ∧
      ∀ i < 2000, c.clearScreen.strip.cells i = (32, c.clearScreen.attrib) := by
  have hd := clearScreen_drawn c
  have hshows := clearScreen_shows hw hp
  have htarget : c.clearScreen.target = c.curTerminal := by
    rw [hd.target, target, hw]
    rfl
  have hpage : c.clearScreen.pageOf c.curTerminal = c.clearScreen.videoMem := by
    rw [hd.pageOf, hd.videoMem, pageOf, if_pos rfl, videoMem_eq, hw]
  have hto : TargetShows c.clearScreen (windowOf c.curTerminal []) := by
    refine ⟨?_, ?_, ?_⟩
    · rw [← hpage]
      exact hshows.laid
    · rw [getCursorY, htarget]
      exact hshows.row
    · rw [getCursorX, htarget]
      exact hshows.col
  have hblank : (Strip.mk (fun _ => (32, c.clearScreen.attrib)) 0).Lays
      (windowOf c.curTerminal []) := by
    refine ⟨fun _ _ => ?_, rfl⟩
    rw [attrib, htarget]
    rfl
  exact ⟨hto.inside, hto.lays.pos, (hblank.same hto.lays).cells⟩

/-! ## The echo of a line -/

/-- The `n` cells before the cursor show `buf`. Every other cell is blank, or shows what was in
`first`, some rows further down. -/
structure Echo (first : Nat → TextCell) (buf : Nat → UInt8) (n : Nat) (c : Console) : Prop where
  inside : Inside c
  typed : Typed 2000 80 (32, c.attrib) first (fun j => (buf j, c.attrib)) n c.strip

namespace Echo

variable {first : Nat → TextCell} {buf buf' row : Nat → UInt8} {n m : Nat}

theorem congr (h : Echo first buf n c) (hb : ∀ j < n, buf' j = buf j) : Echo first buf' n c :=
  ⟨h.inside, h.typed.congr fun j hj => congrArg (·, c.attrib) (hb j hj)⟩

/-- Assignments that leave the text page and the cursors alone. -/
theorem frame (h : Echo first buf n c) (hv : d.vram = c.vram) (hw : d.writeTermIdx = c.writeTermIdx)
    (ht : d.curTerminal = c.curTerminal) (hX : d.getCursorX = c.getCursorX)
    (hY : d.getCursorY = c.getCursorY) : Echo first buf n d := by
  have hattr : d.attrib = c.attrib := by simp only [attrib, target, hw, ht]
  have hstrip : d.strip = c.strip := by
    simp only [strip, cellAtCursor, hX, hY, videoMem_eq, hw]
    unfold cellsAt
    rw [hv]
  refine ⟨⟨by rw [hX]; exact h.inside.col, by rw [hY]; exact h.inside.row⟩, ?_⟩
  rw [hattr, hstrip]
  exact h.typed

/-- The fields of a terminal other than the cursor are assigned. -/
theorem setTerm (h : Echo first buf n c) {s : Terminal}
    (hX : s.cursorX = (c.terminalStruct t).cursorX)
    (hY : s.cursorY = (c.terminalStruct t).cursorY) : Echo first buf n (c.setTerm t s) :=
  h.frame rfl rfl rfl (setTerm_cursors hX hY).1 (setTerm_cursors hX hY).2

/-- A character is typed. -/
theorem putc (h : Echo first buf n c) (hp : c.OwnPage) (hn : n ≤ 1000) {ch : UInt8}
    (hch : ¬ (ch = 10 ∨ ch = 13)) (hb : ∀ j < n, buf' j = buf j) (hself : buf' n = ch) :
    Echo first buf' (n + 1) (c.putc ch) := by
  obtain ⟨hin, hsame⟩ := putc_strip hp h.inside hch
  have hput : Typed 2000 80 (32, c.attrib) first (fun j => (buf' j, c.attrib)) (n + 1)
      (c.strip.put 2000 80 (32, c.attrib) (ch, c.attrib)) :=
    h.typed.put (by decide) (by omega) (fun j hj => congrArg (·, c.attrib) (hb j hj))
      (congrArg (·, c.attrib) hself)
  refine ⟨hin, ?_⟩
  rw [(putc_drawn c ch).attrib]
  exact hput.same hsame

/-- A string is drawn on an empty line. -/
theorem puts (h : Echo first buf 0 c) (hp : c.OwnPage) (hn : n ≤ 72) (hrow : IsLine row n)
    (hch : NoBreaks row) : Echo first row n (c.puts row) := by
  have hstr : ((List.range maxBufSize).map row).takeWhile (· ≠ 0) = (List.range n).map row := by
    obtain ⟨k, hk⟩ := Nat.exists_eq_add_of_lt (show n < maxBufSize by
      simp only [maxBufSize]; omega)
    rw [hk, Nat.add_assoc, List.range_add, List.map_append, List.takeWhile_append_of_pos,
      List.range_succ_eq_map]
    · simp [hrow.2 n (le_refl n)]
    · intro b hb
      obtain ⟨j, hj, rfl⟩ := List.mem_map.mp hb
      simpa using hrow.1 j (List.mem_range.mp hj)
  have hloop : ∀ k ≤ n, Drawn c (((List.range k).map row).foldl Console.putc c) ∧
      Echo first row k (((List.range k).map row).foldl Console.putc c) := by
    intro k
    induction k with
    | zero => intro _; exact ⟨.refl c, h.congr (by simp)⟩
    | succ k ih =>
      intro hk
      obtain ⟨hd, he⟩ := ih (by omega)
      rw [List.range_succ, List.map_append, List.foldl_append]
      exact ⟨hd.trans (putc_drawn _ _),
        he.putc (hd.ownPage hp) (by omega) (hch k) (fun _ _ => rfl) rfl⟩
  unfold Console.puts
  rw [hstr]
  exact (hloop n (le_refl n)).2

/-- The cursor goes back by `k` cells, blanks are drawn over them, and it goes back to where the
last `m` characters of the line began. -/
theorem back (h : Echo first buf n c) (hp : c.OwnPage) (hm : m ≤ n) {k : Nat} (hk : m ≤ k)
    (hline : m < n → k = m) (hroom : k ≤ c.strip.pos) {c1 : Console} (hd1 : Drawn c c1)
    (hin1 : Inside c1) (hstrip : c1.strip = ⟨c.strip.cells, c.strip.pos - k⟩)
    (hattr : d.attrib = c.attrib)
    (hcells : d.strip.cells = ((List.range k).foldl (fun d _ => d.putc 32) c1).strip.cells)
    {x y : Nat} (hx : x < numCols) (hy : y < numRows) (hxy : numCols * y + x = c.strip.pos - m) :
    Echo first buf (n - m) (d.setCursor x y) := by
  have hend := h.typed.inside
  obtain ⟨_, _, _, hblanks⟩ := blanks_strip (m := k) (hd1.ownPage hp) hin1 (by
    rw [hstrip]
    dsimp only
    omega)
  obtain ⟨hin, hset⟩ := setCursor_strip d hx hy
  refine ⟨hin, ?_⟩
  rw [(setCursor_drawn d x y).attrib, hattr, hset]
  refine h.typed.erase hm hk hline hxy fun i hi => ?_
  dsimp only
  rw [hcells, hblanks i hi, hstrip, hd1.attrib]
  dsimp only
  rw [Nat.sub_add_cancel hroom]

theorem space (h : Echo first buf 0 c) (hp : c.OwnPage) : Echo first buf 0 (c.putc 32) := by
  have hblank : ¬ ((32 : UInt8) = 10 ∨ (32 : UInt8) = 13) := by decide
  obtain ⟨hin, hsame⟩ := putc_strip hp h.inside hblank
  refine ⟨hin, ?_⟩
  rw [(putc_drawn c 32).attrib]
  exact (h.typed.space (by decide) (by decide)).same hsame

theorem clearScreen (hw : c.writeTermIdx = none) (hp : c.OwnPage) :
    Echo first buf 0 c.clearScreen := by
  obtain ⟨hin, hpos, hcells⟩ := clearScreen_strip hw hp
  exact ⟨hin, .clear hpos (by decide) hcells⟩

end Echo

/-! ## The keys -/

/-- The line of the displayed terminal is shown. -/
def Shown (first : Nat → TextCell) (c : Console) : Prop :=
  Echo first (c.terminalStruct c.curTerminal).keyboardBuf
    (c.terminalStruct c.curTerminal).keyboardIdx c

/-- An assignment of the grant of `vidmap`. -/
theorem Shown.mapped {first : Nat → TextCell} (h : Shown first c) (mapped : Bool) (p : Nat) :
    Shown first { c with vidmapped := mapped, vidmemPage := p } :=
  Echo.frame h rfl rfl rfl rfl rfl

section Keys

variable {first : Nat → TextCell} {typing : Term → Bool} {tpi : Option Term}

/-- No key has a new line as its character. -/
theorem codeChar_plain (c : Console) {code : Nat} (hlt : code < 0x3A) (hcode : code ∉ handled) :
    ¬ (c.codeChar code = 10 ∨ c.codeChar code = 13) := by
  have htables : ∀ n : Fin 0x3A, n.val ∉ handled → ∀ table ∈ [lowercaseCodeTable,
      capslockCodeTable, shiftCodeTable, capsshiftCodeTable],
      ¬ (table.getD n.val 0 = 10 ∨ table.getD n.val 0 = 13) := by
    decide
  have h := htables ⟨code, hlt⟩ hcode
  simp only [codeChar]
  split
  · exact h _ (by simp)
  · split
    · exact h _ (by simp)
    · split
      · exact h _ (by simp)
      · exact h _ (by simp)

/-- A new line is stored after its echo. -/
theorem Echo.stored {buf : Nat → UInt8} {n : Nat} (h : Echo first buf n c) {s : Terminal}
    (hb : s.keyboardBuf = buf) (hi : s.keyboardIdx = n)
    (hX : s.cursorX = (c.terminalStruct c.curTerminal).cursorX)
    (hY : s.cursorY = (c.terminalStruct c.curTerminal).cursorY) :
    Shown first (c.setTerm c.curTerminal s) := by
  have he := h.setTerm hX hY
  unfold Shown
  rw [setTerm_curTerminal, setTerm_self, hb, hi]
  exact he

theorem writeKeyboardChar_shown (hp : c.OwnPage) {kidx : Nat} {kbuf : Nat → UInt8}
    (h : Echo first kbuf kidx c) (hs : Shown first c) (hidx : kidx ≤ 72) {code : Nat}
    (hcode : code ∉ handled) (hsw : c.switchTarget code = none) :
    Shown first (c.writeKeyboardChar typing tpi code kidx kbuf) := by
  simp only [writeKeyboardChar]
  split
  · rename_i halt
    rw [switchTarget, dif_pos ⟨halt.2, by omega⟩] at hsw
    cases hsw
  · split
    · rename_i hwrite
      have hput : Echo first (Function.update kbuf kidx (c.codeChar code)) (kidx + 1)
          (c.putc (c.codeChar code)) :=
        h.putc hp (by omega) (codeChar_plain c hwrite.1 hcode)
          (fun j hj => Function.update_of_ne (by omega) ..) (Function.update_self ..)
      exact hput.stored rfl rfl rfl rfl
    · exact hs

/-- A cell before the cursor, in the last row or in the one before. -/
theorem cell_before {x y : Nat} (hx : x < numCols) (hy : y < numRows) (h0 : x > 0 ∨ y > 0) :
    (if x = 0 then 79 else x - 1) < numCols ∧ (if x = 0 then y - 1 else y) < numRows ∧
      numCols * (if x = 0 then y - 1 else y) + (if x = 0 then 79 else x - 1) =
        numCols * y + x - 1 := by
  simp only [numCols, numRows] at hx hy ⊢
  split <;> omega

theorem backspace_shown (hp : c.OwnPage) {kidx : Nat}
    {kbuf : Nat → UInt8} (hidx : kidx = (c.terminalStruct c.curTerminal).keyboardIdx)
    (hs : Shown first c) : Shown first
      (c.backspace c.curTerminal c.getCursorX c.getCursorY kidx kbuf) := by
  simp only [backspace]
  split
  · rename_i hguard
    obtain ⟨hx1, hy1, hcell⟩ := cell_before hs.inside.col hs.inside.row hguard.2
    generalize (if c.getCursorX = 0 then 79 else c.getCursorX - 1) = x1 at hx1 hcell ⊢
    generalize (if c.getCursorX = 0 then c.getCursorY - 1 else c.getCursorY) = y1 at hy1 hcell ⊢
    have hroom := hs.typed.room
    have hend := hs.typed.inside
    have hpos : c.strip.pos = numCols * c.getCursorY + c.getCursorX := rfl
    -- the cursor goes back, a blank is drawn, and the cursor goes back again
    obtain ⟨hin1, hstrip1⟩ := updateTermStruct_strip c hx1 hy1
    have hd1 := updateTermStruct_drawn c x1 y1
    rw [hcell] at hstrip1
    have hd := hd1.trans (putc_drawn (c.updateTermStruct x1 y1) 32)
    have hback : ∀ s : Terminal, Echo first (c.terminalStruct c.curTerminal).keyboardBuf
        ((c.terminalStruct c.curTerminal).keyboardIdx - 1)
        ((((c.updateTermStruct x1 y1).putc 32).setTerm c.curTerminal s).setCursor x1 y1) := by
      intro s
      exact hs.back hp (by omega) (le_refl 1) (fun _ => rfl) (by omega) hd1 hin1 hstrip1
        (d := ((c.updateTermStruct x1 y1).putc 32).setTerm c.curTerminal s) hd.attrib rfl hx1 hy1
        (hcell.trans (by rw [hpos]))
    have hset := fun s => setCursor_drawn
      (((c.updateTermStruct x1 y1).putc 32).setTerm c.curTerminal s) x1 y1
    have hbuf := (hd.lines c.curTerminal).keyboardBuf
    unfold Shown
    rw [(hset _).curTerminal, setTerm_curTerminal, hd.curTerminal, ((hset _).lines _).keyboardBuf,
      ((hset _).lines _).keyboardIdx, setTerm_self, hbuf, hidx]
    refine (hback _).congr fun j hj => ?_
    exact Function.update_of_ne (by omega) ..
  · exact hs

theorem u8_sub {x n : Nat} (hx : x < numCols) (hn : n ≤ x) : u8 (x - n) = x - n := by
  simp only [numCols] at hx
  simp only [u8]
  omega

/-- An arrow that blanks out the whole line, and nothing in another row of the screen. -/
theorem redraw_shown (hp : c.OwnPage) {s : Terminal} (hself : c.terminalStruct c.curTerminal = s)
    (hs : Echo first s.keyboardBuf s.keyboardIdx c) {erase pos : Nat} (hle : s.keyboardIdx ≤ erase)
    (hx : erase ≤ c.getCursorX) (hrow : IsLine (s.commandBuf pos) (s.commandIdx pos))
    (hlen : s.commandIdx pos ≤ 72)
    (hch : NoBreaks (s.commandBuf pos)) :
    Shown first (c.redraw c.curTerminal c.getCursorX c.getCursorY erase pos) := by
  have hcol := hs.inside.col
  have hrow1 := hs.inside.row
  have hpos : c.strip.pos = numCols * c.getCursorY + c.getCursorX := rfl
  simp only [redraw, hself]
  rw [u8_sub hcol hx, u8_sub hcol (hle.trans hx)]
  -- the blanks
  obtain ⟨hin1, hstrip1⟩ := setCursor_strip c (x := c.getCursorX - erase) (y := c.getCursorY)
    (by omega) hrow1
  have hd1 := setCursor_drawn c (c.getCursorX - erase) c.getCursorY
  have hd2 := hd1.trans (foldl_drawn (fun d (_ : Nat) => putc_drawn d 32) (List.range erase) _)
  have hcleared := hs.back hp (le_refl _) hle (fun h => absurd h (lt_irrefl _)) (by omega) hd1 hin1
    (hstrip1.trans (by rw [hpos, Nat.add_sub_assoc hx])) hd2.attrib rfl
    (x := c.getCursorX - s.keyboardIdx) (y := c.getCursorY) (by omega) hrow1
    (by rw [hpos, Nat.add_sub_assoc (hle.trans hx)])
  have hd3 := hd2.trans (setCursor_drawn _ (c.getCursorX - s.keyboardIdx) c.getCursorY)
  generalize ((List.range erase).foldl (fun d _ => d.putc 32)
    (c.setCursor (c.getCursorX - erase) c.getCursorY)).setCursor (c.getCursorX - s.keyboardIdx)
    c.getCursorY = c3 at hcleared hd3 ⊢
  -- the row of the history
  rw [Nat.sub_self] at hcleared
  have hdrawn := hcleared.puts (hd3.ownPage hp) hlen hrow hch
  have hd4 := hd3.trans (puts_drawn c3 (s.commandBuf pos))
  generalize c3.puts (s.commandBuf pos) = c4 at hdrawn hd4 ⊢
  rw [← hd4.curTerminal]
  have hlines := hd4.lines c.curTerminal
  rw [hself, ← hd4.curTerminal] at hlines
  exact hdrawn.stored (congrFun hlines.commandBuf pos) (congrFun hlines.commandIdx pos) rfl rfl

/-- The row of the history that an arrow shows. -/
def nextRow (s : Terminal) (code : Nat) : Nat :=
  if code = 0x48 then s.commandPos + 1 else s.commandPos - 1

/-- The arrow blanks out the whole line, and nothing in another row of the screen; and the row of
the history is a string. -/
structure RedrawFits (s : Terminal) (code : Nat) : Prop where
  whole : s.keyboardIdx ≤ shownLength s
  column : shownLength s ≤ s.cursorX
  row : IsLine (s.commandBuf (nextRow s code)) (s.commandIdx (nextRow s code))

theorem RedrawFits.clearFlag {s : Terminal} {code : Nat} (h : RedrawFits s code) :
    RedrawFits s.clearFlag code :=
  ⟨h.whole, h.column, h.row⟩

/-- A routine that only draws. -/
theorem Shown.drawn (hd : Drawn c d) {buf : Nat → UInt8} {n : Nat} (he : Echo first buf n d)
    (hb : (c.terminalStruct c.curTerminal).keyboardBuf = buf)
    (hi : (c.terminalStruct c.curTerminal).keyboardIdx = n) : Shown first d := by
  unfold Shown
  rw [hd.curTerminal, (hd.lines _).keyboardBuf, (hd.lines _).keyboardIdx, hb, hi]
  exact he

/-- `s'` is `s`, with an arrow on its way to a row that stays as it is. -/
structure OnWay (s : Terminal) (code : Nat) (s' : Terminal) : Prop where
  cursorX : s'.cursorX = s.cursorX
  cursorY : s'.cursorY = s.cursorY
  keyboardBuf : s'.keyboardBuf = s.keyboardBuf
  keyboardIdx : s'.keyboardIdx = s.keyboardIdx
  row : s'.commandBuf (nextRow s code) = s.commandBuf (nextRow s code)
  length : s'.commandIdx (nextRow s code) = s.commandIdx (nextRow s code)

theorem toOlder_onWay (s : Terminal) :
    OnWay s 0x48 s.toOlder ∧ s.toOlder.commandPos = nextRow s 0x48 := by
  have hne : nextRow s 0x48 ≠ 0 := Nat.succ_ne_zero _
  simp only [Terminal.toOlder]
  split
  · exact ⟨⟨rfl, rfl, rfl, rfl, Function.update_of_ne hne s.keyboardBuf s.commandBuf,
      Function.update_of_ne hne s.keyboardIdx s.commandIdx⟩, rfl⟩
  · exact ⟨⟨rfl, rfl, rfl, rfl, rfl, rfl⟩, rfl⟩

theorem arrow_shown (hp : c.OwnPage) (hw : c.writeTermIdx = none) {s s' : Terminal}
    (hself : c.terminalStruct c.curTerminal = s) (hs : Shown first c) (hb : InBounds s)
    (hone : OneLine s) {code : Nat} (hfit : RedrawFits s code) (hway : OnWay s code s') :
    Shown first ((c.setTerm c.curTerminal s').redraw c.curTerminal c.getCursorX c.getCursorY
      (shownLength s) (nextRow s code)) := by
  have hX := hway.cursorX
  have hY := hway.cursorY
  rw [← hself] at hX hY
  obtain ⟨hx, hy⟩ := setTerm_cursors (c := c) hX hY
  have hcol : c.getCursorX = s.cursorX := by rw [getCursorX, target_eq hw, hself]
  have hs' : Echo first s'.keyboardBuf s'.keyboardIdx (c.setTerm c.curTerminal s') := by
    have he := hs.setTerm hX hY
    rw [hself] at he
    rw [hway.keyboardBuf, hway.keyboardIdx]
    exact he
  rw [← hx, ← hy]
  refine redraw_shown (c := c.setTerm c.curTerminal s') hp (setTerm_self ..) hs' ?_ ?_ ?_ ?_ ?_
  · rw [hway.keyboardIdx]
    exact hfit.whole
  · rw [hx, hcol]
    exact hfit.column
  · rw [hway.row, hway.length]
    exact hfit.row
  · rw [hway.length]
    exact (hb.rows _).1
  · rw [hway.row]
    exact hone.rows _

theorem upArrow_shown (hp : c.OwnPage) (hw : c.writeTermIdx = none) {s : Terminal}
    (hself : c.terminalStruct c.curTerminal = s) (hs : Shown first c) (hb : InBounds s)
    (hone : OneLine s) (hfit : Redraws (typing c.curTerminal) s 0x48 → RedrawFits s 0x48) :
    Shown first (c.upArrow typing c.curTerminal c.getCursorX c.getCursorY) := by
  have he := hs
  unfold Shown at he
  rw [hself] at he
  simp only [upArrow, hself]
  split
  · exact hs
  · rename_i hty
    split
    · exact he.stored rfl rfl (by rw [hself]) (by rw [hself])
    · rename_i hpos
      split
      · exact hs
      · rename_i hne
        have hfits := hfit ⟨by simpa using hty, Or.inl ⟨rfl, by omega, hne⟩⟩
        obtain ⟨hway, hnext⟩ := toOlder_onWay s
        have hshown := arrow_shown hp hw hself hs hb hone hfits hway
        rw [← (toOlder_lengths s).2, ← hnext] at hshown
        exact hshown

theorem downArrow_shown (hp : c.OwnPage) (hw : c.writeTermIdx = none) {s : Terminal}
    (hself : c.terminalStruct c.curTerminal = s) (hs : Shown first c) (hb : InBounds s)
    (hone : OneLine s) (hfit : Redraws (typing c.curTerminal) s 0x50 → RedrawFits s 0x50) :
    Shown first (c.downArrow typing c.curTerminal c.getCursorX c.getCursorY) := by
  simp only [downArrow, hself]
  split
  · exact hs
  · rename_i hty
    split
    · exact hs
    · rename_i hpos
      have hfits := hfit ⟨by simpa using hty, Or.inr ⟨rfl, Nat.pos_of_ne_zero hpos⟩⟩
      have hway : OnWay s 0x50 { s with commandPos := s.commandPos - 1 } :=
        ⟨rfl, rfl, rfl, rfl, rfl, rfl⟩
      have hshown := arrow_shown hp hw hself hs hb hone hfits hway
      rw [shownLength, if_neg hpos] at hshown
      exact hshown

/-- What an empty line does not notice: four blanks, or a cleared screen. -/
def DrawsAround (lctrl : Bool) (code : Nat) : Prop := code = 0x0F ∨ (code = 0x26 ∧ lctrl = true)

theorem tab_shown (hp : c.OwnPage) (hs : Shown first c)
    (hempty : (c.terminalStruct c.curTerminal).keyboardIdx = 0) :
    Shown first ((((c.putc 32).putc 32).putc 32).putc 32) := by
  have h0 : Echo first (c.terminalStruct c.curTerminal).keyboardBuf 0 c := by
    have he := hs
    unfold Shown at he
    rwa [hempty] at he
  have hd1 := putc_drawn c 32
  have hd2 := hd1.trans (putc_drawn _ 32)
  have hd3 := hd2.trans (putc_drawn _ 32)
  have hd4 := hd3.trans (putc_drawn _ 32)
  have he4 := (((h0.space hp).space (hd1.ownPage hp)).space (hd2.ownPage hp)).space (hd3.ownPage hp)
  exact .drawn hd4 he4 rfl hempty

theorem handleCode_shown (hp : c.OwnPage) (hw : c.writeTermIdx = none) {s : Terminal}
    (hself : c.terminalStruct c.curTerminal = s.clearFlag)
    (hflag : s.enterFlag = true → s.keyboardIdx = 0) (hs : Shown first c) (hb : InBounds s)
    (hone : OneLine s) {code : Nat} (henter : code ≠ 0x1C) (hsw : c.switchTarget code = none)
    (haround : DrawsAround c.lctrlPress code → s.keyboardIdx = 0)
    (hfit : Redraws (typing c.curTerminal) s code → RedrawFits s code) :
    Shown first (c.handleCode typing tpi code c.curTerminal c.getCursorX c.getCursorY s.localIdx
      s.localBuf) := by
  have hidx : s.localIdx = s.keyboardIdx := by
    simp only [Terminal.localIdx]
    split
    · rename_i hf
      exact (hflag hf).symm
    · rfl
  have he : Echo first s.keyboardBuf s.keyboardIdx c := by
    have h := hs
    unfold Shown at h
    rwa [hself] at h
  have hlocal : Echo first s.localBuf s.localIdx c := by
    rw [hidx]
    refine he.congr fun j hj => ?_
    have hf : s.enterFlag ≠ true := fun hf => by
      have := hflag hf
      omega
    exact congrFun (if_neg hf) j
  have hb' : InBounds s.clearFlag := ⟨hb.line, hb.commandPos, hb.rows⟩
  have hone' : OneLine s.clearFlag := ⟨hone.line, hone.rows⟩
  have hempty : DrawsAround c.lctrlPress code →
      (c.terminalStruct c.curTerminal).keyboardIdx = 0 := by
    intro ha
    rw [hself]
    exact haround ha
  have h72 : s.localIdx ≤ 72 := by
    rw [hidx]
    exact hb.line.1
  have h := handleCode_case typing tpi c c.curTerminal c.getCursorX c.getCursorY s.localIdx
    s.localBuf code
  generalize c.handleCode typing tpi code c.curTerminal c.getCursorX c.getCursorY s.localIdx
    s.localBuf = d at h ⊢
  cases h with
  | backspace => exact backspace_shown hp (by rw [hself, hidx]; rfl) hs
  | tab => exact tab_shown hp hs (hempty (Or.inl rfl))
  | enter => exact absurd rfl henter
  | up => exact upArrow_shown hp hw hself hs hb' hone' fun hr => (hfit hr).clearFlag
  | down => exact downArrow_shown hp hw hself hs hb' hone' fun hr => (hfit hr).clearFlag
  | clear hl =>
    have h0 := hempty (Or.inr ⟨rfl, hl⟩)
    exact .drawn (clearScreen_drawn c) (.clearScreen hw hp) rfl h0
  | flags => exact hs.frame rfl rfl rfl rfl rfl
  | char hcode => exact writeKeyboardChar_shown hp hlocal hs h72 hcode hsw

/-- The scan codes that keep the line and its echo in step. -/
structure Echoes (typing : Bool) (c : Console) (code : Nat) : Prop where
  enter : code ≠ 0x1C
  stays : c.switchTarget code = none
  around : DrawsAround c.lctrlPress code → (c.terminalStruct c.curTerminal).keyboardIdx = 0
  redraw : Redraws typing (c.terminalStruct c.curTerminal) code →
    RedrawFits (c.terminalStruct c.curTerminal) code

theorem keyStart_cursors (c : Console) :
    c.keyStart.getCursorX = c.getCursorX ∧ c.keyStart.getCursorY = c.getCursorY :=
  setTerm_cursors (c := c) (t := c.curTerminal)
    (s := (c.terminalStruct c.curTerminal).clearFlag) rfl rfl

theorem Shown.keyStart (h : Shown first c) : Shown first c.keyStart := by
  obtain ⟨hx, hy⟩ := c.keyStart_cursors
  have he : Echo first _ _ c.keyStart := Echo.frame h rfl rfl rfl hx hy
  have hcur : c.keyStart.curTerminal = c.curTerminal := rfl
  unfold Shown
  rw [hcur, keyStart_self]
  exact he

theorem keyboardHandler_shown (hw : c.writeTermIdx = none)
    (hb : InBounds (c.terminalStruct c.curTerminal))
    (hone : OneLine (c.terminalStruct c.curTerminal))
    (hflag : (c.terminalStruct c.curTerminal).enterFlag = true →
      (c.terminalStruct c.curTerminal).keyboardIdx = 0)
    (hs : Shown first c) {status : UInt8} (hst : status ≠ 0) {code : UInt8}
    (hecho : Echoes (typing c.curTerminal) c code.toNat) :
    Shown first (c.keyboardHandler typing tpi status code) := by
  obtain ⟨hx, hy⟩ := c.keyStart_cursors
  have hstart := hs.keyStart
  have hcode : Shown first (c.keyStart.handleCode typing tpi code.toNat c.curTerminal
      c.keyStart.getCursorX c.keyStart.getCursorY (c.terminalStruct c.curTerminal).localIdx
      (c.terminalStruct c.curTerminal).localBuf) :=
    handleCode_shown (c := c.keyStart) c.keyStart_ownPage hw (keyStart_self c) hflag hstart hb hone
      hecho.enter hecho.stays hecho.around hecho.redraw
  rw [keyboardHandler_eq typing tpi c hst]
  rw [hx, hy] at hcode
  have h : Echo first _ _ { c.keyStart.handleCode typing tpi code.toNat c.curTerminal c.getCursorX
      c.getCursorY (c.terminalStruct c.curTerminal).localIdx
      (c.terminalStruct c.curTerminal).localBuf with vidmemPage := c.vidmemPage } :=
    hcode.frame rfl rfl rfl rfl rfl
  exact h

/-- What a tab draws: four blanks after the line, which stays as it is. -/
structure TabDrawn (first : Nat → TextCell) (c c' : Console) : Prop where
  keyboardBuf : (c'.terminalStruct c.curTerminal).keyboardBuf =
    (c.terminalStruct c.curTerminal).keyboardBuf
  keyboardIdx : (c'.terminalStruct c.curTerminal).keyboardIdx =
    (c.terminalStruct c.curTerminal).keyboardIdx
  blanks : Echo first
    (fun j => if j < (c.terminalStruct c.curTerminal).keyboardIdx then
      (c.terminalStruct c.curTerminal).keyboardBuf j else 32)
    ((c.terminalStruct c.curTerminal).keyboardIdx + 4) c'

theorem Echo.tab {buf : Nat → UInt8} {n : Nat} (h : Echo first buf n c) (hp : c.OwnPage)
    (hn : n ≤ 72) : Echo first (fun j => if j < n then buf j else 32) (n + 4)
      ((((c.putc 32).putc 32).putc 32).putc 32) := by
  have hblank : ¬ ((32 : UInt8) = 10 ∨ (32 : UInt8) = 13) := by decide
  have hd1 := putc_drawn c 32
  have hd2 := hd1.trans (putc_drawn _ 32)
  have hd3 := hd2.trans (putc_drawn _ 32)
  have h0 : Echo first (fun j => if j < n then buf j else 32) n c := h.congr fun j hj => if_pos hj
  have h1 := h0.putc hp (by omega) hblank (fun _ _ => rfl) (if_neg (by omega))
  have h2 := h1.putc (hd1.ownPage hp) (by omega) hblank (fun _ _ => rfl) (if_neg (by omega))
  have h3 := h2.putc (hd2.ownPage hp) (by omega) hblank (fun _ _ => rfl) (if_neg (by omega))
  exact h3.putc (hd3.ownPage hp) (by omega) hblank (fun _ _ => rfl) (if_neg (by omega))

theorem keyboardHandler_tab (hs : Shown first c)
    (hn : (c.terminalStruct c.curTerminal).keyboardIdx ≤ 72) {status : UInt8} (hst : status ≠ 0) :
    TabDrawn first c (c.keyboardHandler typing tpi status 0x0F) := by
  have hcode : c.keyStart.handleCode typing tpi (0x0F : UInt8).toNat c.curTerminal c.getCursorX
      c.getCursorY (c.terminalStruct c.curTerminal).localIdx
      (c.terminalStruct c.curTerminal).localBuf =
        (((c.keyStart.putc 32).putc 32).putc 32).putc 32 := rfl
  have hstart : Echo first (c.terminalStruct c.curTerminal).keyboardBuf
      (c.terminalStruct c.curTerminal).keyboardIdx c.keyStart := by
    obtain ⟨hx, hy⟩ := c.keyStart_cursors
    exact Echo.frame hs rfl rfl rfl hx hy
  have hd := ((putc_drawn c.keyStart 32).trans (putc_drawn _ 32)).trans (putc_drawn _ 32)
  have hline := (hd.trans (putc_drawn _ 32)).lines c.curTerminal
  rw [keyStart_self] at hline
  have hdrawn := hstart.tab c.keyStart_ownPage hn
  rw [keyboardHandler_eq typing tpi c hst, hcode]
  generalize (((c.keyStart.putc 32).putc 32).putc 32).putc 32 = d at hline hdrawn ⊢
  exact ⟨hline.keyboardBuf, hline.keyboardIdx, hdrawn.frame rfl rfl rfl rfl rfl⟩

/-- What Ctrl-L draws: an empty screen; the line stays as it is. -/
structure Cleared (c c' : Console) : Prop where
  keyboardBuf : (c'.terminalStruct c.curTerminal).keyboardBuf =
    (c.terminalStruct c.curTerminal).keyboardBuf
  keyboardIdx : (c'.terminalStruct c.curTerminal).keyboardIdx =
    (c.terminalStruct c.curTerminal).keyboardIdx
  cursor : c'.strip.pos = 0
  cells : ∀ i < 2000, c'.strip.cells i = (32, c'.attrib)

theorem keyboardHandler_cleared (hw : c.writeTermIdx = none) (hl : c.lctrlPress = true)
    {status : UInt8} (hst : status ≠ 0) :
    Cleared c (c.keyboardHandler typing tpi status 0x26) := by
  obtain ⟨_, hpos, hcells⟩ := clearScreen_strip (c := c.keyStart) hw c.keyStart_ownPage
  have hline := (clearScreen_drawn c.keyStart).lines c.curTerminal
  rw [keyStart_self] at hline
  rw [keyboardHandler_ctrlL hl typing tpi hst]
  generalize c.keyStart.clearScreen = d at hline hpos hcells ⊢
  exact ⟨hline.keyboardBuf, hline.keyboardIdx, hpos, hcells⟩

/-- The invariant: `t` is displayed and its line is shown, and a flag that is still set is of an
empty line. -/
structure EchoKept (t : Term) (first : Nat → TextCell) (c : Console) : Prop where
  displayed : c.curTerminal = t
  shown : Shown first c
  flag : (c.terminalStruct c.curTerminal).enterFlag = true →
    (c.terminalStruct c.curTerminal).keyboardIdx = 0

theorem EchoKept.start (hin : Inside c)
    (hempty : (c.terminalStruct c.curTerminal).keyboardIdx = 0) :
    EchoKept c.curTerminal c.strip.cells c := by
  refine ⟨rfl, ?_, fun _ => hempty⟩
  unfold Shown
  rw [hempty]
  refine ⟨hin, .start c.strip ?_⟩
  have hcol := hin.col
  have hrow := hin.row
  simp only [strip, cellAtCursor, numCols, numRows] at *
  omega

theorem EchoKept.key (h : EchoKept t first c) (hw : c.writeTermIdx = none)
    (hb : InBounds (c.terminalStruct c.curTerminal))
    (hone : OneLine (c.terminalStruct c.curTerminal)) {status : UInt8} (hst : status ≠ 0)
    {code : UInt8} (hecho : Echoes (typing c.curTerminal) c code.toNat) :
    EchoKept t first (c.keyboardHandler typing tpi status code) := by
  have hcur : (c.keyboardHandler typing tpi status code).curTerminal = c.curTerminal := by
    rw [(keyboardHandler_page typing tpi c hst code).2, hecho.stays]
    rfl
  refine ⟨hcur.trans h.displayed, keyboardHandler_shown hw hb hone h.flag h.shown hst hecho, ?_⟩
  -- the scan code clears the flag
  obtain ⟨s, hedit, hsame⟩ := keyboardHandler_line typing tpi c hst code
  rw [hcur, hsame.enterFlag]
  intro hf
  cases hedit with
  | entered _ hcode => exact absurd hcode hecho.enter
  | older =>
    simp only [Terminal.older] at hf
    split at hf <;> cases hf
  | _ => cases hf

/-- A field of another terminal is assigned. -/
theorem EchoKept.setTerm (h : EchoKept t first c) {u : Term} (hu : u ≠ c.curTerminal) {s : Terminal}
    (hX : s.cursorX = (c.terminalStruct u).cursorX)
    (hY : s.cursorY = (c.terminalStruct u).cursorY) : EchoKept t first (c.setTerm u s) := by
  have hother := setTerm_of_ne c s hu.symm
  refine ⟨h.displayed, ?_, ?_⟩
  · have he := Echo.setTerm h.shown hX hY
    unfold Shown
    rw [setTerm_curTerminal, hother]
    exact he
  · rw [setTerm_curTerminal, hother]
    exact h.flag

end Keys
end Console

/-! ## The machine -/

namespace Machine

variable {img : Image} {m0 m m' : Machine} {e : Event}

theorem step_oneLine (h : step img m e = some m')
    (hm : ∀ t, OneLine (m.kern.con.terminalStruct t)) (t : Term) :
    OneLine (m'.kern.con.terminalStruct t) := by
  refine step_stable OneLine.stable h hm ?_ t
  intro _ _ _ _ _ hedit
  exact (hm _).lineEdit hedit (Console.codeChar_plain m.kern.con)

theorem reach_oneLine (h : Reach (step img) Boot (fun _ _ => True) m) :
    ∀ t, OneLine (m.kern.con.terminalStruct t) := by
  refine reach_terminals ?_ ?_ h
  · exact ⟨.nil, fun _ => .nil⟩
  · intro m e m' hm _ hs
    exact step_oneLine hs hm

/-- Nothing is written, the mouse does not move, no line is taken, and of the scan codes only those
come that keep the line and its echo in step. -/
def KeepsEcho (m : Machine) : Event → Prop
  | .key status code => status ≠ 0 →
      Console.Echoes (m.kern.proc.typingMask m.kern.con.curTerminal) m.kern.con code.toNat
  | .write _ _ _ => False
  | .mouse _ => False
  | .go => ¬ Completes m .go m.kern.con.curTerminal
  | _ => True

theorem step_echoKept {first : Nat → Console.TextCell} {t : Term} (h : step img m e = some m')
    (hw : m.kern.con.writeTermIdx = none)
    (hb : ∀ t, InBounds (m.kern.con.terminalStruct t))
    (hone : ∀ t, OneLine (m.kern.con.terminalStruct t)) (hkeeps : KeepsEcho m e)
    (hm : Console.EchoKept t first m.kern.con) : Console.EchoKept t first m'.kern.con := by
  cases step_console h with
  | same _ heq => rwa [heq]
  | still _ heq => rwa [heq]
  | start _ _ heq => rwa [heq]
  | resume _ _ heq =>
    rw [heq]
    exact ⟨hm.displayed, hm.shown.mapped _ _, hm.flag⟩
  | @typed status code heq =>
    rw [heq]
    by_cases hst : status = 0
    · subst hst
      exact hm
    · exact hm.key hw (hb _) (hone _) hst (hkeeps hst)
  | moved => exact hkeeps.elim
  | wrote => exact hkeeps.elim
  | mapped _ _ heq =>
    rw [heq]
    exact ⟨hm.displayed, hm.shown.mapped _ _, hm.flag⟩
  | @read p r buf ret shell hr hdone heq =>
    have hu : r.term ≠ m.kern.con.curTerminal := by
      intro ht
      exact hkeeps ⟨rfl, p, r, buf, ret, hr, ht, by rw [← ht]; exact hdone⟩
    rw [heq]
    obtain ⟨hX, hY⟩ := (m.kern.con.terminalStruct r.term).finishRead_cursor shell
    exact hm.setTerm hu hX hY

/-- From an empty line, with the cursor on the screen: as long as nothing but keys that keep the
line and its echo in step comes, the line is shown, and the other cells are blank or as they were.
A tab then draws four blanks after it, and Ctrl-L clears the screen; both keep the line. -/
theorem line_is_shown (img : Image) (m0 m : Machine)
    (h0 : Reach (step img) Boot (fun _ _ => True) m0) (hin : Console.Inside m0.kern.con)
    (hempty : (m0.kern.con.terminalStruct m0.kern.con.curTerminal).keyboardIdx = 0)
    (h : Reach (step img) (fun x => x = m0) KeepsEcho m) :
    (m.kern.con.curTerminal = m0.kern.con.curTerminal ∧
      Console.Shown m0.kern.con.strip.cells m.kern.con) ∧
    ∀ (status : UInt8) (m' : Machine), status ≠ 0 →
      (step img m (.key status 0x0F) = some m' →
        Console.TabDrawn m0.kern.con.strip.cells m.kern.con m'.kern.con) ∧
      (step img m (.key status 0x26) = some m' → m.kern.con.lctrlPress = true →
        Console.Cleared m.kern.con m'.kern.con) := by
  have hinv : Reach (step img) Boot (fun _ _ => True) m ∧
      Console.EchoKept m0.kern.con.curTerminal m0.kern.con.strip.cells m.kern.con := by
    refine h.inv (I := fun m => Reach (step img) Boot (fun _ _ => True) m ∧
      Console.EchoKept m0.kern.con.curTerminal m0.kern.con.strip.cells m.kern.con) ?_ ?_
    · rintro m rfl
      exact ⟨h0, .start hin hempty⟩
    · rintro m e m' ⟨hreach, hm⟩ hkeeps hs
      exact ⟨.step hreach trivial hs, step_echoKept hs (reach_tidy hreach).writeTermIdx
        (reach_inBounds hreach) (reach_oneLine hreach) hkeeps hm⟩
  obtain ⟨hreach, hkept⟩ := hinv
  refine ⟨⟨hkept.displayed, hkept.shown⟩, fun status m' hst => ⟨fun hs => ?_, fun hs hl => ?_⟩⟩
  · cases step_cases hs with
    | key heq =>
      subst heq
      exact Console.keyboardHandler_tab hkept.shown (reach_inBounds hreach _).line.1 hst
  · cases step_cases hs with
    | key heq =>
      subst heq
      exact Console.keyboardHandler_cleared (reach_tidy hreach).writeTermIdx hl hst

/-- A test for keys that are not arrows. -/
def plainKey (m : Machine) : Event → Bool
  | .key _ code =>
    decide (code.toNat ∉ [0x1C, 0x48, 0x50] ∧ m.kern.con.switchTarget code.toNat = none ∧
      (code.toNat = 0x0F ∨ (code.toNat = 0x26 ∧ m.kern.con.lctrlPress = true) →
        (m.kern.con.terminalStruct m.kern.con.curTerminal).keyboardIdx = 0))
  | _ => false

theorem plainKey_keeps (h : plainKey m e = true) : KeepsEcho m e := by
  cases e with
  | key status code =>
    obtain ⟨hcode, hsw, haround⟩ := of_decide_eq_true h
    simp only [List.mem_cons, List.not_mem_nil, or_false, not_or] at hcode
    refine fun _ => ⟨hcode.1, hsw, haround, ?_⟩
    rintro ⟨_, ⟨hup, _⟩ | ⟨hdown, _⟩⟩
    · exact absurd hup hcode.2.1
    · exact absurd hdown hcode.2.2
  | _ => cases h

/-- A tab on the empty line, `a`, `b`, and backspace. -/
theorem line_is_shown_edited : ∃ m : Machine,
    (m.kern.con.terminalStruct 0).keyboardIdx = 1 ∧ m.kern.con.curTerminal = 0 ∧
      Console.Shown booted.kern.con.strip.cells m.kern.con := by
  have hrun : (run (fun m e => if plainKey m e then step disk m e else none) booted
      [.key 1 0x0F, .key 1 0x1E, .key 1 0x30, .key 1 0x0E]).map
        (fun m => (m.kern.con.terminalStruct 0).keyboardIdx) = some 1 := by
    decide +kernel
  obtain ⟨m, hm, hidx⟩ := Option.map_eq_some_iff.mp hrun
  have hreach : Reach (step disk) (fun x => x = booted) KeepsEcho m :=
    Reach.of_checked (fun _ _ => plainKey_keeps) (.init rfl) hm
  obtain ⟨⟨hcur, hshown⟩, _⟩ := line_is_shown disk booted m (.init boot_booted)
    ⟨by decide, by decide⟩ (by decide) hreach
  exact ⟨m, hidx, hcur.trans rfl, hshown⟩

/-- A key with a character, escape, or one of `codes`, while typing is enabled. -/
def PressesKey (codes : List Nat) (m : Machine) : Event → Prop
  | .key status code => status ≠ 0 ∧ m.kern.proc.typingMask m.kern.con.curTerminal = true ∧
      ((code.toNat < 0x3A ∧ code.toNat ∉ Console.handled) ∨ code.toNat ∈ codes)
  | _ => False

/-- A test for events: such a key. -/
def pressesKey (codes : List Nat) (m : Machine) : Event → Bool
  | .key status code => decide (status ≠ 0 ∧ m.kern.proc.typingMask m.kern.con.curTerminal = true ∧
      ((code.toNat < 0x3A ∧ code.toNat ∉ Console.handled) ∨ code.toNat ∈ codes))
  | _ => false

theorem pressesKey_presses {codes : List Nat} (h : pressesKey codes m e = true) :
    PressesKey codes m e := by
  cases e with
  | key status code =>
    have hkey := of_decide_eq_true h
    exact hkey
  | _ => cases h

/-- The line is shown after every sequence of such keys. -/
def AlwaysShown (codes : List Nat) : Prop :=
  ∀ (img : Image) (m0 m : Machine), Reach (step img) Boot (fun _ _ => True) m0 →
    Console.Inside m0.kern.con →
    (m0.kern.con.terminalStruct m0.kern.con.curTerminal).keyboardIdx = 0 →
    Reach (step img) (fun x => x = m0) (PressesKey codes) m →
    Console.Shown m0.kern.con.strip.cells m.kern.con

theorem AlwaysShown.after {codes : List Nat} (h : AlwaysShown codes)
    (h0 : Reach (step disk) Boot (fun _ _ => True) m0) (hin : Console.Inside m0.kern.con)
    (hempty : (m0.kern.con.terminalStruct m0.kern.con.curTerminal).keyboardIdx = 0)
    {keys : List Event}
    (hm : run (fun m e => if pressesKey codes m e then step disk m e else none) m0 keys = some m) :
    Console.Shown m0.kern.con.strip.cells m.kern.con :=
  h disk m0 m h0 hin hempty (.of_checked (fun _ _ => pressesKey_presses) (.init rfl) hm)

/-- `a` and a tab: the cell before the cursor is blank. `a` and Ctrl-L: there is no cell before the
cursor. The row `a` of the history, `b`, and the arrow down: it blanks out one cell of two. -/
theorem echo_breaks : ¬ AlwaysShown [0x0E, 0x0F] ∧ ¬ AlwaysShown [0x0E, 0x1D, 0x9D] ∧
    ¬ AlwaysShown [0x0E, 0x48, 0x50] := by
  have hin : Console.Inside booted.kern.con := ⟨by decide, by decide⟩
  refine ⟨fun h => ?_, fun h => ?_, fun h => ?_⟩
  · have hrun : (run (fun m e => if pressesKey [0x0E, 0x0F] m e then step disk m e else none) booted
        [.key 1 0x1E, .key 1 0x0F]).map (fun m =>
          ((m.kern.con.terminalStruct m.kern.con.curTerminal).keyboardIdx,
            (m.kern.con.terminalStruct m.kern.con.curTerminal).keyboardBuf 0,
            (m.kern.con.strip.cells (m.kern.con.strip.pos - 1)).1)) = some (1, 97, 32) := by
      decide +kernel
    obtain ⟨m, hm, hp⟩ := Option.map_eq_some_iff.mp hrun
    obtain ⟨hidx, hp⟩ := Prod.mk.inj hp
    obtain ⟨hbuf, hcell⟩ := Prod.mk.inj hp
    have hshown := h.after (.init boot_booted) hin (by decide) hm
    have htext := congrArg Prod.fst (hshown.typed.text 0 (by omega))
    rw [hidx, Nat.add_zero, hcell, hbuf] at htext
    exact absurd htext (show (32 : UInt8) ≠ 97 by decide)
  · have hrun : (run (fun m e => if pressesKey [0x0E, 0x1D, 0x9D] m e then step disk m e else none)
        booted [.key 1 0x1E, .key 1 0x1D, .key 1 0x26]).map (fun m =>
          ((m.kern.con.terminalStruct m.kern.con.curTerminal).keyboardIdx,
            m.kern.con.strip.pos)) = some (1, 0) := by
      decide +kernel
    obtain ⟨m, hm, hp⟩ := Option.map_eq_some_iff.mp hrun
    obtain ⟨hidx, hpos⟩ := Prod.mk.inj hp
    have hroom := (h.after (.init boot_booted) hin (by decide) hm).typed.room
    omega
  · have hrun : (run (step disk) booted showsHistory.dropLast).bind (fun m0 =>
        (run (fun m e => if pressesKey [0x0E, 0x48, 0x50] m e then step disk m e else none) m0
          [.key 1 0x48, .key 1 0x30, .key 1 0x50]).map fun m =>
            (m0.kern.con.getCursorX, m0.kern.con.getCursorY,
              (m0.kern.con.terminalStruct m0.kern.con.curTerminal).keyboardIdx,
              m.kern.con.strip.pos, (m.kern.con.strip.cells 80).1,
              (List.range 25).all fun k => m0.kern.con.strip.cells (80 + k * 80) == (0, 0))) =
                some (0, 1, 0, 80, 97, true) := by
      decide +kernel
    obtain ⟨m0, h0, hrun⟩ := Option.bind_eq_some_iff.mp hrun
    obtain ⟨m, hm, hp⟩ := Option.map_eq_some_iff.mp hrun
    simp only [Prod.mk.injEq] at hp
    obtain ⟨hx, hy, hempty, hpos, hcell, hfirst⟩ := hp
    have hreach : Reach (step disk) Boot (fun _ _ => True) m0 := .of_any (.init boot_booted) h0
    have hin0 : Console.Inside m0.kern.con :=
      ⟨by rw [hx]; decide, by rw [hy]; decide⟩
    obtain ⟨k, hrest⟩ := (h.after hreach hin0 hempty hm).typed.rest
    rcases hrest 80 (by decide) (Or.inr (by omega)) with hblank | ⟨hk, hold⟩
    · rw [hblank] at hcell
      exact absurd hcell (show (32 : UInt8) ≠ 97 by decide)
    · have hz := List.all_eq_true.mp hfirst k (List.mem_range.mpr (by omega))
      rw [hold, eq_of_beq hz] at hcell
      exact absurd hcell (by decide)

end Machine
end DeviceOS
