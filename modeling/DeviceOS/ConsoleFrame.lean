import DeviceOS.Keyboard
import DeviceOS.Mouse
import DeviceOS.ProcessTables

/-!
# DeviceOS.ConsoleFrame

What the operations on the console leave alone.

* `Drawn c c'`: only the text pages and the cursors changed. All output routines do this.
* `SameLine s s'`: the line and the history of a terminal are as before.
* `CodeCase`: the branches of the `switch` of `keyboard_handler`.
* `KeyResult`: a scan code edits the line of the displayed terminal, or switches the display.
-/

namespace DeviceOS

/-- Only the cursor differs. -/
structure SameLine (s s' : Terminal) : Prop where
  keyboardBuf : s'.keyboardBuf = s.keyboardBuf
  keyboardIdx : s'.keyboardIdx = s.keyboardIdx
  enterFlag : s'.enterFlag = s.enterFlag
  commandBuf : s'.commandBuf = s.commandBuf
  commandIdx : s'.commandIdx = s.commandIdx
  commandPos : s'.commandPos = s.commandPos

theorem SameLine.refl (s : Terminal) : SameLine s s := ⟨rfl, rfl, rfl, rfl, rfl, rfl⟩

theorem SameLine.trans {s s' s'' : Terminal} (h1 : SameLine s s') (h2 : SameLine s' s'') :
    SameLine s s'' where
  keyboardBuf := h2.keyboardBuf.trans h1.keyboardBuf
  keyboardIdx := h2.keyboardIdx.trans h1.keyboardIdx
  enterFlag := h2.enterFlag.trans h1.enterFlag
  commandBuf := h2.commandBuf.trans h1.commandBuf
  commandIdx := h2.commandIdx.trans h1.commandIdx
  commandPos := h2.commandPos.trans h1.commandPos

theorem Terminal.finishRead_cursor (s : Terminal) (shell : Bool) :
    (s.finishRead shell).cursorX = s.cursorX ∧ (s.finishRead shell).cursorY = s.cursorY := by
  cases shell with
  | false => exact ⟨rfl, rfl⟩
  | true => exact ⟨rfl, rfl⟩

namespace Console

structure Drawn (c c' : Console) : Prop where
  curTerminal : c'.curTerminal = c.curTerminal
  writeTermIdx : c'.writeTermIdx = c.writeTermIdx
  vidmapped : c'.vidmapped = c.vidmapped
  vidmemPage : c'.vidmemPage = c.vidmemPage
  lines : ∀ t, SameLine (c.terminalStruct t) (c'.terminalStruct t)

variable {c c' c'' : Console} {t u : Term}

theorem Drawn.refl (c : Console) : Drawn c c := ⟨rfl, rfl, rfl, rfl, fun _ => .refl _⟩

theorem Drawn.trans (h1 : Drawn c c') (h2 : Drawn c' c'') : Drawn c c'' where
  curTerminal := h2.curTerminal.trans h1.curTerminal
  writeTermIdx := h2.writeTermIdx.trans h1.writeTermIdx
  vidmapped := h2.vidmapped.trans h1.vidmapped
  vidmemPage := h2.vidmemPage.trans h1.vidmemPage
  lines t := (h1.lines t).trans (h2.lines t)

theorem foldl_drawn {α : Type} {f : Console → α → Console} (hf : ∀ c a, Drawn c (f c a))
    (l : List α) : ∀ c : Console, Drawn c (l.foldl f c) := by
  induction l with
  | nil => intro c; exact .refl c
  | cons a l ih => intro c; exact (hf c a).trans (ih (f c a))

@[simp] theorem setTerm_self (c : Console) (t : Term) (s : Terminal) :
    (c.setTerm t s).terminalStruct t = s := by
  simp [setTerm]

theorem setTerm_of_ne (c : Console) (s : Terminal) (h : u ≠ t) :
    (c.setTerm t s).terminalStruct u = c.terminalStruct u := by
  simp [setTerm, Function.update_of_ne h]

/-- The cursors are where they are if the new record has the cursor of the old one. -/
theorem setTerm_cursor {s : Terminal} (hX : s.cursorX = (c.terminalStruct t).cursorX)
    (hY : s.cursorY = (c.terminalStruct t).cursorY) (u : Term) :
    ((c.setTerm t s).terminalStruct u).cursorX = (c.terminalStruct u).cursorX ∧
      ((c.setTerm t s).terminalStruct u).cursorY = (c.terminalStruct u).cursorY := by
  by_cases hu : u = t
  · subst hu
    rw [setTerm_self]
    exact ⟨hX, hY⟩
  · rw [setTerm_of_ne c s hu]
    exact ⟨rfl, rfl⟩

@[simp] theorem setTerm_curTerminal (c : Console) (t : Term) (s : Terminal) :
    (c.setTerm t s).curTerminal = c.curTerminal := rfl

@[simp] theorem setTerm_vidmapped (c : Console) (t : Term) (s : Terminal) :
    (c.setTerm t s).vidmapped = c.vidmapped := rfl

@[simp] theorem setTerm_vidmemPage (c : Console) (t : Term) (s : Terminal) :
    (c.setTerm t s).vidmemPage = c.vidmemPage := rfl

theorem setTerm_drawn (c : Console) {s : Terminal} (h : SameLine (c.terminalStruct t) s) :
    Drawn c (c.setTerm t s) := by
  refine ⟨rfl, rfl, rfl, rfl, fun u => ?_⟩
  by_cases hu : u = t
  · subst hu
    rwa [setTerm_self]
  · rw [setTerm_of_ne c s hu]
    exact .refl _

/-! ## Output -/

theorem poke_drawn (c : Console) (a : Nat) (b : UInt8) : Drawn c (c.poke a b) :=
  ⟨rfl, rfl, rfl, rfl, fun _ => .refl _⟩

theorem updateTermStruct_drawn (c : Console) (x y : Nat) : Drawn c (c.updateTermStruct x y) :=
  setTerm_drawn c ⟨rfl, rfl, rfl, rfl, rfl, rfl⟩

theorem setCursor_drawn (c : Console) (x y : Nat) : Drawn c (c.setCursor x y) := by
  unfold setCursor
  dsimp only
  split
  · refine Drawn.trans ?_ (updateTermStruct_drawn _ x y)
    exact ⟨rfl, rfl, rfl, rfl, fun _ => .refl _⟩
  · exact updateTermStruct_drawn c x y

theorem putCell_drawn (c : Console) (i : Nat) (ch attr : UInt8) : Drawn c (c.putCell i ch attr) :=
  (poke_drawn c _ _).trans (poke_drawn _ _ _)

theorem copyCell_drawn (c : Console) (i j : Nat) : Drawn c (c.copyCell i j) :=
  (poke_drawn c _ _).trans (poke_drawn _ _ _)

theorem shiftScreen_drawn (c : Console) : Drawn c c.shiftScreen := by
  have h1 := foldl_drawn (fun d i => copyCell_drawn d i (i + numCols))
    (List.range ((numRows - 1) * numCols)) c
  have h2 := foldl_drawn
    (fun d i => putCell_drawn d ((numRows - 1) * numCols + i) 32 c.attrib) (List.range numCols)
    ((List.range ((numRows - 1) * numCols)).foldl (fun d i => d.copyCell i (i + numCols)) c)
  exact (h1.trans h2).trans (setCursor_drawn _ 0 24)

theorem putc_drawn (c : Console) (ch : UInt8) : Drawn c (c.putc ch) := by
  simp only [putc, advance]
  split
  · split
    · exact shiftScreen_drawn c
    · exact setCursor_drawn c _ _
  · split
    · split
      · exact (putCell_drawn c _ _ _).trans (shiftScreen_drawn _)
      · exact (putCell_drawn c _ _ _).trans (setCursor_drawn _ _ _)
    · exact (putCell_drawn c _ _ _).trans (setCursor_drawn _ _ _)

theorem puts_drawn (c : Console) (row : Nat → UInt8) : Drawn c (c.puts row) :=
  foldl_drawn putc_drawn _ c

theorem clearScreen_drawn (c : Console) : Drawn c c.clearScreen :=
  (foldl_drawn (fun d i => putCell_drawn d i 32 c.attrib) _ c).trans (setCursor_drawn _ 0 0)

/-- `terminal_write` puts `write_term_idx` back to 0. -/
theorem terminalWrite_drawn (tpi : Option Term) (c : Console) (bytes : List UInt8) :
    Drawn { c with writeTermIdx := none } (c.terminalWrite tpi bytes) := by
  have h := foldl_drawn (f := fun d b => if b = 0 then d else d.putc b) (fun d b => by
      split
      · exact .refl d
      · exact putc_drawn d b) bytes
    (if tpi ≠ some c.curTerminal then { c with writeTermIdx := tpi } else c)
  refine ⟨h.curTerminal.trans ?_, rfl, h.vidmapped.trans ?_, h.vidmemPage.trans ?_, fun t => ?_⟩
  · split <;> rfl
  · split <;> rfl
  · split <;> rfl
  · refine SameLine.trans ?_ (h.lines t)
    split <;> exact .refl _

theorem switchTerminal_lines (tpi : Option Term) (c : Console) (keycode : Nat) (t : Term) :
    SameLine (c.terminalStruct t) ((c.switchTerminal tpi keycode).terminalStruct t) := by
  simp only [switchTerminal]
  split
  · refine SameLine.trans ?_ ((setCursor_drawn _ _ _).lines t)
    simp only [memcpyPage]
    split <;> exact .refl _
  · exact .refl _

/-! ## The keyboard -/

variable (typing : Term → Bool) (tpi : Option Term)

/-- Lines of the terminals other than `t` are as before. -/
def OtherLines (t : Term) (c c' : Console) : Prop :=
  ∀ u, u ≠ t → SameLine (c.terminalStruct u) (c'.terminalStruct u)

theorem OtherLines.trans (h1 : OtherLines t c c') (h2 : OtherLines t c' c'') : OtherLines t c c'' :=
  fun u hu => (h1 u hu).trans (h2 u hu)

theorem Drawn.otherLines (h : Drawn c c') (t : Term) : OtherLines t c c' := fun u _ => h.lines u

/-- The display is not switched, and lines of the terminals other than `t` are as before. -/
structure Edited (t : Term) (c c' : Console) : Prop where
  curTerminal : c'.curTerminal = c.curTerminal
  otherLines : OtherLines t c c'

theorem Edited.refl (t : Term) (c : Console) : Edited t c c := ⟨rfl, fun _ _ => .refl _⟩

theorem Edited.trans (h1 : Edited t c c') (h2 : Edited t c' c'') : Edited t c c'' :=
  ⟨h2.curTerminal.trans h1.curTerminal, h1.otherLines.trans h2.otherLines⟩

theorem Drawn.edited (h : Drawn c c') (t : Term) : Edited t c c' := ⟨h.curTerminal, h.otherLines t⟩

theorem setTerm_edited (c : Console) (t : Term) (s : Terminal) : Edited t c (c.setTerm t s) := by
  refine ⟨rfl, fun u hu => ?_⟩
  rw [setTerm_of_ne c s hu]
  exact .refl _

/-- The terminal that a scan code switches the display to. -/
def switchTarget (c : Console) (code : Nat) : Option Term :=
  if h : c.altPress = true ∧ 0x3B ≤ code ∧ code < 0x3E then some ⟨code - 0x3B, by omega⟩ else none

theorem switchTarget_of_lt (c : Console) {code : Nat} (h : code < 0x3B ∨ 0x3E ≤ code) :
    c.switchTarget code = none := by
  rw [switchTarget, dif_neg (by omega)]

theorem switchTerminal_curTerminal (c : Console) {code : Nat} {n : Term}
    (h : c.switchTarget code = some n) : (c.switchTerminal tpi code).curTerminal = n := by
  simp only [switchTarget] at h
  split at h
  · rename_i hcode
    cases h
    have hmod : (code + 256 - 0x3B) % 256 = code - 0x3B := by omega
    simp only [switchTerminal, hmod]
    rw [dif_pos (by omega)]
    exact (setCursor_drawn _ _ _).curTerminal
  · cases h

theorem backspace_edited (c : Console) (t : Term) (x y kidx : Nat) (kbuf : Nat → UInt8) :
    Edited t c (c.backspace t x y kidx kbuf) := by
  simp only [backspace]
  split
  · have h1 := updateTermStruct_drawn c (if x = 0 then 79 else x - 1) (if x = 0 then y - 1 else y)
    have h2 := putc_drawn (c.updateTermStruct (if x = 0 then 79 else x - 1)
      (if x = 0 then y - 1 else y)) 32
    exact (((h1.trans h2).edited t).trans (setTerm_edited _ _ _)).trans
      ((setCursor_drawn _ _ _).edited t)
  · exact .refl t c

theorem redraw_edited (c : Console) (t : Term) (x y erase pos : Nat) :
    Edited t c (c.redraw t x y erase pos) := by
  have h1 := setCursor_drawn c (u8 (x - erase)) y
  have h2 := foldl_drawn (fun d (_ : Nat) => putc_drawn d 32) (List.range erase)
    (c.setCursor (u8 (x - erase)) y)
  have h3 := setCursor_drawn ((List.range erase).foldl (fun d _ => d.putc 32)
    (c.setCursor (u8 (x - erase)) y)) (u8 (x - (c.terminalStruct t).keyboardIdx)) y
  have h4 := puts_drawn (((List.range erase).foldl (fun d _ => d.putc 32)
    (c.setCursor (u8 (x - erase)) y)).setCursor (u8 (x - (c.terminalStruct t).keyboardIdx)) y)
    ((c.terminalStruct t).commandBuf pos)
  exact ((((h1.trans h2).trans h3).trans h4).edited t).trans (setTerm_edited _ _ _)

theorem upArrow_edited (c : Console) (t : Term) (x y : Nat) :
    Edited t c (c.upArrow typing t x y) := by
  simp only [upArrow]
  split
  · exact .refl t c
  · split
    · exact setTerm_edited _ _ _
    · split
      · exact .refl t c
      · exact (setTerm_edited _ _ _).trans (redraw_edited _ _ _ _ _ _)

theorem downArrow_edited (c : Console) (t : Term) (x y : Nat) :
    Edited t c (c.downArrow typing t x y) := by
  simp only [downArrow]
  split
  · exact .refl t c
  · split
    · exact .refl t c
    · exact (setTerm_edited _ _ _).trans (redraw_edited _ _ _ _ _ _)

theorem enterKey_edited (c : Console) (t : Term) (y : Nat) :
    Edited t c (c.enterKey typing t y) := by
  simp only [enterKey]
  split
  · exact .refl t c
  · refine Edited.trans ?_ (setTerm_edited _ _ _)
    split
    · exact (shiftScreen_drawn c).edited t
    · exact (putc_drawn c 10).edited t

/-- The codes that `keyboard_handler` deals with itself. -/
def handled : List Nat :=
  [0x0E, 0x0F, 0x1C, 0x1D, 0x2A, 0x36, 0x37, 0x38, 0x3A, 0x48, 0x50, 0x9D, 0xAA, 0xB6, 0xB8]

/-- The branches of the `switch` of `keyboard_handler`. -/
inductive CodeCase (c : Console) (t : Term) (x y kidx : Nat) (kbuf : Nat → UInt8) :
    Nat → Console → Prop
  | backspace : CodeCase c t x y kidx kbuf 0x0E (c.backspace t x y kidx kbuf)
  | tab : CodeCase c t x y kidx kbuf 0x0F ((((c.putc 32).putc 32).putc 32).putc 32)
  | enter : CodeCase c t x y kidx kbuf 0x1C (c.enterKey typing t y)
  | up : CodeCase c t x y kidx kbuf 0x48 (c.upArrow typing t x y)
  | down : CodeCase c t x y kidx kbuf 0x50 (c.downArrow typing t x y)
  | clear : c.lctrlPress = true → CodeCase c t x y kidx kbuf 0x26 c.clearScreen
  | flags {code : Nat} (shft cpslock lctrl alt : Bool) : code < 0x3B ∨ 0x3E ≤ code →
      CodeCase c t x y kidx kbuf code
        { c with shftPress := shft, cpslockPress := cpslock, lctrlPress := lctrl, altPress := alt }
  | char {code : Nat} : code ∉ handled →
      CodeCase c t x y kidx kbuf code (c.writeKeyboardChar typing tpi code kidx kbuf)

theorem handleCode_case (c : Console) (t : Term) (x y kidx : Nat) (kbuf : Nat → UInt8)
    (code : Nat) : CodeCase typing tpi c t x y kidx kbuf code
      (c.handleCode typing tpi code t x y kidx kbuf) := by
  unfold handleCode
  split
  · exact .backspace
  · exact .tab
  · exact .flags true _ _ _ (by omega)
  · exact .flags true _ _ _ (by omega)
  · exact .flags _ (!c.cpslockPress) _ _ (by omega)
  · exact .flags false _ _ _ (by omega)
  · exact .flags false _ _ _ (by omega)
  · exact .flags _ _ true _ (by omega)
  · exact .flags _ _ false _ (by omega)
  · exact .flags c.shftPress c.cpslockPress c.lctrlPress c.altPress (by omega)
  · exact .flags _ _ _ true (by omega)
  · exact .flags _ _ _ false (by omega)
  · exact .enter
  · exact .up
  · exact .down
  · split
    · exact .clear ‹_›
    · exact .char (by decide)
  · refine .char ?_
    simp only [handled, List.mem_cons, List.not_mem_nil, or_false, not_or]
    exact ⟨by assumption, by assumption, by assumption, by assumption, by assumption, by assumption,
      by assumption, by assumption, by assumption, by assumption, by assumption, by assumption,
      by assumption, by assumption, by assumption⟩

/-- A scan code edits the line of the displayed terminal, or switches the display. -/
def KeyResult (c : Console) (code : Nat) (c' : Console) : Prop :=
  (c.switchTarget code = none ∧ Edited c.curTerminal c c') ∨
    (c.switchTarget code ≠ none ∧ c' = c.switchTerminal tpi code)

theorem writeKeyboardChar_cases (c : Console) (code kidx : Nat) (kbuf : Nat → UInt8) :
    KeyResult tpi c code (c.writeKeyboardChar typing tpi code kidx kbuf) := by
  simp only [writeKeyboardChar]
  split
  · rename_i h
    refine Or.inr ⟨?_, rfl⟩
    rw [switchTarget, dif_pos ⟨h.2, by omega⟩]
    exact Option.some_ne_none _
  · rename_i h
    refine Or.inl ⟨?_, ?_⟩
    · rw [switchTarget, dif_neg (by intro h'; exact h ⟨by omega, h'.1⟩)]
    · split
      · have hd := putc_drawn c (c.codeChar code)
        rw [← hd.curTerminal]
        exact (hd.edited _).trans (setTerm_edited _ _ _)
      · exact .refl _ c

theorem handleCode_cases (c : Console) (code x y kidx : Nat) (kbuf : Nat → UInt8) :
    KeyResult tpi c code (c.handleCode typing tpi code c.curTerminal x y kidx kbuf) := by
  have h := handleCode_case typing tpi c c.curTerminal x y kidx kbuf code
  generalize c.handleCode typing tpi code c.curTerminal x y kidx kbuf = d at h ⊢
  cases h with
  | backspace => exact Or.inl ⟨switchTarget_of_lt c (by omega), backspace_edited c _ _ _ _ _⟩
  | tab =>
    have h := ((putc_drawn c 32).trans (putc_drawn _ 32)).trans (putc_drawn _ 32)
    exact Or.inl ⟨switchTarget_of_lt c (by omega), (h.trans (putc_drawn _ 32)).edited _⟩
  | enter => exact Or.inl ⟨switchTarget_of_lt c (by omega), enterKey_edited typing c _ _⟩
  | up => exact Or.inl ⟨switchTarget_of_lt c (by omega), upArrow_edited typing c _ _ _⟩
  | down => exact Or.inl ⟨switchTarget_of_lt c (by omega), downArrow_edited typing c _ _ _⟩
  | clear => exact Or.inl ⟨switchTarget_of_lt c (by omega), (clearScreen_drawn c).edited _⟩
  | flags shft cpslock lctrl alt hcode =>
    exact Or.inl ⟨switchTarget_of_lt c hcode, rfl, fun _ _ => .refl _⟩
  | char => exact writeKeyboardChar_cases typing tpi c code kidx kbuf

theorem KeyResult.otherLines {code : Nat} (h : KeyResult tpi c code c') :
    OtherLines c.curTerminal c c' := by
  rcases h with ⟨_, h⟩ | ⟨_, rfl⟩
  · exact h.otherLines
  · exact fun u _ => switchTerminal_lines tpi c code u

/-- Only Alt with F1, F2 or F3 changes the displayed terminal. -/
theorem KeyResult.curTerminal {code : Nat} (h : KeyResult tpi c code c') :
    c'.curTerminal = (c.switchTarget code).getD c.curTerminal := by
  rcases h with ⟨hn, h⟩ | ⟨hn, rfl⟩
  · rw [hn, h.curTerminal]
    rfl
  · obtain ⟨n, hn⟩ := Option.ne_none_iff_exists'.mp hn
    rw [hn, switchTerminal_curTerminal tpi c hn]
    rfl

/-- A keyboard interrupt edits only the line of the displayed terminal. -/
theorem keyboardHandler_otherLines (c : Console) (status code : UInt8) :
    OtherLines c.curTerminal c (c.keyboardHandler typing tpi status code) := by
  simp only [keyboardHandler]
  split
  · exact fun u _ => .refl _
  · have h1 := (setTerm_edited c c.curTerminal
      { c.terminalStruct c.curTerminal with enterFlag := false }).otherLines
    refine h1.trans ?_
    exact (handleCode_cases typing tpi
      { c.setTerm c.curTerminal { c.terminalStruct c.curTerminal with enterFlag := false } with
        vidmemPage := vidmemIndex } _ _ _ _ _).otherLines

/-- A keyboard interrupt puts the entry of `vidmap_page_table` back, also after it has switched the
display. -/
theorem keyboardHandler_page (c : Console) {status : UInt8} (hs : status ≠ 0) (code : UInt8) :
    (c.keyboardHandler typing tpi status code).vidmemPage = c.vidmemPage ∧
    (c.keyboardHandler typing tpi status code).curTerminal =
      (c.switchTarget code.toNat).getD c.curTerminal := by
  simp only [keyboardHandler, if_neg hs]
  refine ⟨trivial, ?_⟩
  exact (handleCode_cases typing tpi
    { c.setTerm c.curTerminal { c.terminalStruct c.curTerminal with enterFlag := false } with
      vidmemPage := vidmemIndex } _ _ _ _ _).curTerminal

theorem enterKey_line (c : Console) (t : Term) (y : Nat) (ht : typing c.curTerminal = true) :
    ((c.enterKey typing t y).terminalStruct t).enterFlag = true ∧
    ((c.enterKey typing t y).terminalStruct t).keyboardBuf = (c.terminalStruct t).keyboardBuf ∧
    ((c.enterKey typing t y).terminalStruct t).keyboardIdx = (c.terminalStruct t).keyboardIdx := by
  have hty : typing c.curTerminal ≠ false := by rw [ht]; simp
  have h : Drawn c (if y = 24 then c.shiftScreen else c.putc 10) := by
    split
    · exact shiftScreen_drawn c
    · exact putc_drawn c 10
  simp only [enterKey, if_neg hty, setTerm_self]
  exact ⟨trivial, (h.lines t).keyboardBuf, (h.lines t).keyboardIdx⟩

/-- Enter sets the flag of the displayed terminal and leaves its line as it is. -/
theorem keyboardHandler_enter (c : Console) {status : UInt8} (hs : status ≠ 0)
    (ht : typing c.curTerminal = true) :
    ((c.keyboardHandler typing tpi status 0x1C).terminalStruct c.curTerminal).enterFlag = true ∧
    ((c.keyboardHandler typing tpi status 0x1C).terminalStruct c.curTerminal).keyboardBuf =
      (c.terminalStruct c.curTerminal).keyboardBuf ∧
    ((c.keyboardHandler typing tpi status 0x1C).terminalStruct c.curTerminal).keyboardIdx =
      (c.terminalStruct c.curTerminal).keyboardIdx := by
  let c1 := { c.setTerm c.curTerminal { c.terminalStruct c.curTerminal with
    enterFlag := false } with vidmemPage := vidmemIndex }
  have hstruct : c1.terminalStruct c.curTerminal =
      { c.terminalStruct c.curTerminal with enterFlag := false } := setTerm_self c _ _
  have heq : (c.keyboardHandler typing tpi status 0x1C).terminalStruct =
      (c1.enterKey typing c.curTerminal c.getCursorY).terminalStruct := by
    simp only [keyboardHandler, if_neg hs]
    rfl
  obtain ⟨h1, h2, h3⟩ := enterKey_line typing c1 c.curTerminal c.getCursorY ht
  rw [hstruct] at h2 h3
  rw [heq]
  exact ⟨h1, h2, h3⟩

end Console

/-! ## The mouse -/

namespace Kernel

variable {k k' : Kernel}

theorem drawPointer_drawn (k : Kernel) (status : UInt8) (x y : Nat) (paintFlag : Bool) :
    Console.Drawn k.con (k.drawPointer status x y paintFlag).con := by
  -- the entry of page 0xB8 is put back at the end
  have hback : ∀ c : Console, Console.Drawn { k.con with vidmemPage := vidmemIndex } c →
      Console.Drawn k.con { c with vidmemPage := k.con.vidmemPage } :=
    fun c h => ⟨h.curTerminal, h.writeTermIdx, h.vidmapped, rfl, h.lines⟩
  have hfold := fun (c : Console) (l : List (Nat × UInt8)) =>
    Console.foldl_drawn (fun d (p : Nat × UInt8) => Console.poke_drawn d (pointerCell p.1 0) p.2) l c
  have hpoke := fun a1 b1 a2 b2 =>
    (Console.poke_drawn { k.con with vidmemPage := vidmemIndex } a1 b1).trans
      (Console.poke_drawn _ a2 b2)
  simp only [drawPointer]
  split
  · split
    · exact hback _ ((hpoke _ _ _ _).trans (hfold _ _))
    · exact hback _ ((hpoke _ _ _ _).trans (hfold _ _))
  · split
    · exact hback _ (hpoke _ _ _ _)
    · exact hback _ (hpoke _ _ _ _)

/-- A mouse interrupt draws the pointer, after a click that can toggle the paint mode. -/
theorem mouseHandler_drawn {p : Packet} (h : k.mouseHandler p = some k') :
    Console.Drawn k.con k'.con ∨ Console.Drawn k.togglePaint.1.con k'.con := by
  rcases mouseHandler_cases h with rfl | ⟨k1, x, y, flag, rfl, _, ⟨_, hc⟩ | ⟨_, hc⟩⟩
  · exact Or.inl (.refl _)
  · refine Or.inl ?_
    rw [← hc]
    exact drawPointer_drawn k1 p.status x y flag
  · refine Or.inr ?_
    rw [← hc]
    exact drawPointer_drawn k1 p.status x y flag

end Kernel
end DeviceOS
