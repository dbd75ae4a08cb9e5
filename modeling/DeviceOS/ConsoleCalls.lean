import DeviceOS.LineEditor
import DeviceOS.ScreenIsolation

/-!
# DeviceOS.ConsoleCalls

The keyboard interrupt and `terminal_write` as sequences of calls and assignments.

* `Call`: what the two do to the console, one after another. `runCalls` executes a list of them.
* `keyCalls`, `writeCalls`: the sequence for one interrupt and for one call of `terminal_write`.
  `runCalls_keyCalls`, `runCalls_writeCalls`: executing it is the function of the model.
* `Call.Local`: a call for one terminal only.
-/

namespace DeviceOS

/-- The arrow up before it draws: the draft is saved when it is left. -/
def Terminal.toOlder (s : Terminal) : Terminal :=
  let s1 := { s with commandPos := s.commandPos + 1 }
  if s1.commandPos = 1 then s1.saveDraft else s1

namespace Console

/-- `edit t f` assigns fields of `terminal_struct[t]` other than the cursor. -/
inductive Call where
  | putc (ch : UInt8)
  | shiftScreen
  | clearScreen
  | setCursor (x y : Nat)
  | updateTermStruct (x y : Nat)
  | edit (t : Term) (f : Terminal → Terminal)
  | modifiers (shft cpslock lctrl alt : Bool)
  | page (p : Nat)
  | aim (o : Option Term)
  | display (keycode : Nat)

/-- The assignment of `f`, which does not move the cursor. -/
def editLine (c : Console) (t : Term) (f : Terminal → Terminal) : Console :=
  let s := c.terminalStruct t
  c.setTerm t { f s with cursorX := s.cursorX, cursorY := s.cursorY }

theorem editLine_cursor (c : Console) (t : Term) (f : Terminal → Terminal) (u : Term) :
    ((c.editLine t f).terminalStruct u).cursorX = (c.terminalStruct u).cursorX ∧
      ((c.editLine t f).terminalStruct u).cursorY = (c.terminalStruct u).cursorY := by
  apply setTerm_cursor
  · rfl
  · rfl

namespace Call

def exec (tpi : Option Term) (c : Console) : Call → Console
  | putc ch => c.putc ch
  | shiftScreen => c.shiftScreen
  | clearScreen => c.clearScreen
  | setCursor x y => c.setCursor x y
  | updateTermStruct x y => c.updateTermStruct x y
  | edit t f => c.editLine t f
  | modifiers shft cpslock lctrl alt =>
    { c with shftPress := shft, cpslockPress := cpslock, lctrlPress := lctrl, altPress := alt }
  | page p => { c with vidmemPage := p }
  | aim o => { c with writeTermIdx := o }
  | display keycode => c.switchTerminal tpi keycode

end Call

def runCalls (tpi : Option Term) (calls : List Call) (c : Console) : Console :=
  calls.foldl (Call.exec tpi) c

section Scripts

variable (typing : Term → Bool) (tpi : Option Term)

def writeKeyboardCharCalls (c : Console) (code kidx : Nat) (kbuf : Nat → UInt8) : List Call :=
  if (code = 0x3B ∨ code = 0x3C ∨ code = 0x3D) ∧ c.altPress = true then [.display code]
  else if code < 0x3A ∧ kidx < 72 ∧ typing c.curTerminal = true then
    [.putc (c.codeChar code), .edit c.curTerminal fun s => { s with
      keyboardIdx := kidx + 1
      keyboardBuf := Function.update kbuf kidx (c.codeChar code) }]
  else []

def backspaceCalls (t : Term) (x y kidx : Nat) (kbuf : Nat → UInt8) : List Call :=
  if kidx > 0 ∧ (x > 0 ∨ y > 0) then
    let x1 := if x = 0 then 79 else x - 1
    let y1 := if x = 0 then y - 1 else y
    [.updateTermStruct x1 y1, .putc 32,
      .edit t fun s => { s with
        keyboardBuf := Function.update s.keyboardBuf (kidx - 1) 0
        keyboardIdx := kidx - 1
        commandBuf := Function.update s.commandBuf 0 kbuf
        commandIdx := Function.update s.commandIdx 0 (kidx - 1) },
      .setCursor x1 y1]
  else []

/-- `s` is the terminal when the arrow begins to draw. -/
def redrawCalls (s : Terminal) (t : Term) (x y erase pos : Nat) : List Call :=
  .setCursor (u8 (x - erase)) y :: List.replicate erase (.putc 32) ++
  .setCursor (u8 (x - s.keyboardIdx)) y ::
    (((List.range maxBufSize).map (s.commandBuf pos)).takeWhile (· ≠ 0)).map .putc ++
  [.edit t fun s => { s with keyboardBuf := s.commandBuf pos, keyboardIdx := s.commandIdx pos }]

def upArrowCalls (c : Console) (t : Term) (x y : Nat) : List Call :=
  let s := c.terminalStruct t
  if typing c.curTerminal = false then []
  else if s.commandPos ≥ 9 then [.edit t fun s => { s with commandPos := 9 }]
  else if s.commandIdx (s.commandPos + 1) = 0 then []
  else
    .edit t Terminal.toOlder :: redrawCalls s.toOlder t x y
      (s.toOlder.commandIdx (s.toOlder.commandPos - 1)) s.toOlder.commandPos

def downArrowCalls (c : Console) (t : Term) (x y : Nat) : List Call :=
  let s := c.terminalStruct t
  if typing c.curTerminal = false then []
  else if s.commandPos = 0 then []
  else
    .edit t (fun s => { s with commandPos := s.commandPos - 1 }) ::
      redrawCalls s t x y (s.commandIdx s.commandPos) (s.commandPos - 1)

def enterKeyCalls (c : Console) (t : Term) (y : Nat) : List Call :=
  if typing c.curTerminal = false then []
  else [if y = 24 then .shiftScreen else .putc 10, .edit t fun s => { s with enterFlag := true }]

def handleCodeCalls (c : Console) (code : Nat) (t : Term) (x y kidx : Nat) (kbuf : Nat → UInt8) :
    List Call :=
  match code with
  | 0x0E => backspaceCalls t x y kidx kbuf
  | 0x0F => [.putc 32, .putc 32, .putc 32, .putc 32]
  | 0x2A => [.modifiers true c.cpslockPress c.lctrlPress c.altPress]
  | 0x36 => [.modifiers true c.cpslockPress c.lctrlPress c.altPress]
  | 0x3A => [.modifiers c.shftPress (!c.cpslockPress) c.lctrlPress c.altPress]
  | 0xAA => [.modifiers false c.cpslockPress c.lctrlPress c.altPress]
  | 0xB6 => [.modifiers false c.cpslockPress c.lctrlPress c.altPress]
  | 0x1D => [.modifiers c.shftPress c.cpslockPress true c.altPress]
  | 0x9D => [.modifiers c.shftPress c.cpslockPress false c.altPress]
  | 0x37 => []
  | 0x38 => [.modifiers c.shftPress c.cpslockPress c.lctrlPress true]
  | 0xB8 => [.modifiers c.shftPress c.cpslockPress c.lctrlPress false]
  | 0x1C => c.enterKeyCalls typing t y
  | 0x48 => c.upArrowCalls typing t x y
  | 0x50 => c.downArrowCalls typing t x y
  | 0x26 => if c.lctrlPress then [.clearScreen] else c.writeKeyboardCharCalls typing code kidx kbuf
  | _ => c.writeKeyboardCharCalls typing code kidx kbuf

/-- One run of `keyboard_handler`. -/
def keyCalls (c : Console) (status code : UInt8) : List Call :=
  if status = 0 then []
  else
    let s := c.terminalStruct c.curTerminal
    [.edit c.curTerminal Terminal.clearFlag, .page vidmemIndex] ++
      c.keyStart.handleCodeCalls typing code.toNat c.curTerminal c.getCursorX c.getCursorY
        s.localIdx s.localBuf ++
      [.page c.vidmemPage]

def writeCalls (c : Console) (bytes : List UInt8) : List Call :=
  .aim (if tpi ≠ some c.curTerminal then tpi else c.writeTermIdx) ::
    (bytes.filter (· ≠ 0)).map .putc ++ [.aim none]

/-- A call that draws at the cursor, clears the screen or sets the modifiers. -/
def Call.Plain : Call → Prop
  | putc _ | clearScreen | modifiers _ _ _ _ => True
  | _ => False

/-- The branches of the switch on the scan code. -/
inductive CodeCalls (c : Console) (t : Term) (x y kidx : Nat) (kbuf : Nat → UInt8) :
    Nat → List Call → Prop
  | backspace : CodeCalls c t x y kidx kbuf 0x0E (backspaceCalls t x y kidx kbuf)
  | enter : CodeCalls c t x y kidx kbuf 0x1C (c.enterKeyCalls typing t y)
  | up : CodeCalls c t x y kidx kbuf 0x48 (c.upArrowCalls typing t x y)
  | down : CodeCalls c t x y kidx kbuf 0x50 (c.downArrowCalls typing t x y)
  | plain {code : Nat} {calls : List Call} : code < 0x3B ∨ 0x3E ≤ code → code ≠ 0x48 →
      code ≠ 0x50 → (∀ z ∈ calls, z.Plain) → CodeCalls c t x y kidx kbuf code calls
  | char {code : Nat} : code ≠ 0x48 → code ≠ 0x50 →
      CodeCalls c t x y kidx kbuf code (c.writeKeyboardCharCalls typing code kidx kbuf)

theorem handleCodeCalls_spec (c : Console) (code : Nat) (t : Term) (x y kidx : Nat)
    (kbuf : Nat → UInt8) : CodeCalls typing c t x y kidx kbuf code
      (c.handleCodeCalls typing code t x y kidx kbuf) := by
  unfold handleCodeCalls
  split
  · exact .backspace
  · exact .plain (by omega) (by omega) (by omega) (by simp [Call.Plain])
  · exact .plain (by omega) (by omega) (by omega) (by simp [Call.Plain])
  · exact .plain (by omega) (by omega) (by omega) (by simp [Call.Plain])
  · exact .plain (by omega) (by omega) (by omega) (by simp [Call.Plain])
  · exact .plain (by omega) (by omega) (by omega) (by simp [Call.Plain])
  · exact .plain (by omega) (by omega) (by omega) (by simp [Call.Plain])
  · exact .plain (by omega) (by omega) (by omega) (by simp [Call.Plain])
  · exact .plain (by omega) (by omega) (by omega) (by simp [Call.Plain])
  · exact .plain (by omega) (by omega) (by omega) (by simp)
  · exact .plain (by omega) (by omega) (by omega) (by simp [Call.Plain])
  · exact .plain (by omega) (by omega) (by omega) (by simp [Call.Plain])
  · exact .enter
  · exact .up
  · exact .down
  · split
    · exact .plain (by omega) (by omega) (by omega) (by simp [Call.Plain])
    · exact .char (by omega) (by omega)
  · exact .char (by assumption) (by assumption)

end Scripts

/-! ## Executing a sequence -/

variable {typing : Term → Bool} {tpi : Option Term} {c c' : Console} {t : Term}

theorem runCalls_cons (x : Call) (calls : List Call) (c : Console) :
    runCalls tpi (x :: calls) c = runCalls tpi calls (x.exec tpi c) := rfl

theorem runCalls_append (xs ys : List Call) (c : Console) :
    runCalls tpi (xs ++ ys) c = runCalls tpi ys (runCalls tpi xs c) := List.foldl_append

theorem runCalls_putc (chs : List UInt8) (c : Console) :
    runCalls tpi (chs.map .putc) c = chs.foldl putc c := List.foldl_map

theorem runCalls_blanks (n : Nat) : ∀ c : Console,
    runCalls tpi (List.replicate n (.putc 32)) c =
      (List.range n).foldl (fun d _ => d.putc 32) c := by
  induction n with
  | zero => intro c; rfl
  | succ n ih =>
    intro c
    rw [List.replicate_succ', runCalls_append, ih, List.range_succ, List.foldl_append]
    rfl

theorem runCalls_redraw (tpi : Option Term) (c : Console) (t : Term) (x y erase pos : Nat) :
    runCalls tpi (redrawCalls (c.terminalStruct t) t x y erase pos) c =
      c.redraw t x y erase pos := by
  simp only [redrawCalls, List.cons_append, List.append_assoc, runCalls_cons, runCalls_append,
    runCalls_blanks, runCalls_putc, Call.exec]
  rfl

theorem runCalls_writeKeyboardChar (c : Console) (code kidx : Nat) (kbuf : Nat → UInt8) :
    runCalls tpi (c.writeKeyboardCharCalls typing code kidx kbuf) c =
      c.writeKeyboardChar typing tpi code kidx kbuf := by
  simp only [writeKeyboardCharCalls, writeKeyboardChar]
  split
  · rfl
  · split
    · have hcur := (putc_drawn c (c.codeChar code)).curTerminal
      simp only [runCalls, List.foldl_cons, List.foldl_nil, Call.exec, editLine, hcur]
    · rfl

theorem runCalls_backspace (c : Console) (t : Term) (x y kidx : Nat) (kbuf : Nat → UInt8) :
    runCalls tpi (backspaceCalls t x y kidx kbuf) c = c.backspace t x y kidx kbuf := by
  simp only [backspaceCalls, backspace]
  split <;> rfl

theorem runCalls_upArrow (c : Console) (t : Term) (x y : Nat) :
    runCalls tpi (c.upArrowCalls typing t x y) c = c.upArrow typing t x y := by
  simp only [upArrowCalls, upArrow]
  split
  · rfl
  · split
    · rfl
    · split
      · rfl
      · have hedit : c.editLine t Terminal.toOlder =
            c.setTerm t (c.terminalStruct t).toOlder := by
          simp only [editLine, Terminal.toOlder]
          split <;> rfl
        have hdraw := runCalls_redraw tpi (c.setTerm t (c.terminalStruct t).toOlder) t x y
          ((c.terminalStruct t).toOlder.commandIdx ((c.terminalStruct t).toOlder.commandPos - 1))
          (c.terminalStruct t).toOlder.commandPos
        rw [setTerm_self] at hdraw
        rw [runCalls_cons, Call.exec, hedit]
        exact hdraw

theorem runCalls_downArrow (c : Console) (t : Term) (x y : Nat) :
    runCalls tpi (c.downArrowCalls typing t x y) c = c.downArrow typing t x y := by
  simp only [downArrowCalls, downArrow]
  split
  · rfl
  · split
    · rfl
    · rw [runCalls_cons, ← runCalls_redraw tpi, setTerm_self]
      rfl

theorem runCalls_enterKey (c : Console) (t : Term) (y : Nat) :
    runCalls tpi (c.enterKeyCalls typing t y) c = c.enterKey typing t y := by
  simp only [enterKeyCalls, enterKey]
  split
  · rfl
  · split <;> rfl

theorem runCalls_handleCode (c : Console) (code : Nat) (t : Term) (x y kidx : Nat)
    (kbuf : Nat → UInt8) : runCalls tpi (c.handleCodeCalls typing code t x y kidx kbuf) c =
      c.handleCode typing tpi code t x y kidx kbuf := by
  unfold handleCodeCalls handleCode
  split
  · exact runCalls_backspace c t x y kidx kbuf
  · rfl
  · rfl
  · rfl
  · rfl
  · rfl
  · rfl
  · rfl
  · rfl
  · rfl
  · rfl
  · rfl
  · exact runCalls_enterKey c t y
  · exact runCalls_upArrow c t x y
  · exact runCalls_downArrow c t x y
  · split
    · rfl
    · exact runCalls_writeKeyboardChar c _ kidx kbuf
  · refine (runCalls_writeKeyboardChar c _ kidx kbuf).trans ?_
    simp [*]

theorem runCalls_keyCalls (c : Console) (status code : UInt8) :
    runCalls tpi (c.keyCalls typing status code) c = c.keyboardHandler typing tpi status code := by
  by_cases hs : status = 0
  · simp only [keyCalls, keyboardHandler, if_pos hs]
    rfl
  · have hstart : runCalls tpi [.edit c.curTerminal Terminal.clearFlag, .page vidmemIndex] c =
        c.keyStart := rfl
    rw [keyboardHandler_eq typing tpi c hs, keyCalls, if_neg hs]
    simp only [runCalls_append, hstart, runCalls_handleCode]
    rfl

theorem runCalls_writeCalls (c : Console) (bytes : List UInt8) :
    runCalls tpi (writeCalls tpi c bytes) c = c.terminalWrite tpi bytes := by
  have hfilter : ∀ (l : List UInt8) (d : Console),
      (l.filter (· ≠ 0)).foldl putc d = l.foldl (fun d b => if b = 0 then d else d.putc b) d := by
    intro l
    induction l with
    | nil => intro d; rfl
    | cons b l ih =>
      intro d
      by_cases hb : b = 0
      · simp only [hb, List.foldl_cons, if_true, ← ih]
        rfl
      · simp only [List.filter_cons, hb, decide_not, decide_false, Bool.not_false, if_true,
          List.foldl_cons, if_false, ← ih]
  have haim : (Call.aim (if tpi ≠ some c.curTerminal then tpi else c.writeTermIdx)).exec tpi c =
      if tpi ≠ some c.curTerminal then { c with writeTermIdx := tpi } else c := by
    split <;> rfl
  simp only [writeCalls, List.cons_append, runCalls_cons, runCalls_append, runCalls_putc, haim,
    hfilter]
  rfl

/-! ## Cursors -/

/-- The terminals after the cursor of the target is put at `x`, `y`. -/
def placed (c : Console) (x y : Nat) : Term → Terminal :=
  Function.update c.terminalStruct c.target
    { c.terminalStruct c.target with cursorX := x, cursorY := y }

theorem placed_of_ne (c : Console) (x y : Nat) {u : Term} (h : u ≠ c.target) :
    c.placed x y u = c.terminalStruct u :=
  Function.update_of_ne h ..

theorem setCursor_placed (c : Console) (x y : Nat) :
    (c.setCursor x y).terminalStruct = c.placed (x % 256) (y % 256) :=
  setCursor_terminalStruct c x y

theorem updateTermStruct_placed (c : Console) (x y : Nat) :
    (c.updateTermStruct x y).terminalStruct = c.placed (x % 256) (y % 256) := rfl

/-- Storing cells leaves the terminals alone, so a routine places the cursor where it does last. -/
theorem Drawn.setCursor_placed (hd : Drawn c c') (hs : c'.terminalStruct = c.terminalStruct)
    (x y : Nat) : (c'.setCursor x y).terminalStruct = c.placed (x % 256) (y % 256) := by
  rw [setCursor_terminalStruct, hd.target, hs]
  rfl

theorem foldl_terminalStruct {α : Type} {f : Console → α → Console}
    (hf : ∀ d a, (f d a).terminalStruct = d.terminalStruct) (l : List α) :
    ∀ d : Console, (l.foldl f d).terminalStruct = d.terminalStruct := by
  induction l with
  | nil => intro d; rfl
  | cons a l ih => intro d; exact (ih (f d a)).trans (hf d a)

theorem shiftScreen_placed (c : Console) : c.shiftScreen.terminalStruct = c.placed 0 24 := by
  have h1 := foldl_drawn (fun d i => copyCell_drawn d i (i + numCols))
    (List.range ((numRows - 1) * numCols)) c
  have h2 := foldl_drawn
    (fun d i => putCell_drawn d ((numRows - 1) * numCols + i) 32 c.attrib) (List.range numCols)
    ((List.range ((numRows - 1) * numCols)).foldl (fun d i => d.copyCell i (i + numCols)) c)
  refine (h1.trans h2).setCursor_placed ?_ 0 24
  have h3 := foldl_terminalStruct (f := fun d i => d.copyCell i (i + numCols)) (fun _ _ => rfl)
    (List.range ((numRows - 1) * numCols)) c
  exact (foldl_terminalStruct (f := fun d i => d.putCell ((numRows - 1) * numCols + i) 32 c.attrib)
    (fun _ _ => rfl) _ _).trans h3

theorem clearScreen_placed (c : Console) : c.clearScreen.terminalStruct = c.placed 0 0 := by
  refine (foldl_drawn (fun d i => putCell_drawn d i 32 c.attrib) _ c).setCursor_placed ?_ 0 0
  exact foldl_terminalStruct (f := fun d i => d.putCell i 32 c.attrib) (fun _ _ => rfl) _ c

/-- Wherever it was before, `putc` leaves the cursor on the screen. -/
theorem putc_placed (c : Console) (ch : UInt8) : ∃ x y, x < numCols ∧ y < numRows ∧
    (c.putc ch).terminalStruct = c.placed x y := by
  have hadvance : ∀ {d : Console}, Drawn c d → d.terminalStruct = c.terminalStruct → ∀ x y,
      ∃ x' y', x' < numCols ∧ y' < numRows ∧ (d.advance x y).terminalStruct = c.placed x' y' := by
    intro d hd hs x y
    have hx : x % numCols < numCols := Nat.mod_lt _ (by decide)
    have hy : (y + x % numCols / numCols) % numRows < numRows := Nat.mod_lt _ (by decide)
    refine ⟨_, _, hx, hy, ?_⟩
    have h := hd.setCursor_placed hs (x % numCols) ((y + x % numCols / numCols) % numRows)
    rw [Nat.mod_eq_of_lt (Nat.lt_trans hx (by decide)),
      Nat.mod_eq_of_lt (Nat.lt_trans hy (by decide))] at h
    exact h
  have hcell := putCell_drawn c (numCols * c.getCursorY + c.getCursorX) ch c.attrib
  simp only [putc]
  split
  · split
    · exact ⟨0, 24, by decide, by decide, shiftScreen_placed c⟩
    · exact hadvance (.refl c) rfl _ _
  · split
    · split
      · refine ⟨0, 24, by decide, by decide, ?_⟩
        rw [shiftScreen_placed, placed, hcell.target]
        rfl
      · exact hadvance hcell rfl _ _
    · exact hadvance hcell rfl _ _

end Console
end DeviceOS
