import DeviceOS.Keyboard
import DeviceOS.Lib.AccessLog

/-!
# DeviceOS.KeyAccesses

`keyboard_handler` with the subscripts that it uses, for a console in any state.

* `Subscript`: an index and the length of the array that it is for.
* `keyboardHandlerLogged` and the functions under it: the ones of `Keyboard`, with a log of their
  subscripts. `_result`: apart from the log they are the same.
-/

namespace DeviceOS

open AccessLog (Logged)
open AccessLog.Logged

/-- An index, and the length of its array. -/
abbrev Subscript := Nat × Nat

def Subscript.InArray (p : Subscript) : Prop := p.1 < p.2

namespace Console

/-- The number of rows of `command_buf` and `command_idx`. -/
def commandRows : Nat := 10

/-- A loop over all bytes of `keyboard_buf` and of the local copy. -/
def copyLogged : Logged Subscript Unit :=
  foldl (fun _ i => access (i, maxBufSize) (access (i, maxBufSize) (done ()))) ()
    (List.range maxBufSize)

/-- The table is read for the echo and once more for the line. -/
def tableLogged (table : List UInt8) (code : Nat) : Logged Subscript UInt8 :=
  access (code, table.length) (access (code, table.length) (done (table.getD code 0)))

def codeCharLogged (c : Console) (code : Nat) : Logged Subscript UInt8 :=
  if c.shftPress && c.cpslockPress then tableLogged capsshiftCodeTable code
  else if c.shftPress then tableLogged shiftCodeTable code
  else if c.cpslockPress then tableLogged capslockCodeTable code
  else tableLogged lowercaseCodeTable code

variable (typing : Term → Bool) (tpi : Option Term)

def writeKeyboardCharLogged (c : Console) (code kidx : Nat) (kbuf : Nat → UInt8) :
    Logged Subscript Console :=
  if (code = 0x3B ∨ code = 0x3C ∨ code = 0x3D) ∧ c.altPress = true then
    done (c.switchTerminal tpi code)
  else if code < 0x3A ∧ kidx < 72 ∧ typing c.curTerminal = true then
    (c.codeCharLogged code).bind fun ch =>
      let c1 := c.putc ch
      access (kidx, maxBufSize) <| copyLogged.map fun _ =>
        c1.setTerm c1.curTerminal { c1.terminalStruct c1.curTerminal with
          keyboardIdx := kidx + 1
          keyboardBuf := Function.update kbuf kidx ch }
  else done c

def backspaceLogged (c : Console) (t : Term) (x y kidx : Nat) (kbuf : Nat → UInt8) :
    Logged Subscript Console :=
  if kidx > 0 ∧ (x > 0 ∨ y > 0) then
    access (kidx - 1, maxBufSize) <| access (0, commandRows) <| access (0, commandRows) <|
      done (c.backspace t x y kidx kbuf)
  else done c

/-- `prev` is the row to blank out, and `erase` its length. -/
def redrawLogged (c : Console) (t : Term) (x y prev erase pos : Nat) : Logged Subscript Console :=
  access (prev, commandRows) <| access (pos, commandRows) <| access (pos, commandRows) <|
    done (c.redraw t x y erase pos)

def upArrowLogged (c : Console) (t : Term) (x y : Nat) : Logged Subscript Console :=
  let s := c.terminalStruct t
  if typing c.curTerminal = false then done c
  else if s.commandPos ≥ 9 then done (c.setTerm t { s with commandPos := 9 })
  else
    access (s.commandPos + 1, commandRows) <|
      if s.commandIdx (s.commandPos + 1) = 0 then done c
      else
        let s1 := { s with commandPos := s.commandPos + 1 }
        let save : Logged Subscript Terminal :=
          if s1.commandPos = 1 then
            access (0, commandRows) <| access (0, commandRows) <|
              done { s1 with
                commandBuf := Function.update s1.commandBuf 0 s1.keyboardBuf
                commandIdx := Function.update s1.commandIdx 0 s1.keyboardIdx }
          else done s1
        save.bind fun s2 =>
          (c.setTerm t s2).redrawLogged t x y (s2.commandPos - 1)
            (s2.commandIdx (s2.commandPos - 1)) s2.commandPos

def downArrowLogged (c : Console) (t : Term) (x y : Nat) : Logged Subscript Console :=
  let s := c.terminalStruct t
  if typing c.curTerminal = false then done c
  else if s.commandPos = 0 then done c
  else
    let s1 := { s with commandPos := s.commandPos - 1 }
    (c.setTerm t s1).redrawLogged t x y s.commandPos (s1.commandIdx s.commandPos) s1.commandPos

def handleCodeLogged (c : Console) (code : Nat) (t : Term) (x y kidx : Nat) (kbuf : Nat → UInt8) :
    Logged Subscript Console :=
  match code with
  | 0x0E => c.backspaceLogged t x y kidx kbuf
  | 0x0F => done ((((c.putc 32).putc 32).putc 32).putc 32)
  | 0x2A => done { c with shftPress := true }
  | 0x36 => done { c with shftPress := true }
  | 0x3A => done { c with cpslockPress := !c.cpslockPress }
  | 0xAA => done { c with shftPress := false }
  | 0xB6 => done { c with shftPress := false }
  | 0x1D => done { c with lctrlPress := true }
  | 0x9D => done { c with lctrlPress := false }
  | 0x37 => done c
  | 0x38 => done { c with altPress := true }
  | 0xB8 => done { c with altPress := false }
  | 0x1C => done (c.enterKey typing t y)
  | 0x48 => c.upArrowLogged typing t x y
  | 0x50 => c.downArrowLogged typing t x y
  | 0x26 =>
    if c.lctrlPress then done c.clearScreen
    else c.writeKeyboardCharLogged typing tpi code kidx kbuf
  | _ => c.writeKeyboardCharLogged typing tpi code kidx kbuf

def keyboardHandlerLogged (c : Console) (status code : UInt8) : Logged Subscript Console :=
  if status = 0 then done c
  else
    let t := c.curTerminal
    let s := c.terminalStruct t
    let kidx := if s.enterFlag then 0 else s.keyboardIdx
    let kbuf := if s.enterFlag then fun _ => 0 else s.keyboardBuf
    let c1 := c.setTerm t { s with enterFlag := false }
    let c2 := { c1 with vidmemPage := vidmemIndex }
    (if s.enterFlag then done () else copyLogged).bind fun _ =>
      (c2.handleCodeLogged typing tpi code.toNat t c.getCursorX c.getCursorY kidx kbuf).map
        fun c3 => { c3 with vidmemPage := c.vidmemPage }

/-! ## The same functions -/

theorem codeCharLogged_result (c : Console) (code : Nat) :
    (c.codeCharLogged code).result = c.codeChar code := by
  unfold codeCharLogged codeChar
  split
  · rfl
  · split
    · rfl
    · split
      · rfl
      · rfl

theorem writeKeyboardCharLogged_result (c : Console) (code kidx : Nat) (kbuf : Nat → UInt8) :
    (c.writeKeyboardCharLogged typing tpi code kidx kbuf).result =
      c.writeKeyboardChar typing tpi code kidx kbuf := by
  unfold writeKeyboardCharLogged writeKeyboardChar
  split
  · rfl
  · split
    · simp only [result_bind, result_access, result_map, codeCharLogged_result]
    · rfl

theorem backspaceLogged_result (c : Console) (t : Term) (x y kidx : Nat) (kbuf : Nat → UInt8) :
    (c.backspaceLogged t x y kidx kbuf).result = c.backspace t x y kidx kbuf := by
  unfold backspaceLogged
  split
  · rfl
  · rename_i hcond
    rw [backspace, if_neg hcond]
    rfl

theorem upArrowLogged_result (c : Console) (t : Term) (x y : Nat) :
    (c.upArrowLogged typing t x y).result = c.upArrow typing t x y := by
  unfold upArrowLogged upArrow
  dsimp only
  split
  · rfl
  · split
    · rfl
    · rw [result_access]
      split
      · rfl
      · rw [result_bind]
        split
        · rfl
        · rfl

theorem downArrowLogged_result (c : Console) (t : Term) (x y : Nat) :
    (c.downArrowLogged typing t x y).result = c.downArrow typing t x y := by
  unfold downArrowLogged downArrow
  dsimp only
  split
  · rfl
  · split
    · rfl
    · rfl

theorem handleCodeLogged_result (c : Console) (code : Nat) (t : Term) (x y kidx : Nat)
    (kbuf : Nat → UInt8) : (c.handleCodeLogged typing tpi code t x y kidx kbuf).result =
      c.handleCode typing tpi code t x y kidx kbuf := by
  unfold handleCodeLogged
  split
  case h_1 => exact backspaceLogged_result c t x y kidx kbuf
  case h_14 => exact upArrowLogged_result typing c t x y
  case h_15 => exact downArrowLogged_result typing c t x y
  case h_16 =>
    have hclear : c.handleCode typing tpi 0x26 t x y kidx kbuf =
        if c.lctrlPress then c.clearScreen else c.writeKeyboardChar typing tpi 0x26 kidx kbuf := rfl
    rw [hclear]
    split
    · rfl
    · exact writeKeyboardCharLogged_result typing tpi c _ kidx kbuf
  case h_17 =>
    rw [writeKeyboardCharLogged_result]
    unfold handleCode
    split
    case h_17 => rfl
    all_goals contradiction
  all_goals rfl

theorem keyboardHandlerLogged_result (c : Console) (status code : UInt8) :
    (c.keyboardHandlerLogged typing tpi status code).result =
      c.keyboardHandler typing tpi status code := by
  unfold keyboardHandlerLogged keyboardHandler
  split
  · rfl
  · simp only [result_bind, result_map, handleCodeLogged_result]

end Console
end DeviceOS
