import DeviceOS.Console

/-!
# DeviceOS.Keyboard

`keyboard.c`. `keyboardHandler` is one keyboard interrupt: interrupts are off from its first
statement to its last, so it is one step.

The handler works on a local copy of the line (`kidx`, `kbuf`), which is empty when `enter_flag`
was set. It points page `0xB8` of `vidmap_page_table` at video memory while it draws and puts the
saved entry back at the end, whatever `switch_terminal` stored there in between.
-/

namespace DeviceOS
namespace Console

def lowercaseCodeTable : List UInt8 :=
  [0, 0, 49, 50, 51, 52, 53, 54, 55, 56, 57, 48, 45, 61, 0, 0, 113, 119, 101, 114, 116, 121,
   117, 105, 111, 112, 91, 93, 10, 17, 97, 115, 100, 102, 103, 104, 106, 107, 108, 59, 39, 96,
   15, 92, 122, 120, 99, 118, 98, 110, 109, 44, 46, 47, 0, 0, 0, 32]

def capslockCodeTable : List UInt8 :=
  [0, 0, 49, 50, 51, 52, 53, 54, 55, 56, 57, 48, 45, 61, 0, 0, 81, 87, 69, 82, 84, 89, 85, 73,
   79, 80, 91, 93, 10, 17, 65, 83, 68, 70, 71, 72, 74, 75, 76, 59, 39, 96, 15, 92, 90, 88, 67,
   86, 66, 78, 77, 44, 46, 47, 0, 0, 0, 32]

def shiftCodeTable : List UInt8 :=
  [0, 0, 33, 64, 35, 36, 37, 94, 38, 42, 40, 41, 95, 43, 0, 0, 81, 87, 69, 82, 84, 89, 85, 73,
   79, 80, 123, 125, 10, 17, 65, 83, 68, 70, 71, 72, 74, 75, 76, 58, 34, 126, 15, 124, 90, 88,
   67, 86, 66, 78, 77, 60, 62, 63, 0, 0, 0, 32]

def capsshiftCodeTable : List UInt8 :=
  [0, 0, 33, 64, 35, 36, 37, 94, 38, 42, 40, 41, 95, 43, 0, 0, 113, 119, 101, 114, 116, 121,
   117, 105, 111, 112, 123, 125, 10, 17, 97, 115, 100, 102, 103, 104, 106, 107, 108, 58, 34,
   126, 15, 124, 122, 120, 99, 118, 98, 110, 109, 60, 62, 63, 0, 0, 0, 32]

/-- The character that `write_keyboard_char` echoes and stores for a scan code. -/
def codeChar (c : Console) (code : Nat) : UInt8 :=
  if c.shftPress && c.cpslockPress then capsshiftCodeTable.getD code 0
  else if c.shftPress then shiftCodeTable.getD code 0
  else if c.cpslockPress then capslockCodeTable.getD code 0
  else lowercaseCodeTable.getD code 0

/-- The conversion of an `int` to `uint8_t`. -/
def u8 (z : Int) : Nat := (z % 256).toNat

variable (typing : Term → Bool) (tpi : Option Term)

def writeKeyboardChar (c : Console) (code kidx : Nat) (kbuf : Nat → UInt8) : Console :=
  if (code = 0x3B ∨ code = 0x3C ∨ code = 0x3D) ∧ c.altPress = true then c.switchTerminal tpi code
  else if code < 0x3A ∧ kidx < 72 ∧ typing c.curTerminal = true then
    let ch := c.codeChar code
    let c1 := c.putc ch
    c1.setTerm c1.curTerminal { c1.terminalStruct c1.curTerminal with
      keyboardIdx := kidx + 1
      keyboardBuf := Function.update kbuf kidx ch }
  else c

def backspace (c : Console) (t : Term) (x y kidx : Nat) (kbuf : Nat → UInt8) : Console :=
  if kidx > 0 ∧ (x > 0 ∨ y > 0) then
    let x1 := if x = 0 then 79 else x - 1
    let y1 := if x = 0 then y - 1 else y
    let c1 := (c.updateTermStruct x1 y1).putc 32
    let s := c1.terminalStruct t
    -- row 0 of the history gets the local copy, which still holds the deleted character
    let c2 := c1.setTerm t { s with
      keyboardBuf := Function.update s.keyboardBuf (kidx - 1) 0
      keyboardIdx := kidx - 1
      commandBuf := Function.update s.commandBuf 0 kbuf
      commandIdx := Function.update s.commandIdx 0 (kidx - 1) }
    c2.setCursor x1 y1
  else c

/-- The part that the two arrows share: blank out `erase` cells, draw history row `pos`, and copy
it to the line. -/
def redraw (c : Console) (t : Term) (x y erase pos : Nat) : Console :=
  let c1 := c.setCursor (u8 (x - erase)) y
  let c2 := (List.range erase).foldl (fun d _ => d.putc 32) c1
  let c3 := c2.setCursor (u8 (x - (c.terminalStruct t).keyboardIdx)) y
  let c4 := c3.puts ((c.terminalStruct t).commandBuf pos)
  let s := c4.terminalStruct t
  c4.setTerm t { s with keyboardBuf := s.commandBuf pos, keyboardIdx := s.commandIdx pos }

def upArrow (c : Console) (t : Term) (x y : Nat) : Console :=
  let s := c.terminalStruct t
  if typing c.curTerminal = false then c
  else if s.commandPos ≥ 9 then c.setTerm t { s with commandPos := 9 }
  else if s.commandIdx (s.commandPos + 1) = 0 then c
  else
    let s1 := { s with commandPos := s.commandPos + 1 }
    -- leaving the draft: it is saved in row 0
    let s2 := if s1.commandPos = 1 then
        { s1 with
          commandBuf := Function.update s1.commandBuf 0 s1.keyboardBuf
          commandIdx := Function.update s1.commandIdx 0 s1.keyboardIdx }
      else s1
    (c.setTerm t s2).redraw t x y (s2.commandIdx (s2.commandPos - 1)) s2.commandPos

def downArrow (c : Console) (t : Term) (x y : Nat) : Console :=
  let s := c.terminalStruct t
  if typing c.curTerminal = false then c
  else if s.commandPos = 0 then c
  else
    let s1 := { s with commandPos := s.commandPos - 1 }
    (c.setTerm t s1).redraw t x y (s1.commandIdx s.commandPos) s1.commandPos

def enterKey (c : Console) (t : Term) (y : Nat) : Console :=
  if typing c.curTerminal = false then c
  else
    let c1 := if y = 24 then c.shiftScreen else c.putc 10
    c1.setTerm t { c1.terminalStruct t with enterFlag := true }

/-- The `switch` of `keyboard_handler`. -/
def handleCode (c : Console) (code : Nat) (t : Term) (x y kidx : Nat) (kbuf : Nat → UInt8) :
    Console :=
  match code with
  | 0x0E => c.backspace t x y kidx kbuf
  | 0x0F => (((c.putc 32).putc 32).putc 32).putc 32
  | 0x2A => { c with shftPress := true }
  | 0x36 => { c with shftPress := true }
  | 0x3A => { c with cpslockPress := !c.cpslockPress }
  | 0xAA => { c with shftPress := false }
  | 0xB6 => { c with shftPress := false }
  | 0x1D => { c with lctrlPress := true }
  | 0x9D => { c with lctrlPress := false }
  | 0x37 => c
  | 0x38 => { c with altPress := true }
  | 0xB8 => { c with altPress := false }
  | 0x1C => c.enterKey typing t y
  | 0x48 => c.upArrow typing t x y
  | 0x50 => c.downArrow typing t x y
  | 0x26 => if c.lctrlPress then c.clearScreen else c.writeKeyboardChar typing tpi code kidx kbuf
  | _ => c.writeKeyboardChar typing tpi code kidx kbuf

/-- One run of `keyboard_handler`; `status` and `code` are what it reads from the two ports. -/
def keyboardHandler (c : Console) (status code : UInt8) : Console :=
  if status = 0 then c
  else
    let t := c.curTerminal
    let s := c.terminalStruct t
    let kidx := if s.enterFlag then 0 else s.keyboardIdx
    let kbuf := if s.enterFlag then fun _ => 0 else s.keyboardBuf
    let c1 := c.setTerm t { s with enterFlag := false }
    let c2 := { c1 with vidmemPage := vidmemIndex }
    let c3 := c2.handleCode typing tpi code.toNat t c.getCursorX c.getCursorY kidx kbuf
    { c3 with vidmemPage := c.vidmemPage }

end Console
end DeviceOS
