import DeviceOS.State

/-!
# DeviceOS.Console

`lib.c` and `terminal.c`: output to the text pages and the bookkeeping of the three terminals.

A text cell is two bytes, the character and its attribute. `vmem_Array[write_term_idx]` is the
page that output goes to: video memory, or the saved page of one terminal. Kernel addresses are
virtual: once `vidmap` has replaced the first page table, page `0xB8` is the page in
`vidmap_page_table` (`Console.phys`); the other text pages are always identity mapped.
-/

namespace DeviceOS
namespace Console

def video : Nat := 0xB8000
def vmemTerm (t : Term) : Nat := 0xB9000 + 0x1000 * t.val
def attribArray (t : Term) : UInt8 := ![0xB, 0xD, 0xE] t
def numCols : Nat := 80
def numRows : Nat := 25

def phys (c : Console) (a : Nat) : Nat :=
  if c.vidmapped = true ∧ a / 0x1000 = vidmemIndex then c.vidmemPage * 0x1000 + a % 0x1000 else a

def peek (c : Console) (a : Nat) : UInt8 := c.vram (c.phys a)

def poke (c : Console) (a : Nat) (b : UInt8) : Console :=
  { c with vram := Function.update c.vram (c.phys a) b }

/-- The terminal that output is for: `write_term_idx - 1`, or the displayed one. -/
def target (c : Console) : Term := c.writeTermIdx.getD c.curTerminal

/-- `vmem_Array[write_term_idx]`. -/
def videoMem (c : Console) : Nat :=
  match c.writeTermIdx with
  | none => video
  | some t => vmemTerm t

def attrib (c : Console) : UInt8 := attribArray c.target

def getCursorX (c : Console) : Nat := (c.terminalStruct c.target).cursorX
def getCursorY (c : Console) : Nat := (c.terminalStruct c.target).cursorY

/-- The arguments are `uint8_t`. -/
def updateTermStruct (c : Console) (x y : Nat) : Console :=
  c.setTerm c.target { c.terminalStruct c.target with cursorX := x % 256, cursorY := y % 256 }

def setCursor (c : Console) (x y : Nat) : Console :=
  let c1 :=
    match c.writeTermIdx with
    | none => { c with crtcPos := y % 256 * numCols + x % 256 }
    | some _ => c
  c1.updateTermStruct x y

/-- The two stores that fill text cell `i` of the page that output goes to. -/
def putCell (c : Console) (i : Nat) (ch attr : UInt8) : Console :=
  (c.poke (c.videoMem + 2 * i) ch).poke (c.videoMem + 2 * i + 1) attr

/-- The two assignments that copy text cell `j` to text cell `i`. -/
def copyCell (c : Console) (i j : Nat) : Console :=
  let c1 := c.poke (c.videoMem + 2 * i) (c.peek (c.videoMem + 2 * j))
  c1.poke (c.videoMem + 2 * i + 1) (c1.peek (c.videoMem + 2 * j + 1))

def shiftScreen (c : Console) : Console :=
  let c1 := (List.range ((numRows - 1) * numCols)).foldl (fun d i => d.copyCell i (i + numCols)) c
  let c2 := (List.range numCols).foldl
    (fun d i => d.putCell ((numRows - 1) * numCols + i) 32 c.attrib) c1
  c2.setCursor 0 24

/-- The last three lines of `putc`. -/
def advance (c : Console) (x y : Nat) : Console :=
  c.setCursor (x % numCols) ((y + x % numCols / numCols) % numRows)

def putc (c : Console) (ch : UInt8) : Console :=
  let x := c.getCursorX
  let y := c.getCursorY
  if ch = 10 ∨ ch = 13 then
    if y + 1 > 24 then c.shiftScreen else c.advance 0 (y + 1)
  else
    let c1 := c.putCell (numCols * y + x) ch c.attrib
    if x + 1 > 79 then
      if y + 1 > 24 then c1.shiftScreen else c1.advance (x + 1) (y + 1)
    else c1.advance (x + 1) y

/-- `puts` on a 128-byte row: up to its first NUL. -/
def puts (c : Console) (row : Nat → UInt8) : Console :=
  (((List.range maxBufSize).map row).takeWhile (· ≠ 0)).foldl putc c

def clear (c : Console) : Console :=
  (List.range (numRows * numCols)).foldl (fun d i => d.putCell i 32 c.attrib) c

def clearScreen (c : Console) : Console := c.clear.setCursor 0 0

/-- `memcpy` between two different text pages. -/
def memcpyPage (c : Console) (dst src : Nat) : Console :=
  { c with vram := fun a =>
      if c.phys dst ≤ a ∧ a < c.phys dst + 0x1000 then c.vram (c.phys src + (a - c.phys dst))
      else c.vram a }

/-- `TERM1_INDEX + terminal_process_index`, where the index may still be -1. -/
def termPage (tpi : Option Term) : Nat :=
  match tpi with
  | none => term1Index - 1
  | some t => term1Index + t.val

def switchTerminal (tpi : Option Term) (c : Console) (keycode : Nat) : Console :=
  if h : (keycode + 256 - 0x3B) % 256 < 3 then
    let n : Term := ⟨(keycode + 256 - 0x3B) % 256, h⟩
    let c1 := { c with vidmemPage := vidmemIndex }
    let c2 := c1.memcpyPage (vmemTerm c.curTerminal) video
    let c3 := c2.memcpyPage video (vmemTerm n)
    let c4 := if tpi ≠ some n then { c3 with vidmemPage := termPage tpi } else c3
    let c5 := { c4 with curTerminal := n }
    c5.setCursor (c.terminalStruct n).cursorX (c.terminalStruct n).cursorY
  else c

def terminalWrite (tpi : Option Term) (c : Console) (bytes : List UInt8) : Console :=
  let c1 := if tpi ≠ some c.curTerminal then { c with writeTermIdx := tpi } else c
  let c2 := bytes.foldl (fun d b => if b = 0 then d else d.putc b) c1
  { c2 with writeTermIdx := none }

end Console

/-! ## `terminal_read` -/

namespace Terminal

/-- The ten history rows after the line is entered: rows 9 to 2 take the row before them, row 1
the line, row 0 is emptied. -/
def pushHistory (s : Terminal) : Terminal :=
  let rows := [9, 8, 7, 6, 5, 4, 3, 2]
  let buf := rows.foldl (fun b k => Function.update b k (b (k - 1))) s.commandBuf
  let idx := rows.foldl (fun b k => Function.update b k (b (k - 1))) s.commandIdx
  { s with
    commandBuf := Function.update (Function.update buf 1 s.keyboardBuf) 0 fun _ => 0
    commandIdx := Function.update (Function.update idx 1 s.keyboardIdx) 0 0
    commandPos := 0 }

/-- The statements of `terminal_read` after the newline is stored. -/
def finishRead (s : Terminal) (shell : Bool) : Terminal :=
  let s1 := if shell then s.pushHistory else s
  { s1 with keyboardBuf := fun _ => 0, keyboardIdx := 0, enterFlag := false }

end Terminal

/-- What one statement of the loop of `terminal_read` does: it goes on, leaves the loop with the
newline stored and `i + 1` to be returned, or has no defined effect (`i` never set, or
`keyboard_buf` read past its 128 bytes). -/
inductive ReadStep where
  | more (r : Reader)
  | done (buf : Nat → UInt8) (ret : Nat)
  | wild

namespace Reader

def start (t : Term) (nbytes : Nat) (buf : Nat → UInt8) : Reader := ⟨t, .test, none, nbytes, buf⟩

/-- `for (i = ...; i < nbytes; ...)`: into the body, or back to `while (!enter_flag)`. -/
def atLoop (r : Reader) (i : Nat) : Reader :=
  { r with i := some i, pc := if i < r.nbytes then .copy else .test }

/-- `s` is `*active_term`. -/
def step (s : Terminal) (r : Reader) : ReadStep :=
  match r.pc, r.i with
  | .test, i? =>
    if s.enterFlag then
      match i? with
      | none => .wild
      | some i => .done (Function.update r.buf i 10) (i + 1)
    else .more (r.atLoop 0)
  | _, none => .wild
  | .copy, some i =>
    if i < maxBufSize then
      .more { r with pc := .check, buf := Function.update r.buf i (s.keyboardBuf i) }
    else .wild
  | .check, some i =>
    if s.keyboardBuf i = 0 then .more { r with pc := .test } else .more (r.atLoop (i + 1))

end Reader

end DeviceOS
