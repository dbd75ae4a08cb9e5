import DeviceOS.Console

/-!
# DeviceOS.Mouse

`mouse_handler`: one mouse interrupt, from a packet of three bytes. Interrupts are off, so it is
one step. A right click on a shell turns the paint mode of the displayed terminal on or off; every
packet moves the pointer, which is a character on the screen.
-/

namespace DeviceOS

structure Packet where
  status : UInt8
  deltaX : UInt8
  deltaY : UInt8

namespace Kernel

/-- `delta - ((status << s) & 0x100)`, divided by 4; `sign` is the sign bit in `status`. -/
def relative (status sign delta : UInt8) : Int :=
  ((delta.toNat : Int) - if status &&& sign = 0 then 0 else 0x100).tdiv 4

/-- The sum of a `uint32_t` and an `int32_t`, clamped as an `int32_t`. -/
def moveTo (old : Nat) (rel : Int) (limit : Nat) : Nat :=
  let z := Int.bmod (old + rel) (2 ^ 32)
  if z < 0 then 0 else if (limit : Int) < z then limit else z.toNat

/-- The first click of the right button on a shell: to or from the paint mode. The flag of the
result is `paint_flag`. -/
def togglePaint (k : Kernel) : Kernel × Bool :=
  let t := k.con.curTerminal
  let on := k.mouse.paint t
  let c1 := k.con.clearScreen
  let c2 := if on then c1.setTerm t { c1.terminalStruct t with enterFlag := true } else c1
  ({ k with
      con := c2
      mouse := { k.mouse with prevChar := 32, paint := Function.update k.mouse.paint t !on }
      proc := { k.proc with typingMask := Function.update k.proc.typingMask t on } }, !on)

/-- `none`: the displayed terminal has no process, so `shell_mask` is read at index 255. -/
def rightButton (k : Kernel) (status : UInt8) : Option (Kernel × Bool) :=
  if status &&& 2 = 0 then
    some ({ k with mouse := { k.mouse with rightClick := false } }, false)
  else
    (if k.mouse.rightClick then some (k, false)
      else (k.proc.pidArr k.con.curTerminal).map fun q =>
        if k.proc.shellMask q then k.togglePaint else (k, false)).map
      fun r => ({ r.1 with mouse := { r.1.mouse with rightClick := true } }, r.2)

/-- The address of the character cell at `x`, `y` on the screen. -/
def pointerCell (x y : Nat) : Nat := Console.video + 2 * (Console.numCols * y + x)

/-- The stores through `vmem_Array[0]`, with page `0xB8` of `vidmap_page_table` set to video
memory. -/
def drawPointer (k : Kernel) (status : UInt8) (newX newY : Nat) (paintFlag : Bool) : Kernel :=
  let m := k.mouse
  let old := pointerCell m.mouseX m.mouseY
  let new := pointerCell newX newY
  let c := { k.con with vidmemPage := vidmemIndex }
  let r : Console × UInt8 :=
    if m.paint c.curTerminal ∧ status &&& 1 ≠ 0 then ((c.poke old 0xDB).poke new 0xDB, m.prevChar)
    else
      let c1 := c.poke old (if m.prevChar = 0 then 83 else m.prevChar)
      (c1.poke new 0xDB, c1.peek new)
  let c2 := if paintFlag then
      [(0, 80), (1, 65), (2, 73), (3, 78), (4, 84)].foldl
        (fun d (p : Nat × UInt8) => d.poke (pointerCell p.1 0) p.2) r.1
    else r.1
  { k with
    con := { c2 with vidmemPage := k.con.vidmemPage }
    mouse := { m with prevChar := r.2, mouseX := newX, mouseY := newY } }

def mouseHandler (k : Kernel) (p : Packet) : Option Kernel :=
  let t := k.con.curTerminal
  if p.status &&& 0xC0 ≠ 0 then some k
  else if k.proc.typingMask t = false ∧ k.mouse.paint t = false then some k
  else
    let newX := moveTo k.mouse.mouseX (relative p.status 0x10 p.deltaX) 79
    let newY := moveTo k.mouse.mouseY (-relative p.status 0x20 p.deltaY) 24
    (k.rightButton p.status).map fun r => r.1.drawPointer p.status newX newY r.2

end Kernel
end DeviceOS
