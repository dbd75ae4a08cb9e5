import Mathlib.Algebra.Group.Int.Defs
import Mathlib.Algebra.Group.Nat.Defs
import Mathlib.Logic.Function.Basic
import Mathlib.Data.Fin.VecNotation

/-!
# DeviceOS.State

The kernel's data, under the source's names.

* `Proc`: the globals of `system_calls.c` and `pit.c`, the PCBs, the TSS, page directory entry 32
  (the 4 MB program page) and the physical frames it can map.
* `Console`: the globals of `terminal.c`, `lib.c` and `keyboard.c`, the four text pages
  `0xB8000 .. 0xBBFFF`, and the page table entry through which `vidmap` shows them to a program.
* `Mouse`, `Rtc`: the globals of `mouse.c` and `rtc.c`.
* `Ctl`: where the processor is. A kernel thread that `schedule` suspends is found again through
  `program_ESP`/`program_EBP` of a PCB, so a PCB stores the `Ctl` these registers lead back to.

A table of six processes is a function on `Pid`, a table of three terminals one on `Term`. An
`int8_t` that holds `-1` or an index is an `Option`. `uint32_t` counters are `Nat`; a function
that can overflow one says so.
-/

namespace DeviceOS

abbrev Pid := Fin 6
abbrev Term := Fin 3

def kernelDs : Nat := 0x18
/-- `MB4` of `system_calls.h` (it is 8 MB). -/
def mb4 : Nat := 0x800000
/-- `KB4` of `system_calls.h` (it is 8 KB). -/
def kb4 : Nat := 0x2000
def vidmemIndex : Nat := 0xB8
def term1Index : Nat := 0xB9
def maxArgsSize : Nat := 128
def maxBufSize : Nat := 128

/-- The five `fops_t` tables. -/
inductive Fops where
  | rtc | file | dir | read | write
  deriving DecidableEq

/-- `fda_entry_t`. `fopsPtr = none` when nothing ever set the pointer. -/
structure FdaEntry where
  fopsPtr : Option Fops
  inodeNum : Nat
  filePos : Nat
  flags : Bool

/-- ESP and EBP inside a call of `execute`: they lead back to that call's frame. `caller` is the
process that made the call (`none`: the timer interrupt). -/
structure Frame where
  esp : Nat
  ebp : Nat
  caller : Option Pid
  deriving DecidableEq

/-- The statements of `halt` that change something, in the order of the source. -/
inductive HaltPc where
  | mapParent | clearShell | closeFds (i : Nat) | tssEsp0 | tssSs0 | clearMask | typing | popPid
  | setValue | jump
  deriving DecidableEq

/-- The locals of `halt`. -/
structure HaltLocals where
  currPid : Pid
  pidTemp : Option Pid
  status : UInt8
  deriving DecidableEq

/-- Where the loop of `terminal_read` is: at the test of `enter_flag`, before the copy of byte
`i`, or between that copy and the test for NUL. -/
inductive ReadPc where
  | test | copy | check
  deriving DecidableEq

/-- A call of `terminal_read` in progress. `term` is the terminal of `active_term`, which is set
once. `i = none`: the loop variable is not yet set. -/
structure Reader where
  term : Term
  pc : ReadPc
  i : Option Nat
  nbytes : Nat
  buf : Nat → UInt8

/-- Where the processor is: in the idle loop of `entry`, in a user program, inside `halt`, at
`finish_execute` with the stack of `fr` loaded, inside `terminal_read`, or in the loop of
`rtc_read`. Everywhere here interrupts are enabled. The locals kept at `finish_execute` are those of
the `halt` that jumped there; no statement reads them. -/
inductive Ctl where
  | idle
  | user (p : Pid)
  | halting (pc : HaltPc) (l : HaltLocals)
  | finishing (fr : Frame) (l : HaltLocals)
  | reading (p : Pid) (r : Reader)
  | waiting (p : Pid)

/-- `pcb_block_t`. `prev` is `prev_ESP`/`prev_EBP`, `program` is `program_ESP`/`program_EBP`. -/
structure Pcb where
  processid : Nat
  parentid : Option Pid
  tssPrevEsp0 : Nat
  tssPrevSs0 : Nat
  prev : Frame
  prevEip : Nat
  argsArray : Nat → UInt8
  fdarray : Fin 8 → FdaEntry
  tssProgramEsp0 : Nat
  tssProgramSs0 : Nat
  program : Ctl

structure Tss where
  esp0 : Nat
  ss0 : Nat
  deriving DecidableEq

/-- The fields of a page directory entry for a 4 MB page that change after `paging_init`. -/
structure Pde where
  physicalAddress : Nat
  p : Bool
  uS : Bool
  deriving DecidableEq

/-- `pcbArray q` says that `pcb_array[q]` is not NULL; the block itself is at a fixed address.
`progMem f a` is byte `a` of the 4 MB frame `f`. -/
structure Proc where
  haltValue : Int
  shellMask : Pid → Bool
  typingMask : Term → Bool
  pidMask : Pid → Bool
  pidArr : Term → Option Pid
  pcbArray : Pid → Bool
  pcb : Pid → Pcb
  tss : Tss
  pageDirectory32 : Pde
  progMem : Nat → Nat → UInt8
  terminalProcessIndex : Option Term

/-- `terminal_t`. The cursor fields are `int32_t` but only ever assigned a `uint8_t`. -/
structure Terminal where
  keyboardBuf : Nat → UInt8
  keyboardIdx : Nat
  enterFlag : Bool
  cursorX : Nat
  cursorY : Nat
  commandBuf : Nat → Nat → UInt8
  commandIdx : Nat → Nat
  commandPos : Nat

/-- `writeTermIdx`: `none` is 0 (the screen), `some t` is `t + 1` (the saved page of `t`).
`vidmapped`: `page_directory[0]` refers to `vidmap_page_table` instead of `first_page_table`.
`vidmemPage`: `vidmap_page_table[VIDMEM_INDEX].physical_address`. `vram a` is the byte at physical
address `a`; `crtcPos` is the position of the hardware cursor. -/
structure Console where
  curTerminal : Term
  terminalStruct : Term → Terminal
  writeTermIdx : Option Term
  vram : Nat → UInt8
  vidmapped : Bool
  vidmemPage : Nat
  crtcPos : Nat
  shftPress : Bool
  cpslockPress : Bool
  lctrlPress : Bool
  altPress : Bool

structure Mouse where
  mouseX : Nat
  mouseY : Nat
  prevChar : UInt8
  paint : Term → Bool
  rightClick : Bool

/-- `regA` is register A of the device. -/
structure Rtc where
  rtcCounter : Nat
  rtcFrequency : Nat
  rtcInterrupt : Bool
  regA : UInt8

structure Kernel where
  proc : Proc
  con : Console
  mouse : Mouse
  rtc : Rtc

/-- The kernel and the processor. -/
structure Machine where
  kern : Kernel
  ctl : Ctl

def Proc.setPcb (p : Proc) (q : Pid) (b : Pcb) : Proc := { p with pcb := Function.update p.pcb q b }

def Console.setTerm (c : Console) (t : Term) (s : Terminal) : Console :=
  { c with terminalStruct := Function.update c.terminalStruct t s }

/-- The top of the kernel stack of process `q`, as `execute` and `schedule` compute it. -/
def esp0Of (q : Pid) : Nat := mb4 - kb4 * q.val - 4

/-- What `map_program_mem(q)` leaves in page directory entry 32. -/
def pdeOf (q : Pid) : Pde := ⟨2 + q.val, true, true⟩

theorem pdeOf_injective : Function.Injective pdeOf := by
  intro a b h
  have := congrArg Pde.physicalAddress h
  simp only [pdeOf] at this
  exact Fin.ext (by omega)

end DeviceOS
