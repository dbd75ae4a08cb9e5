import DeviceOS.State
import DeviceOS.FileSystem

/-!
# DeviceOS.Execute

`execute` with what it calls: the parser of the command, `create_pcb`, `map_program_mem`,
`load_program_image` and `copy_program_image`.

`execute` runs with interrupts off from its first statement until the `iret` that enters the
program, so it is one step. Everything up to the ELF check reads only the image and the command
(`findProgram`); the process tables change from `create_pcb` on.
-/

namespace DeviceOS

/-! ## The command -/

/-- The locals of the parser. The arrays are not initialised in the source; no byte of them is
read before it is stored. -/
structure Parse where
  parse : Nat
  fnamend : Nat
  argflag : Bool
  filename : Nat → UInt8
  arguments : Nat → UInt8

/-- A store to a local array of `size` bytes. -/
def storeLocal (size : Nat) (a : Nat → UInt8) (i : Nat) (c : UInt8) : Except Fault (Nat → UInt8) :=
  if i < size then .ok (Function.update a i c) else .error .localArray

def Parse.storeChar (st : Parse) (c : UInt8) : Except Fault Parse :=
  if st.argflag then
    (storeLocal maxArgsSize st.arguments (st.parse - st.fnamend) c).map fun a =>
      { st with arguments := a, parse := st.parse + 1 }
  else
    (storeLocal (filenameLen + 1) st.filename st.parse c).map fun a =>
      { st with filename := a, parse := st.parse + 1 }

/-- The `while` loop of the parser on the rest of the command. -/
def parseLoop : CString → Parse → Except Fault Parse
  | [], st => .ok st
  | c :: cs, st =>
    if c = 0 then .ok st
    else if c = 32 ∧ st.argflag = false then
      (storeLocal (filenameLen + 1) st.filename st.parse 0).bind fun a =>
        parseLoop cs { st with
          filename := a, argflag := true, parse := st.parse + 1, fnamend := st.parse + 1 }
    else
      (st.storeChar c).bind fun st1 =>
        if st1.parse = filenameLen ∧ st1.argflag = false then .ok st1 else parseLoop cs st1

def parseCommand (cmd : CString) : Except Fault Parse :=
  (parseLoop cmd ⟨0, 0, false, fun _ => 0, fun _ => 0⟩).bind fun st =>
    (if st.argflag then .ok st.filename
      else storeLocal (filenameLen + 1) st.filename st.parse 0).bind fun f =>
        (storeLocal maxArgsSize st.arguments (st.parse - st.fnamend) 0).map fun a =>
          { st with filename := f, arguments := a }

/-- The string in an array of `n` bytes. -/
def cstr (n : Nat) (a : Nat → UInt8) : CString := ((List.range n).map a).takeWhile (· ≠ 0)

def shellName : CString := [115, 104, 101, 108, 108]
def pingpongName : CString := [112, 105, 110, 103, 112, 111, 110, 103]
def fishName : CString := [102, 105, 115, 104]
def elfMagic : List UInt8 := [0x7F, 0x45, 0x4C, 0x46]

/-- What `execute` has found out before it creates the PCB. -/
structure Program where
  inode : Nat
  eip : Nat
  arguments : Nat → UInt8
  shellFlag : Bool
  typingFlag : Bool

def leNat (bytes : List UInt8) : Nat := bytes.foldr (fun b n => b.toNat + 256 * n) 0

/-- `execute` from the parser to the ELF check; `ok none` is a return of -1. -/
def findProgram (img : Image) (cmd : CString) : Except Fault (Option Program) :=
  (parseCommand cmd).bind fun st =>
    let fname := cstr (filenameLen + 1) st.filename
    let shell := fname.strncmpEq shellName 6 0
    let noTyping := fname.strncmpEq pingpongName 9 0 || fname.strncmpEq fishName 5 0
    (img.readDentryByName fname).bind fun
      | none => .ok none
      | some entry =>
        let inode := entry.inodeNum.toNat
        (img.readData inode 0 4).bind fun header =>
          if header.ret ≠ 4 then .ok none
          else (img.readData inode 24 4).bind fun eip =>
            if eip.ret ≠ 4 then .ok none
            else if header.bytes ≠ elfMagic then .ok none
            else .ok (some ⟨inode, leNat eip.bytes, st.arguments, shell, shell || !noTyping⟩)

namespace Proc

/-! ## Program memory -/

/-- `map_program_mem` with a pid that is not negative. -/
def mapProgramMem (p : Proc) (q : Pid) : Proc := { p with pageDirectory32 := pdeOf q }

/-- A kernel store of one byte to user address `a`: page directory entry 32 maps the 4 MB from
`0x08000000`, and nothing else maps user addresses. -/
def storeByte (p : Proc) (a : Nat) (b : UInt8) : Option Proc :=
  let f := p.pageDirectory32.physicalAddress
  if 0x8000000 ≤ a ∧ a < 0x8400000 ∧ p.pageDirectory32.p = true then
    some { p with
      progMem := Function.update p.progMem f (Function.update (p.progMem f) (a - 0x8000000) b) }
  else none

def storeBytes (p : Proc) : Nat → List UInt8 → Option Proc
  | _, [] => some p
  | a, b :: bs => (p.storeByte a b).bind fun p1 => p1.storeBytes (a + 1) bs

def loadProgramImage (p : Proc) (offset : Nat) (buf : List UInt8) : Option Proc :=
  p.storeBytes (offset + 0x8048000) buf

def fileBufSize : Nat := 64

/-- The loop of `copy_program_image`, for at most `n` calls of `read_data`. -/
def copyLoop (img : Image) (inode : Nat) : Nat → Nat → Proc → Except Fault (Int × Proc)
  | 0, _, _ => .error .noProgress
  | n + 1, offset, p =>
    (img.readData inode offset fileBufSize).bind fun r =>
      if r.ret = 0 then .ok (0, p)
      else if r.ret = -1 then .ok (-1, p)
      else
        match p.loadProgramImage offset r.bytes with
        | none => .error .pageFault
        | some p1 => copyLoop img inode n (offset + r.ret.toNat) p1

/-- 65536 calls are enough for every inode: the loop ends at block slot 953 at the latest. -/
def copyProgramImage (img : Image) (inode : Nat) (p : Proc) : Except Fault (Int × Proc) :=
  p.copyLoop img inode 65536 0

/-! ## `execute` -/

/-- The first slot of `pid_mask` that is 0. -/
def freePid (p : Proc) : Option Pid := (List.finRange 6).find? fun q => !p.pidMask q

/-- `create_pcb` with a pid that is not negative; `cur` is `cur_terminal`. -/
def createPcb (p : Proc) (cur : Term) (q : Pid) : Proc :=
  let b := p.pcb q
  let fd (w : Fin 8) : FdaEntry :=
    if w.val = 0 then ⟨some .read, 0, 0, true⟩
    else if w.val = 1 then ⟨some .write, 0, 0, true⟩
    else { b.fdarray w with flags := false }
  { p with
    pcb := Function.update p.pcb q { b with
      parentid := if q.val < 3 then some q else p.pidArr cur
      processid := q.val
      tssPrevEsp0 := 0
      tssPrevSs0 := 0
      prev := ⟨0, 0, none⟩
      argsArray := fun i => if i < maxArgsSize then 0 else b.argsArray i
      fdarray := fd }
    pcbArray := Function.update p.pcbArray q true }

/-- `while (arguments[i] != 0) args_array[i] = arguments[i++]`, with `n` bytes left. -/
def copyArgs (src : Nat → UInt8) : Nat → Nat → (Nat → UInt8) → Nat → UInt8
  | 0, _, dst => dst
  | n + 1, i, dst => if src i = 0 then dst else copyArgs src n (i + 1) (Function.update dst i (src i))

/-- The entry of `pid_arr` that `execute` sets. -/
def pidSlot (cur : Term) (q : Pid) : Term := if h : q.val < 3 then ⟨q.val, h⟩ else cur

/-- `execute` after the program image is loaded, up to the `iret`. -/
def launch (p : Proc) (cur : Term) (q : Pid) (prog : Program) (regs : Frame) : Proc :=
  let b := p.pcb q
  { p with
    pcb := Function.update p.pcb q { b with
      argsArray := copyArgs prog.arguments maxArgsSize 0 b.argsArray
      prev := regs
      tssPrevEsp0 := p.tss.esp0
      tssPrevSs0 := p.tss.ss0
      prevEip := prog.eip }
    tss := ⟨esp0Of q, kernelDs⟩
    shellMask := if prog.shellFlag then Function.update p.shellMask q true else p.shellMask
    typingMask := Function.update p.typingMask cur prog.typingFlag
    pidMask := Function.update p.pidMask q true
    pidArr := Function.update p.pidArr (pidSlot cur q) (some q) }

/-- How `execute` ends: it returns to its caller, enters the program of `child`, or faults. -/
inductive ExecResult where
  | ret (v : Int) (p : Proc)
  | enter (child : Pid) (p : Proc)
  | fault (f : Fault)

/-- `execute`; `regs` are ESP and EBP when it stores them. -/
def execute (img : Image) (cur : Term) (p : Proc) (command : Option CString) (regs : Frame) :
    ExecResult :=
  match p.freePid, command with
  | some q, some cmd =>
    match findProgram img cmd with
    | .error f => .fault f
    | .ok none => .ret (-1) p
    | .ok (some prog) =>
      match ((p.createPcb cur q).mapProgramMem q).copyProgramImage img prog.inode with
      | .error f => .fault f
      | .ok (v, p1) => if v = -1 then .ret (-1) p1 else .enter q (p1.launch cur q prog regs)
  | _, _ => .ret (-1) p

end Proc
end DeviceOS
