import DeviceOS.Syscalls

/-!
# DeviceOS.Halt

`halt`. Vector 0x80 is a trap gate, so interrupts stay enabled inside `halt` and the timer can
fire between any two of its statements. `HaltPc.exec` is one statement; `halt` runs them all.

`finish_execute` is a label inside `execute`. `halt` gets there with ESP and EBP of the `execute`
that started the process, so what follows is the end of that call: `return halt_value`.
-/

namespace DeviceOS

namespace Proc

def clearShell (p : Proc) (c : Pid) : Proc :=
  { p with shellMask := if p.shellMask c then Function.update p.shellMask c false else p.shellMask }

def restoreEsp0 (p : Proc) (c : Pid) : Proc :=
  { p with tss := { p.tss with esp0 := (p.pcb c).tssPrevEsp0 } }

def restoreSs0 (p : Proc) (c : Pid) : Proc :=
  { p with tss := { p.tss with ss0 := (p.pcb c).tssPrevSs0 } }

def clearMask (p : Proc) (c : Pid) : Proc :=
  { p with pidMask := Function.update p.pidMask c false }

def allowTyping (p : Proc) (t : Term) : Proc :=
  { p with typingMask := Function.update p.typingMask t true }

def popPid (p : Proc) (t : Term) (parent : Option Pid) : Proc :=
  { p with pidArr := Function.update p.pidArr t parent }

end Proc

namespace Kernel

/-- The first statements of `halt`, up to the test for a base shell. A base shell is entered
again at its first instruction; nothing changes. -/
def haltEntry (k : Kernel) (status : UInt8) : Option (Kernel × Ctl) :=
  k.currPid.bind fun c =>
    if k.proc.pcbArray c = false then none
    else if c.val < 3 then some (k, .user c)
    else some (k, .halting .mapParent ⟨c, (k.proc.pcb c).parentid, status⟩)

end Kernel

/-- One statement of `halt`. -/
def HaltPc.exec (l : HaltLocals) (k : Kernel) : HaltPc → Option (Kernel × Ctl)
  | .mapParent =>
    match l.pidTemp with
    -- the jump to `finish_execute` leaves the stack as it is, so this call of `halt` returns
    | none => some (k.onProc fun p => { p with haltValue := -1 }, .user l.currPid)
    | some q => some (k.onProc (·.mapProgramMem q), .halting .clearShell l)
  | .clearShell => some (k.onProc (·.clearShell l.currPid), .halting (.closeFds 2) l)
  | .closeFds i =>
    (k.close i).map fun r => (r.2, .halting (if i + 1 < 8 then .closeFds (i + 1) else .tssEsp0) l)
  | .tssEsp0 => some (k.onProc (·.restoreEsp0 l.currPid), .halting .tssSs0 l)
  | .tssSs0 => some (k.onProc (·.restoreSs0 l.currPid), .halting .clearMask l)
  | .clearMask => some (k.onProc (·.clearMask l.currPid), .halting .typing l)
  | .typing => k.proc.terminalProcessIndex.map fun t =>
      (k.onProc (·.allowTyping t), .halting .popPid l)
  | .popPid => k.proc.terminalProcessIndex.map fun t =>
      (k.onProc (·.popPid t l.pidTemp), .halting .setValue l)
  | .setValue =>
    some (k.onProc fun p => { p with haltValue := l.status.toNat }, .halting .jump l)
  | .jump => some (k, .finishing (k.proc.pcb l.currPid).prev l)

/-- From `finish_execute` back to the program that called `execute`. -/
def finishExecute (k : Kernel) (fr : Frame) : Option (Kernel × Ctl) :=
  fr.caller.map fun q => (k, .user q)

/-- At most `n` statements of `halt` one after another. -/
def runHalt : Nat → Kernel → Ctl → Option (Kernel × Ctl)
  | n + 1, k, .halting pc l => (pc.exec l k).bind fun r => runHalt n r.1 r.2
  | n + 1, k, .finishing fr _ => (finishExecute k fr).bind fun r => runHalt n r.1 r.2
  | _, k, ctl => some (k, ctl)

/-- `halt` without interruption: 15 statements and the return at `finish_execute`. -/
def halt (k : Kernel) (status : UInt8) : Option (Kernel × Ctl) :=
  (k.haltEntry status).bind fun r => runHalt 16 r.1 r.2

end DeviceOS
