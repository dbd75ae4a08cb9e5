import DeviceOS.Syscalls

/-!
# DeviceOS.Pit

`pit.c`: the timer interrupt, which moves the processor to the next terminal.
-/

namespace DeviceOS
namespace Kernel

/-- `pid_arr[t] != -1 && shell_mask[pid_arr[t]] && cur_terminal != t`: a shell that is not
displayed is passed over. -/
def passedOver (k : Kernel) (t : Term) : Bool :=
  match k.proc.pidArr t with
  | none => false
  | some q => k.proc.shellMask q && k.con.curTerminal ≠ t

/-- The loop of `pit_handler`: from `t` with at most `n` turns, the terminal to schedule; `none`
when the search is back at `start`. -/
def search (k : Kernel) (start : Option Term) : Nat → Term → Option Term
  | 0, _ => none
  | n + 1, t =>
    if some t = start then none
    else if k.passedOver t then k.search start n (t + 1)
    else some t

/-- `(terminal_process_index + 1) % 3`. -/
def nextTerm (start : Option Term) : Term :=
  match start with
  | none => 0
  | some s => s + 1

/-- The first part of `schedule`: the interrupted context is stored in the PCB of the terminal
that was running. `none`: that terminal has no process, so there is no PCB to store it in. -/
def saveContext (k : Kernel) (ctl : Ctl) (prevIdx : Option Term) : Option Kernel :=
  match prevIdx with
  | none => some k
  | some s =>
    (k.proc.pidArr s).map fun q =>
      k.onProc fun p => p.setPcb q { p.pcb q with
        program := ctl
        tssProgramEsp0 := p.tss.esp0
        tssProgramSs0 := p.tss.ss0 }

/-- `schedule`, once `terminal_process_index` is `t`: it starts a base shell on a terminal with no
process, or resumes the process of the terminal. -/
def schedule (img : Image) (k : Kernel) (ctl : Ctl) (prevIdx : Option Term) (t : Term)
    (regs : Frame) : Option (Kernel × Ctl) :=
  (k.saveContext ctl prevIdx).bind fun k1 =>
    match k1.proc.pidArr t with
    | none =>
      match k1.proc.execute img k1.con.curTerminal (some shellName) regs with
      | .ret _ p => some ({ k1 with proc := p }, ctl)
      | .enter q p => some ({ k1 with proc := p }, .user q)
      | .fault _ => none
    | some q =>
      if k1.proc.pcbArray q = false then none
      else
        let p := { k1.proc.mapProgramMem q with tss := ⟨esp0Of q, kernelDs⟩ }
        let page := if t ≠ k1.con.curTerminal then term1Index + t.val else vidmemIndex
        some ({ k1 with proc := p, con := { k1.con with vidmemPage := page } },
          (k1.proc.pcb q).program)

/-- `pit_handler`, interrupting `ctl`. -/
def pitHandler (img : Image) (k : Kernel) (ctl : Ctl) (regs : Frame) : Option (Kernel × Ctl) :=
  let start := k.proc.terminalProcessIndex
  match k.search start 3 (nextTerm start) with
  | none => some (k, ctl)
  | some t =>
    let k1 := { k with proc := { k.proc with terminalProcessIndex := some t } }
    k1.schedule img ctl start t regs

end Kernel
end DeviceOS
