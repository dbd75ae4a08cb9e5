import DeviceOS.ConsoleCalls

/-!
# DeviceOS.ScreenBlind

The kernel draws on the screen and does not look at it. Whatever is on the text pages, and wherever
the mouse is, an event that draws nothing does the same.

* `Kernel.withScreen`: a kernel with other text pages and another mouse.
* `Machine.DrawsNothing`: an event that is not a key, a packet or a `write`.
* `Machine.step_withScreen`: such an event commutes with the exchange of the text pages and the
  mouse.
-/

namespace DeviceOS

abbrev Console.withVram (c : Console) (v : Nat → UInt8) : Console := { c with vram := v }

namespace Kernel

abbrev withScreen (k : Kernel) (v : Nat → UInt8) (mo : Mouse) : Kernel :=
  { k with con := k.con.withVram v, mouse := mo }

variable {img : Image} {v : Nat → UInt8} {mo : Mouse}

@[simp] theorem withScreen_proc (k : Kernel) : (k.withScreen v mo).proc = k.proc := rfl

@[simp] theorem withScreen_currPid (k : Kernel) : (k.withScreen v mo).currPid = k.currPid := rfl

@[simp] theorem withScreen_setFd (k : Kernel) (q : Pid) (w : Fin 8) (e : FdaEntry) :
    (k.withScreen v mo).setFd q w e = (k.setFd q w e).withScreen v mo := rfl

theorem close_withScreen (k : Kernel) (fd : Int) : (k.withScreen v mo).close fd =
    (k.close fd).map fun r => (r.1, r.2.withScreen v mo) := by
  unfold close
  rw [withScreen_currPid]
  cases k.currPid with
  | none => rfl
  | some q =>
    cases fdOf fd with
    | none => rfl
    | some w =>
      simp only [Option.bind_some, withScreen_proc, withScreen_setFd]
      by_cases h : w.val < 2 ∨ k.proc.pcbArray q = false ∨
          ((k.proc.pcb q).fdarray w).flags = false
      · rw [if_pos h, if_pos h]
        rfl
      · rw [if_neg h, if_neg h]
        split <;> rfl

theorem open_withScreen (k : Kernel) (name : Option CString) :
    (k.withScreen v mo).open' img name =
      (k.open' img name).map fun r => (r.1, r.2.withScreen v mo) := by
  unfold open'
  rw [withScreen_currPid]
  cases k.currPid with
  | none => rfl
  | some q =>
    simp only [Option.bind_some, withScreen_proc, withScreen_setFd]
    by_cases h : k.proc.pcbArray q = false
    · rw [if_pos h, if_pos h]
      rfl
    · rw [if_neg h, if_neg h]
      split
      · split
        · rfl
        · rfl
        · split
          · rfl
          · split <;> rfl
          · split <;> rfl
          · rfl
          · rfl
          · rfl
      · rfl

theorem fileRead_withScreen (k : Kernel) (q : Pid) (w : Fin 8) (n : Nat) :
    (k.withScreen v mo).fileRead img q w n =
      (k.fileRead img q w n).map fun r => (r.1, r.2.withScreen v mo) := by
  simp only [fileRead, withScreen_setFd]
  split <;> rfl

theorem directoryRead_withScreen (k : Kernel) (q : Pid) (w : Fin 8) (n : Nat) :
    (k.withScreen v mo).directoryRead img q w n =
      (k.directoryRead img q w n).map fun r => (r.1, r.2.withScreen v mo) := by
  simp only [directoryRead, withScreen_setFd]
  split <;> rfl

/-- How a `read` goes on, with another screen. -/
def ReadResult.withScreen (v : Nat → UInt8) (mo : Mouse) : ReadResult → ReadResult
  | .ret r k => .ret r (k.withScreen v mo)
  | .terminal t => .terminal t
  | .rtc k => .rtc (k.withScreen v mo)

theorem read_withScreen (k : Kernel) (fd : Int) (buf : Option (Nat → UInt8)) (nbytes : Int) :
    (k.withScreen v mo).read img fd buf nbytes =
      (k.read img fd buf nbytes).map (ReadResult.withScreen v mo) := by
  unfold read
  rw [withScreen_currPid]
  cases k.currPid with
  | none => rfl
  | some q =>
    cases fdOf fd with
    | none => rfl
    | some w =>
      simp only [Option.bind_some, fileRead_withScreen, directoryRead_withScreen]
      split
      · rfl
      · split
        · rfl
        · simp only [Option.map_map]
          rfl
        · simp only [Option.map_map]
          rfl
        · simp only [Option.map_map]
          rfl
        · rfl
        · rfl

theorem getargs_withScreen (k : Kernel) (mem : Nat → UInt8) (nbytes : Int) :
    (k.withScreen v mo).getargs mem nbytes =
      (k.getargs mem nbytes).map fun r => (r.1, r.2.withScreen v mo) := by
  unfold getargs
  rw [withScreen_currPid]
  cases k.currPid with
  | none => rfl
  | some q =>
    simp only [Option.bind_some]
    by_cases h : k.proc.pcbArray q = false ∨ (k.proc.pcb q).argsArray 0 = 0 ∨ nbytes < 1
    · rw [if_pos h, if_pos h]
      rfl
    · rw [if_neg h, if_neg h]
      split
      · rfl
      · split
        · rfl
        · split <;> rfl

theorem vidmap_withScreen (k : Kernel) (start : Nat) : (k.withScreen v mo).vidmap start =
    (k.vidmap start).map fun r => (r.1, r.2.withScreen v mo) := by
  simp only [vidmap]
  split
  · rfl
  · simp only [Option.map_map]
    rfl

theorem readStep_withScreen (k : Kernel) (p : Pid) (r : Reader) :
    (k.withScreen v mo).readStep p r =
      (k.readStep p r).map fun x => (x.1.withScreen v mo, x.2) := by
  simp only [readStep]
  split
  · rfl
  · simp only [withScreen_currPid, Option.map_map]
    rfl
  · rfl

/-! ## The timer -/

/-- What a handler leaves, with another screen. -/
def screened (v : Nat → UInt8) (mo : Mouse) (r : Kernel × Ctl) : Kernel × Ctl :=
  (r.1.withScreen v mo, r.2)

theorem passedOver_withScreen (k : Kernel) (t : Term) :
    (k.withScreen v mo).passedOver t = k.passedOver t := rfl

theorem search_withScreen (k : Kernel) (start : Option Term) : ∀ (n : Nat) (t : Term),
    (k.withScreen v mo).search start n t = k.search start n t := by
  intro n
  induction n with
  | zero => intro t; rfl
  | succ n ih =>
    intro t
    simp only [search, passedOver_withScreen, ih]

theorem saveContext_withScreen (k : Kernel) (ctl : Ctl) (prevIdx : Option Term) :
    (k.withScreen v mo).saveContext ctl prevIdx =
      (k.saveContext ctl prevIdx).map (·.withScreen v mo) := by
  cases prevIdx with
  | none => rfl
  | some s =>
    simp only [saveContext, Option.map_map]
    rfl

theorem schedule_withScreen (k : Kernel) (ctl : Ctl) (prevIdx : Option Term) (t : Term)
    (regs : Frame) : (k.withScreen v mo).schedule img ctl prevIdx t regs =
      (k.schedule img ctl prevIdx t regs).map (screened v mo) := by
  simp only [schedule, saveContext_withScreen]
  cases k.saveContext ctl prevIdx with
  | none => rfl
  | some k1 =>
    simp only [Option.map_some, Option.bind_some]
    split
    · split <;> rfl
    · split <;> rfl

theorem pitHandler_withScreen (k : Kernel) (ctl : Ctl) (regs : Frame) :
    (k.withScreen v mo).pitHandler img ctl regs =
      (k.pitHandler img ctl regs).map (screened v mo) := by
  simp only [pitHandler, search_withScreen]
  split
  · rfl
  · rename_i t _
    exact schedule_withScreen
      { k with proc := { k.proc with terminalProcessIndex := some t } } ctl _ t regs

/-! ## `halt` -/

theorem haltEntry_withScreen (k : Kernel) (status : UInt8) :
    (k.withScreen v mo).haltEntry status = (k.haltEntry status).map (screened v mo) := by
  unfold haltEntry
  rw [withScreen_currPid]
  cases k.currPid with
  | none => rfl
  | some c =>
    simp only [Option.bind_some]
    split
    · rfl
    · split <;> rfl

end Kernel

open Kernel (screened)

variable {img : Image} {v : Nat → UInt8} {mo : Mouse}

theorem HaltPc.exec_withScreen (pc : HaltPc) (l : HaltLocals) (k : Kernel) :
    pc.exec l (k.withScreen v mo) = (pc.exec l k).map (screened v mo) := by
  cases pc with
  | mapParent =>
    simp only [exec]
    split <;> rfl
  | closeFds i =>
    simp only [exec, Kernel.close_withScreen, Option.map_map]
    rfl
  | typing =>
    simp only [exec, Option.map_map]
    rfl
  | popPid =>
    simp only [exec, Option.map_map]
    rfl
  | _ => rfl

theorem runHalt_withScreen : ∀ (n : Nat) (k : Kernel) (c : Ctl),
    runHalt n (k.withScreen v mo) c = (runHalt n k c).map (screened v mo) := by
  intro n
  induction n with
  | zero => intro k c; rfl
  | succ n ih =>
    intro k c
    cases c with
    | halting pc l =>
      simp only [runHalt, HaltPc.exec_withScreen]
      cases pc.exec l k with
      | none => rfl
      | some r => exact ih r.1 r.2
    | finishing fr l =>
      simp only [runHalt, finishExecute]
      cases fr.caller with
      | none => rfl
      | some p => exact ih k (.user p)
    | _ => rfl

theorem halt_withScreen (k : Kernel) (status : UInt8) :
    halt (k.withScreen v mo) status = (halt k status).map (screened v mo) := by
  simp only [halt, Kernel.haltEntry_withScreen]
  cases k.haltEntry status with
  | none => rfl
  | some r => exact runHalt_withScreen 16 r.1 r.2

namespace Machine

variable {m m' : Machine} {e : Event}

def withScreen (m : Machine) (v : Nat → UInt8) (mo : Mouse) : Machine :=
  ⟨m.kern.withScreen v mo, m.ctl⟩

/-- An event that neither draws nor moves the mouse. -/
def DrawsNothing : Event → Prop
  | .key _ _ | .mouse _ | .write _ _ _ => False
  | _ => True

theorem silent_withScreen (r : Option (Kernel × Ctl)) :
    silent (r.map (screened v mo)) = (silent r).map fun x => (x.1.withScreen v mo, x.2) := by
  cases r <;> rfl

theorem syscall_withScreen (k : Kernel) (p : Pid) (he : DrawsNothing e) :
    syscall img (k.withScreen v mo) p e =
      (syscall img k p e).map fun x => (x.1.withScreen v mo, x.2) := by
  cases e with
  | execute command esp ebp =>
    simp only [syscall, execute]
    split <;> rfl
  | halt status => simp only [syscall, halt_withScreen, silent_withScreen]
  | haltCall status => simp only [syscall, Kernel.haltEntry_withScreen, silent_withScreen]
  | read fd buf nbytes =>
    simp only [syscall, Kernel.read_withScreen]
    cases k.read img fd buf nbytes with
    | none => rfl
    | some x => cases x <;> rfl
  | write fd buf nbytes => exact he.elim
  | open' name =>
    simp only [syscall, Kernel.open_withScreen, Option.map_map]
    rfl
  | close fd =>
    simp only [syscall, Kernel.close_withScreen, Option.map_map]
    rfl
  | getargs mem nbytes =>
    simp only [syscall, Kernel.getargs_withScreen, Option.map_map]
    rfl
  | vidmap start =>
    simp only [syscall, Kernel.vidmap_withScreen, Option.map_map]
    rfl
  | _ => rfl

theorem go_withScreen (k : Kernel) (c : Ctl) :
    go (k.withScreen v mo) c = (go k c).map fun x => (x.1.withScreen v mo, x.2) := by
  cases c with
  | halting pc l => simp only [go, HaltPc.exec_withScreen, silent_withScreen]
  | finishing fr l =>
    simp only [go, finishExecute, Option.map_map]
    rfl
  | reading p r =>
    simp only [go, Kernel.readStep_withScreen, Option.map_map]
    rfl
  | _ => rfl

/-- An event that draws nothing does the same with any text pages and any mouse. -/
theorem step_withScreen (m : Machine) (he : DrawsNothing e) :
    step img (m.withScreen v mo) e = (step img m e).map (·.withScreen v mo) := by
  have hcall : call img (m.withScreen v mo) e =
      (call img m e).map fun x => (x.1.withScreen v mo, x.2) := by
    cases e with
    | tick esp ebp => simp only [call, withScreen, Kernel.pitHandler_withScreen, silent_withScreen]
    | key status code => exact he.elim
    | mouse p => exact he.elim
    | rtc => rfl
    | go => exact go_withScreen m.kern m.ctl
    | _ =>
      simp only [call, withScreen]
      cases m.ctl with
      | user p => exact syscall_withScreen m.kern p he
      | _ => rfl
  simp only [step, hcall, Option.map_map]
  rfl

/-- Such an event leaves text pages and mouse as they are. -/
theorem step_keepsScreen (he : DrawsNothing e) (h : step img m e = some m') :
    m'.kern.con.vram = m.kern.con.vram ∧ m'.kern.mouse = m.kern.mouse := by
  have hself : step img (m.withScreen m.kern.con.vram m.kern.mouse) e =
      (step img m e).map (·.withScreen m.kern.con.vram m.kern.mouse) := step_withScreen m he
  have hm : m.withScreen m.kern.con.vram m.kern.mouse = m := rfl
  rw [hm, h, Option.map_some, Option.some.injEq] at hself
  constructor
  · exact congrArg (fun x => x.kern.con.vram) hself
  · exact congrArg (fun x => x.kern.mouse) hself

end Machine
end DeviceOS
