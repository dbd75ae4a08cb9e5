import DeviceOS.DescriptorTable
import DeviceOS.ImageCopies

/-!
# DeviceOS.FreshStart

What a program finds when control is transferred to its entry point. `execute` sets up the
descriptors, the arguments and the image; `halt` in a base shell goes to the entry point again and
sets up nothing.

* `UserEvent`: the events of the machine, and the stores of the program that runs.
* `Past`: what each process was started with, and what became of its arguments and its image.
* `Kept`: the invariant. Arguments and image are those of the last start, but for what the record
  says.
* `programs_start_fresh`: runs in which a base shell that halts has closed its files, and has
  neither taken its arguments nor changed its image.
-/

namespace DeviceOS

open EventSystem (Reach run withHistory withHistory_eq_some)

/-! ## Stores of the program -/

/-- The byte at user address `a`. -/
def Proc.loadByte (p : Proc) (a : Nat) : Option UInt8 :=
  if 0x8000000 ≤ a ∧ a < 0x8400000 ∧ p.pageDirectory32.p = true then
    some (p.frame (a - 0x8000000))
  else none

/-- An event of the machine, or the store of a byte by the program. What a system call hands to the
program arrives in its memory as stores. -/
inductive UserEvent where
  | call (e : Event)
  | store (a : Nat) (b : UInt8)

namespace Machine

def userStep (img : Image) (m : Machine) : UserEvent → Option Machine
  | .call e => step img m e
  | .store a b => m.program.bind fun _ =>
    (m.kern.proc.storeByte a b).map fun p => { m with kern := { m.kern with proc := p } }

end Machine

/-! ## The record -/

/-- What a process was started with: the inode of its program and the arguments of its command. -/
structure Start where
  inode : Nat
  args : CString

/-- `argsTaken`: the arguments have been cleared. `changed i`: byte `i` of the image is not the
byte of the file since the last store to it. -/
structure Occupant where
  start : Option Start
  argsTaken : Bool
  changed : Nat → Bool

def Occupant.storeByte (img : Image) (a : Nat) (b : UInt8) (o : Occupant) : Occupant :=
  match o.start with
  | none => o
  | some st => { o with changed := fun i =>
      if 0x8048000 + i = a then decide (b ≠ img.byteAt (img.inodes st.inode) i) else o.changed i }

abbrev Past := Pid → Occupant

namespace Past

/-- A store goes to the process whose frame is mapped. -/
def storeByte (img : Image) (p : Proc) (a : Nat) (b : UInt8) (past : Past) : Past := fun q =>
  if p.pageDirectory32.physicalAddress = (pdeOf q).physicalAddress then
    (past q).storeByte img a b
  else past q

def storeBytes (img : Image) (p : Proc) : Nat → List UInt8 → Past → Past
  | _, [], past => past
  | a, b :: bs, past => storeBytes img p (a + 1) bs (past.storeByte img p a b)

/-- `execute` with `command`. When the copy of the image fails, the PCB has been set up anew and the
frame is partly overwritten. -/
def attempt (img : Image) (p : Proc) (command : Option CString) (past : Past) : Past :=
  match p.freePid, command with
  | some q, some cmd =>
    match findProgram img cmd with
    | .ok (some prog) => Function.update past q
        (if img.badBlock (img.inodes prog.inode) then ⟨(past q).start, true, fun _ => true⟩
          else ⟨some ⟨prog.inode, cmd.text.args⟩, false, fun _ => false⟩)
    | _ => past
  | _, _ => past

def takeArgs (past : Past) (q : Pid) : Past :=
  Function.update past q { past q with argsTaken := true }

def record (img : Image) (m : Machine) (e : UserEvent) (past : Past) : Past :=
  match e with
  | .store a b => past.storeByte img m.kern.proc a b
  | .call (.execute command _ _) => past.attempt img m.kern.proc command
  | .call (.tick _ _) =>
    match m.kern.nextTerminal with
    | some t =>
      if m.kern.proc.pidArr t = none then past.attempt img m.kern.proc (some shellName) else past
    | none => past
  | .call (.getargs mem nbytes) =>
    match m.kern.getargs mem nbytes, m.kern.currPid with
    | some (r, _), some q => if r.ret = 0 then past.takeArgs q else past
    | _, _ => past
  | .call (.vidmap start) =>
    if start < Kernel.usrmemBottom ∨ Kernel.usrmemTop < start then past
    else past.storeBytes img m.kern.proc start [0x00, 0x80, 0x0B, 0x00]
  | _ => past

/-- Only the frame that is mapped matters. -/
theorem storeBytes_congr {img : Image} {p p' : Proc}
    (h : p'.pageDirectory32 = p.pageDirectory32) {bs : List UInt8} :
    ∀ {past : Past} {a : Nat}, past.storeBytes img p' a bs = past.storeBytes img p a bs := by
  induction bs with
  | nil =>
    intro past a
    rfl
  | cons b bs ih =>
    intro past a
    have hone : past.storeByte img p' a b = past.storeByte img p a b := by
      funext q
      simp only [storeByte, h]
    rw [storeBytes, storeBytes, hone]
    exact ih

end Past

/-! ## The law -/

/-- The process as its program has to find it. -/
structure Fresh (img : Image) (p : Proc) (q : Pid) (o : Occupant) : Prop where
  closed : ∀ w : Fin 8, 2 ≤ w.val → (p.fd q w).flags = false
  terminal : ∀ w : Fin 8, w.val < 2 → (p.fd q w).flags = true
  started : ∃ st, o.start = some st ∧
    (∀ i < maxArgsSize, (p.pcb q).argsArray i = (st.args[i]?).getD 0) ∧
    ∀ i < (img.inodes st.inode).length.toNat,
      p.loadByte (0x8048000 + i) = some (img.byteAt (img.inodes st.inode) i)

/-- What the program of process `q` has to leave behind for its next run. -/
structure CleanedUp (img : Image) (p : Proc) (q : Pid) (o : Occupant) : Prop where
  closed : ∀ w : Fin 8, 2 ≤ w.val → (p.fd q w).flags = false
  page : p.pageDirectory32 = pdeOf q
  started : ∃ st, o.start = some st ∧ (o.argsTaken = true → st.args = []) ∧
    ∀ i < (img.inodes st.inode).length.toNat, o.changed i = false

namespace Machine

variable {img : Image} {m m' : Machine} {past : Past}

/-- The machine with the record of its processes. -/
def lifeStep (img : Image) : Machine × Past → UserEvent → Option (Machine × Past) :=
  withHistory (userStep img) (Past.record img)

def LifeBoot (s : Machine × Past) : Prop := Boot s.1 ∧ ∀ q, (s.2 q).start = none

/-- The process whose program is entered at its first instruction. -/
def entered (img : Image) (m : Machine) : UserEvent → Option Pid
  | .call (.halt _) | .call (.haltCall _) => m.kern.currPid.filter fun c => c.val < 3
  | .call e => started img m e
  | .store _ _ => none

/-- A base shell has cleaned up when it halts, and a command with arguments has a short name. -/
def Tidy (img : Image) (s : Machine × Past) : UserEvent → Prop
  | .call (.execute (some cmd) _ _) => s.1.kern.proc.newPid img (some cmd) = none ∨
      cmd.text.name.length < filenameLen ∨ cmd.text.args = []
  | .call (.halt _) | .call (.haltCall _) => ∀ c, s.1.kern.currPid = some c → c.val < 3 →
      CleanedUp img s.1.kern.proc c (s.2 c)
  | _ => True

end Machine

/-! ## Descriptors 0 and 1 -/

/-- Descriptors 0 and 1 of every process are open. -/
def Proc.TerminalOpen (p : Proc) : Prop := ∀ q, p.pcbArray q = true →
  ∀ w : Fin 8, w.val < 2 → (p.fd q w).flags = true

namespace Kernel

variable {img : Image} {k k' : Kernel}

theorem setFd_terminalOpen (h : k.proc.TerminalOpen) {q : Pid} {w : Fin 8} {e : FdaEntry}
    (he : w.val < 2 → e.flags = (k.proc.fd q w).flags) : (k.setFd q w e).proc.TerminalOpen := by
  intro r hr v hv
  by_cases hrv : r = q ∧ v = w
  · obtain ⟨rfl, rfl⟩ := hrv
    rw [k.setFd_fd_self, he hv]
    exact h r hr v hv
  · rw [k.setFd_fd_of_ne e hrv]
    exact h r hr v hv

/-- `open` sets at most one descriptor, from 2 on. -/
theorem open_setFd {name : Option CString} {v : Int} (h : k.open' img name = some (v, k')) :
    k'.proc = k.proc ∨ ∃ q w e, 2 ≤ w.val ∧ k'.proc = (k.setFd q w e).proc := by
  simp only [open', Option.bind_eq_some_iff] at h
  obtain ⟨q, _, h⟩ := h
  split at h
  · cases h
    exact Or.inl rfl
  · split at h
    · rename_i w fname hfree
      have hw := (freeFd_eq_some hfree).1.1
      split at h
      · cases h
      · cases h
        exact Or.inl rfl
      · split at h
        · cases h
          exact Or.inr ⟨q, w, _, hw, rfl⟩
        · split at h
          · cases h
            exact Or.inr ⟨q, w, _, hw, rfl⟩
          · cases h
            exact Or.inr ⟨q, w, _, hw, rfl⟩
        · split at h
          · cases h
            exact Or.inr ⟨q, w, _, hw, rfl⟩
          · cases h
            exact Or.inr ⟨q, w, _, hw, rfl⟩
        · cases h
        · cases h
        · cases h
    · cases h
      exact Or.inl rfl

end Kernel

theorem Proc.TerminalOpen.tableRel : TableRel fun p p' => p.TerminalOpen → p'.TerminalOpen where
  of_eq {p p'} harray hfd h q hq w hw := by
    have heq : p'.fd q w = p.fd q w := congrFun (hfd q) w
    rw [heq]
    exact h q (by rw [← harray]; exact hq) w hw
  trans h1 h2 h := h2 (h1 h)
  prepared p cur q h r hr w hw := by
    by_cases heq : r = q
    · subst heq
      simp only [Proc.fd, Proc.prepared, Proc.createPcb, Proc.mapProgramMem, Function.update_self]
      split
      · rfl
      · rw [if_pos (by omega)]
    · obtain ⟨harray, hfd⟩ := p.prepared_fd_of_ne cur heq
      rw [hfd w]
      exact h r (by rw [← harray]; exact hr) w hw
  closed k q w hw h := k.setFd_terminalOpen h fun hlt => absurd hlt (by omega)
  moved k q w pos hd h := k.setFd_terminalOpen h fun _ => rfl

namespace Machine

variable {img : Image} {m m' : Machine} {e : UserEvent}

theorem step_terminalOpen {e : Event} (ht : m.kern.proc.TerminalOpen)
    (h : step img m e = some m') : m'.kern.proc.TerminalOpen := by
  by_cases hq : FdQuiet m e
  · exact step_tables Proc.TerminalOpen.tableRel hq h ht
  · cases step_fds h with
    | kept hquiet => exact absurd hquiet hq
    | opened hopen =>
      rcases Kernel.open_setFd hopen with heq | ⟨q, w, fd, hw, heq⟩
      · rw [heq]
        exact ht
      · rw [heq]
        exact m.kern.setFd_terminalOpen ht fun hlt => absurd hlt (by omega)
    | file hfile hread =>
      obtain ⟨pos, heq⟩ := Kernel.fileRead_cases hread
      rw [heq]
      exact m.kern.setFd_terminalOpen ht fun _ => rfl

end Machine

/-! ## The invariant -/

/-- Arguments and image of process `q` are those of its start, but for what the record says. -/
structure KeptAt (img : Image) (p : Proc) (q : Pid) (o : Occupant) : Prop where
  args : ∀ st, o.start = some st → ∀ i < maxArgsSize,
    (p.pcb q).argsArray i = if o.argsTaken then 0 else (st.args[i]?).getD 0
  fits : ∀ st, o.start = some st → (img.inodes st.inode).length.toNat ≤ imageRoom
  image : ∀ st, o.start = some st → ∀ i < (img.inodes st.inode).length.toNat,
    o.changed i = false →
      p.progMem (pdeOf q).physicalAddress (imageBase + i) = img.byteAt (img.inodes st.inode) i

def Kept (img : Image) (p : Proc) (past : Past) : Prop := ∀ q, KeptAt img p q (past q)

/-- Arguments and frame of process `q` are unchanged. -/
structure SameProgram (p p' : Proc) (q : Pid) : Prop where
  args : (p'.pcb q).argsArray = (p.pcb q).argsArray
  frame : p'.progMem (pdeOf q).physicalAddress = p.progMem (pdeOf q).physicalAddress

def SamePrograms (p p' : Proc) : Prop := ∀ q, SameProgram p p' q

namespace SamePrograms

variable {p p' p'' : Proc}

theorem refl (p : Proc) : SamePrograms p p := fun _ => ⟨rfl, rfl⟩

theorem of_eq (h : p' = p) : SamePrograms p p' := by
  rw [h]
  exact refl p

theorem trans (h : SamePrograms p p') (h' : SamePrograms p' p'') : SamePrograms p p'' := fun q =>
  ⟨(h' q).args.trans (h q).args, (h' q).frame.trans (h q).frame⟩

theorem setFd (k : Kernel) (q : Pid) (w : Fin 8) (e : FdaEntry) :
    SamePrograms k.proc (k.setFd q w e).proc := by
  intro r
  refine ⟨?_, rfl⟩
  by_cases hr : r = q
  · subst hr
    simp [Kernel.setFd, Proc.setPcb]
  · simp [Kernel.setFd, Proc.setPcb, Function.update_of_ne hr]

variable {img : Image} {k k' : Kernel}

theorem close {fd v : Int} (h : k.close fd = some (v, k')) : SamePrograms k.proc k'.proc := by
  rcases Kernel.close_cases h with rfl | ⟨q, w, _, _, _, hproc⟩
  · exact refl _
  · rw [hproc]
    exact setFd k q w _

theorem open' {name : Option CString} {v : Int} (h : k.open' img name = some (v, k')) :
    SamePrograms k.proc k'.proc := by
  rcases Kernel.open_setFd h with hproc | ⟨q, w, e, _, hproc⟩
  · exact of_eq hproc
  · rw [hproc]
    exact setFd k q w e

theorem read {fd nbytes : Int} {buf : Option (Nat → UInt8)} {r : Reply}
    (h : k.read img fd buf nbytes = some (.ret r k')) : SamePrograms k.proc k'.proc := by
  cases Kernel.read_cases h with
  | refused => exact refl _
  | file _ hread =>
    obtain ⟨pos, rfl⟩ := Kernel.fileRead_cases hread
    exact setFd k _ _ _
  | dir _ hread =>
    rcases Kernel.directoryRead_cases hread with rfl | ⟨pos, rfl⟩
    · exact refl _
    · exact setFd k _ _ _

theorem exec {pc : HaltPc} {l : HaltLocals} {c : Ctl} (h : pc.exec l k = some (k', c)) :
    SamePrograms k.proc k'.proc := by
  cases pc with
  | mapParent =>
    simp only [HaltPc.exec] at h
    split at h <;> cases h <;> exact fun _ => ⟨rfl, rfl⟩
  | closeFds i =>
    obtain ⟨⟨v, k1⟩, hclose, heq⟩ := Option.map_eq_some_iff.mp h
    cases heq
    exact close hclose
  | typing =>
    obtain ⟨t, _, heq⟩ := Option.map_eq_some_iff.mp h
    cases heq
    exact fun _ => ⟨rfl, rfl⟩
  | popPid =>
    obtain ⟨t, _, heq⟩ := Option.map_eq_some_iff.mp h
    cases heq
    exact fun _ => ⟨rfl, rfl⟩
  | _ =>
    cases h
    exact fun _ => ⟨rfl, rfl⟩

theorem halt {status : UInt8} {c : Ctl} (h : DeviceOS.halt k status = some (k', c)) :
    SamePrograms k.proc k'.proc :=
  halt_rel (R := fun k k' => SamePrograms k.proc k'.proc) (fun _ => refl _) trans exec h

theorem mouse {x : Packet} (h : k.mouseHandler x = some k') : SamePrograms k.proc k'.proc := by
  rcases Kernel.mouseHandler_proc h with hp | hp
  · exact of_eq hp
  · rw [hp]
    exact fun _ => ⟨rfl, rfl⟩

theorem suspended (k : Kernel) (ctl : Ctl) (t : Term) :
    SamePrograms k.proc (k.suspended ctl t).proc := by
  intro q
  refine ⟨?_, rfl⟩
  rcases k.suspended_pcb ctl t q with h | h
  · rw [h]
  · rw [h]

end SamePrograms

variable {img : Image} {p p' : Proc} {past : Past} {q : Pid} {o : Occupant}

theorem KeptAt.same (h : KeptAt img p q o) (hs : SameProgram p p' q) : KeptAt img p' q o where
  args st hst i hi := by
    rw [hs.args]
    exact h.args st hst i hi
  fits := h.fits
  image st hst i hi hc := by
    rw [hs.frame]
    exact h.image st hst i hi hc

/-- A store to the mapped frame changes one byte, and the record says which. -/
theorem KeptAt.storeByte (h : KeptAt img p q o)
    (hq : p.pageDirectory32.physicalAddress = (pdeOf q).physicalAddress) {a : Nat} {b : UInt8}
    (hs : p.storeByte a b = some p') : KeptAt img p' q (o.storeByte img a b) := by
  obtain ⟨mem, rfl, _⟩ := Proc.storeByte_stored hs
  obtain ⟨hlo, _, hframe⟩ := Proc.storeByte_frame hs
  have hmem : mem (pdeOf q).physicalAddress =
      Function.update (p.progMem (pdeOf q).physicalAddress) (a - 0x8000000) b := by
    rw [← hq]
    exact hframe
  cases ho : o.start with
  | none =>
    have hsame : o.storeByte img a b = o := by simp only [Occupant.storeByte, ho]
    rw [hsame]
    refine ⟨fun st hst => ?_, fun st hst => ?_, fun st hst => ?_⟩
    all_goals rw [ho] at hst; cases hst
  | some st =>
    have hsame : o.storeByte img a b = { o with
        changed := fun i =>
          if 0x8048000 + i = a then decide (b ≠ img.byteAt (img.inodes st.inode) i)
          else o.changed i } := by
      simp only [Occupant.storeByte, ho]
    rw [hsame]
    refine ⟨h.args, h.fits, fun st' hst i hi hc => ?_⟩
    cases ho.symm.trans hst
    simp only at hc
    change mem (pdeOf q).physicalAddress (imageBase + i) = _
    rw [hmem]
    by_cases hi' : 0x8048000 + i = a
    · rw [if_pos hi'] at hc
      have hidx : imageBase + i = a - 0x8000000 := by
        simp only [imageBase]
        omega
      rw [hidx, Function.update_self]
      simpa using hc
    · rw [if_neg hi'] at hc
      rw [Function.update_of_ne (by simp only [imageBase]; omega)]
      exact h.image st ho i hi hc

namespace Kept

theorem same (h : Kept img p past) (hs : SamePrograms p p') : Kept img p' past :=
  fun q => (h q).same (hs q)

/-- Only process `q` and its record change. -/
theorem update (h : Kept img p past) (hother : ∀ r, r ≠ q → SameProgram p p' r)
    (hq : KeptAt img p' q o) : Kept img p' (Function.update past q o) := by
  intro r
  by_cases hr : r = q
  · subst hr
    rw [Function.update_self]
    exact hq
  · rw [Function.update_of_ne hr]
    exact (h r).same (hother r hr)

theorem storeByte (h : Kept img p past) {a : Nat} {b : UInt8} (hs : p.storeByte a b = some p') :
    Kept img p' (past.storeByte img p a b) := by
  intro q
  by_cases hq : p.pageDirectory32.physicalAddress = (pdeOf q).physicalAddress
  · simp only [Past.storeByte, if_pos hq]
    exact (h q).storeByte hq hs
  · simp only [Past.storeByte, if_neg hq]
    obtain ⟨mem, rfl, hother⟩ := Proc.storeByte_stored hs
    exact (h q).same ⟨rfl, hother _ (Ne.symm hq)⟩

theorem storeBytes {bs : List UInt8} : ∀ {p p' : Proc} {past : Past} {a : Nat}, Kept img p past →
    p.storeBytes a bs = some p' → Kept img p' (past.storeBytes img p a bs) := by
  induction bs with
  | nil =>
    intro p p' past a h hs
    cases hs
    exact h
  | cons b bs ih =>
    intro p p' past a h hs
    simp only [Proc.storeBytes, Option.bind_eq_some_iff] at hs
    obtain ⟨p1, h1, h2⟩ := hs
    have hnext := ih (h.storeByte h1) h2
    rw [Past.storeBytes_congr (Proc.storeByte_stored h1).pageDirectory32] at hnext
    exact hnext

/-- `getargs` clears the arguments. -/
theorem takeArgs (h : Kept img p past) (q : Pid) :
    Kept img (p.setPcb q { p.pcb q with
      argsArray := fun i => if i < maxArgsSize then 0 else (p.pcb q).argsArray i })
      (past.takeArgs q) := by
  refine h.update (fun r hr => ⟨?_, rfl⟩) ⟨fun st hst i hi => ?_, (h q).fits, (h q).image⟩
  · simp [Proc.setPcb, Function.update_of_ne hr]
  · simp [Proc.setPcb, hi]

end Kept

/-! ## `execute` -/

namespace Past

variable {cmd : CString} {command : Option CString} {prog : Program}

theorem attempt_finds (past : Past) (h : p.Finds img (some cmd) q prog) :
    past.attempt img p (some cmd) = Function.update past q
      (if img.badBlock (img.inodes prog.inode) then ⟨(past q).start, true, fun _ => true⟩
        else ⟨some ⟨prog.inode, cmd.text.args⟩, false, fun _ => false⟩) := by
  obtain ⟨cmd', hc, hf⟩ := h.found
  cases hc
  simp only [attempt, h.freePid, hf]

theorem attempt_of_not_finds (past : Past) (h : ∀ q prog, ¬ p.Finds img command q prog) :
    past.attempt img p command = past := by
  unfold attempt
  split
  · rename_i q cmd hq
    split
    · rename_i prog hf
      exact absurd ⟨hq, cmd, rfl, hf⟩ (h q prog)
    · rfl
  · rfl

end Past

variable {cur : Term} {cmd : CString} {command : Option CString} {regs : Frame}

/-- The other processes, when the image of a new one has been copied. -/
theorem prepared_others {p1 : Proc} (hst : (p.prepared cur q).Stored p1) {r : Pid} (hr : r ≠ q) :
    SameProgram p p1 r := by
  obtain ⟨mem, rfl, hother⟩ := hst
  have hne : (pdeOf r).physicalAddress ≠ (pdeOf q).physicalAddress := by
    have := Fin.val_ne_of_ne hr
    simp only [pdeOf]
    omega
  refine ⟨?_, hother _ hne⟩
  simp [Proc.prepared, Proc.createPcb, Proc.mapProgramMem, Function.update_of_ne hr]

namespace Kept

theorem execute_ret {v : Int} (h : Kept img p past)
    (hx : p.execute img cur command regs = .ret v p') : Kept img p' (past.attempt img p command) := by
  rcases Proc.execute_cases img cur p command regs with ⟨h1, hno⟩ | ⟨f, h1⟩ |
    ⟨q, prog, p1, hf, hb, hst, h1⟩ | ⟨q, prog, p1, _, _, h1⟩
  all_goals rw [h1] at hx; cases hx
  · rw [past.attempt_of_not_finds hno]
    exact h
  · obtain ⟨cmd, rfl, _⟩ := hf.found
    rw [past.attempt_finds hf, if_pos hb]
    refine h.update (fun r hr => prepared_others hst hr) ⟨fun st _ i hi => ?_, (h q).fits, ?_⟩
    · rw [if_pos rfl]
      exact Proc.prepared_args hst hi
    · intro st _ i _ hc
      cases hc

theorem execute_enter {q : Pid} (h : Kept img p past)
    (hok : cmd.text.name.length < filenameLen ∨ cmd.text.args = [])
    (hx : p.execute img cur (some cmd) regs = .enter q p') :
    Kept img p' (past.attempt img p (some cmd)) := by
  obtain ⟨prog, hl, hpage, hstarted⟩ := Proc.enter_started hx
  obtain ⟨prog', p1, hl', hst, rfl⟩ := Proc.execute_enter hx
  rw [CString.kept_eq_args.mpr hok] at hstarted
  rw [past.attempt_finds hl.1, hl.2, if_neg (by simp)]
  refine h.update (fun r hr => ?_) ⟨?_, ?_, ?_⟩
  · obtain ⟨hargs, hframe⟩ := prepared_others hst hr
    refine ⟨?_, hframe⟩
    rw [← hargs]
    simp [Proc.launch, Function.update_of_ne hr]
  · intro st hst' i hi
    cases hst'
    exact hstarted.args i hi
  · intro st hst'
    cases hst'
    exact hstarted.fits
  · intro st hst' i hi _
    cases hst'
    exact hstarted.image i hi

end Kept

/-- A process that finds nothing of its last run is fresh. -/
theorem KeptAt.fresh (h : KeptAt img p q o) (hc : CleanedUp img p q o)
    (ht : ∀ w : Fin 8, w.val < 2 → (p.fd q w).flags = true) : Fresh img p q o := by
  obtain ⟨st, hst, htaken, hsame⟩ := hc.started
  refine ⟨hc.closed, ht, st, hst, fun i hi => ?_, fun i hi => ?_⟩
  · rw [h.args st hst i hi]
    split
    · rename_i htk
      rw [htaken htk]
      rfl
    · rfl
  · have hfit := h.fits st hst
    have hp : p.pageDirectory32.p = true := by
      rw [hc.page]
      rfl
    have hidx : 0x8048000 + i - 0x8000000 = imageBase + i := by
      simp only [imageBase]
      omega
    unfold Proc.loadByte
    simp only [imageRoom] at hfit
    rw [if_pos ⟨by omega, by omega, hp⟩, hidx, Proc.frame, hc.page,
      h.image st hst i hi (hsame i hi)]

/-- What `execute` leaves of the last run of the pid: nothing. -/
theorem enter_cleanedUp (past : Past) (hx : p.execute img cur (some cmd) regs = .enter q p') :
    CleanedUp img p' q (past.attempt img p (some cmd) q) := by
  obtain ⟨prog, hl, hpage, _⟩ := Proc.enter_started hx
  obtain ⟨_, p1, _, ⟨mem, rfl, _⟩, rfl⟩ := Proc.execute_enter hx
  refine ⟨fun w hw => ?_, hpage, ?_⟩
  · have hfresh := p.prepared_fd cur q w
    simp only [Proc.fd, Proc.launch, Function.update_self] at hfresh ⊢
    by_contra hf
    exact absurd (hfresh (by simpa using hf)).1 (by omega)
  · rw [past.attempt_finds hl.1, hl.2, Function.update_self, if_neg (by simp)]
    refine ⟨_, rfl, fun htaken => ?_, fun _ _ => rfl⟩
    cases htaken

theorem enter_pcbArray (hx : p.execute img cur command regs = .enter q p') :
    p'.pcbArray q = true := by
  obtain ⟨_, p1, _, ⟨mem, rfl, _⟩, rfl⟩ := Proc.execute_enter hx
  simp [Proc.launch, Proc.prepared, Proc.createPcb, Proc.mapProgramMem]

theorem enter_newPid (hx : p.execute img cur command regs = .enter q p') :
    p.newPid img command = some q := by
  obtain ⟨prog, p1, hl, _⟩ := Proc.execute_enter hx
  exact Proc.newPid_eq_some.mpr ⟨prog, hl⟩

theorem enter_command (hx : p.execute img cur command regs = .enter q p') :
    ∃ cmd, command = some cmd := by
  obtain ⟨prog, p1, hl, _⟩ := Proc.execute_enter hx
  obtain ⟨cmd, hc, _⟩ := hl.1.found
  exact ⟨cmd, hc⟩

/-! ## Every run -/

/-- A base shell that halts is entered again, and nothing else happens. -/
theorem haltEntry_base {k k' : Kernel} {c : Pid} {ctl : Ctl} {status : UInt8}
    (hq : k.currPid = some c) (hc : c.val < 3) (h : k.haltEntry status = some (k', ctl)) :
    k' = k ∧ ctl = .user c ∧ k.proc.pcbArray c = true := by
  simp only [Kernel.haltEntry, hq, Option.bind_some] at h
  split at h
  · cases h
  · rename_i hp
    cases h
    exact ⟨rfl, rfl, by simpa using hp⟩

theorem halt_base {k k' : Kernel} {c : Pid} {ctl : Ctl} {status : UInt8}
    (hq : k.currPid = some c) (hc : c.val < 3) (h : halt k status = some (k', ctl)) :
    k' = k ∧ ctl = .user c ∧ k.proc.pcbArray c = true := by
  simp only [halt, Option.bind_eq_some_iff] at h
  obtain ⟨⟨k1, c1⟩, hentry, hrun⟩ := h
  obtain ⟨rfl, rfl, hp⟩ := haltEntry_base hq hc hentry
  cases hrun
  exact ⟨rfl, rfl, hp⟩

theorem shellName_short :
    shellName.text.name.length < filenameLen ∨ shellName.text.args = [] := by
  decide

namespace Machine

variable {m m' : Machine}

theorem tick_kept {ctl ctl' : Ctl} {k k' : Kernel} (h : Kept img k.proc past)
    (hp : k.pitHandler img ctl regs = some (k', ctl')) {esp ebp : Nat} :
    Kept img k'.proc (past.record img ⟨k, ctl⟩ (.call (.tick esp ebp))) := by
  simp only [Past.record]
  rcases Kernel.pitHandler_cases hp with ⟨hn, rfl, _⟩ | ⟨t, hn, _, hcase⟩
  · rw [hn]
    exact h
  · have hsusp : Kept img (k.suspended ctl t).proc past := h.same (.suspended k ctl t)
    rw [hn]
    rcases hcase with ⟨he, p1, hx, rfl, _⟩ | ⟨he, q, p1, hx, rfl, _⟩ | ⟨q, he, rfl, _⟩
    · simp only [he, if_true]
      exact hsusp.execute_ret hx
    · simp only [he, if_true]
      exact hsusp.execute_enter shellName_short hx
    · simp only [he, reduceCtorEq, if_false]
      exact hsusp.same fun _ => ⟨rfl, rfl⟩

theorem step_kept {e : Event} (h : Kept img m.kern.proc past)
    (hok : Tidy img (m, past) (.call e)) (hs : step img m e = some m') :
    Kept img m'.kern.proc (past.record img m (.call e)) := by
  cases step_cases hs with
  | tick hp => exact tick_kept h hp
  | key heq => rw [heq]; exact h
  | mouse hk => exact h.same (.mouse hk)
  | rtc heq => rw [heq]; exact h
  | statement _ hx => exact h.same (.exec hx)
  | finish _ _ heq => rw [heq]; exact h
  | poll _ hx => exact h.same (.of_eq (Kernel.readStep_proc hx).1)
  | rtcPoll _ heq => rw [heq]; exact h
  | returned _ hx heq =>
    rw [heq]
    exact h.execute_ret hx
  | entered _ hx heq =>
    rw [heq]
    obtain ⟨cmd, rfl⟩ := enter_command hx
    rcases hok with hnone | hshort
    · rw [enter_newPid hx] at hnone
      cases hnone
    · exact h.execute_enter hshort hx
  | halt _ hx => exact h.same (.halt hx)
  | haltCall _ hx => exact h.same (.of_eq (by rw [Kernel.haltEntry_kern hx]))
  | read _ hx => exact h.same (.read hx)
  | readTerminal _ _ heq => rw [heq]; exact h
  | readRtc _ hx => exact h.same (.of_eq (by rw [Kernel.read_rtc hx]))
  | write _ hx => exact h.same (.of_eq (Kernel.write_proc hx))
  | open' _ hx => exact h.same (.open' hx)
  | close _ hx => exact h.same (.close hx)
  | getargs _ hx =>
    rcases Kernel.getargs_cases hx with ⟨hr, hk⟩ | ⟨hr, q, hq, hk⟩
    · simp only [Past.record, hx]
      rw [hk]
      cases m.kern.currPid with
      | none => exact h
      | some q =>
        simp only [hr]
        exact h
    · simp only [Past.record, hx, hq, hr, if_true]
      rw [hk]
      exact h.takeArgs q
  | vidmap _ hx =>
    simp only [Past.record]
    simp only [Kernel.vidmap] at hx
    split at hx
    · rename_i hrange
      rw [if_pos hrange, ← (Prod.mk.inj (Option.some.inj hx)).2]
      exact h
    · rename_i hrange
      obtain ⟨p, hp, heq⟩ := Option.map_eq_some_iff.mp hx
      rw [if_neg hrange, ← (Prod.mk.inj heq).2]
      exact h.storeBytes hp
  | setHandler _ heq => rw [heq]; exact h
  | sigreturn _ heq => rw [heq]; exact h

/-- The invariant of the machine with its record. -/
def LifeInv (img : Image) (s : Machine × Past) : Prop :=
  Kept img s.1.kern.proc s.2 ∧ s.1.kern.proc.TerminalOpen

theorem LifeBoot.lifeInv {s : Machine × Past} (h : LifeBoot s) : LifeInv img s := by
  refine ⟨fun q => ⟨fun st hst => ?_, fun st hst => ?_, fun st hst => ?_⟩, fun q hq => ?_⟩
  · rw [h.2 q] at hst
    cases hst
  · rw [h.2 q] at hst
    cases hst
  · rw [h.2 q] at hst
    cases hst
  · rw [h.1.pcbArray q] at hq
    cases hq

theorem LifeInv.next {s s' : Machine × Past} {a : UserEvent} (h : LifeInv img s)
    (ha : Tidy img s a) (hs : lifeStep img s a = some s') : LifeInv img s' := by
  obtain ⟨hm, hrec⟩ := withHistory_eq_some.mp hs
  rw [LifeInv, hrec]
  cases a with
  | call e => exact ⟨step_kept h.1 ha hm, step_terminalOpen h.2 hm⟩
  | store a b =>
    simp only [userStep, Option.bind_eq_some_iff] at hm
    obtain ⟨_, _, hm⟩ := hm
    obtain ⟨p, hp, heq⟩ := Option.map_eq_some_iff.mp hm
    rw [← heq]
    refine ⟨h.1.storeByte hp, ?_⟩
    obtain ⟨mem, rfl, _⟩ := Proc.storeByte_stored hp
    exact h.2

/-- A tick that starts a shell. -/
theorem tick_entered {q : Pid} {esp ebp : Nat} (past : Past)
    (hp : m.kern.pitHandler img m.ctl regs = some (m'.kern, m'.ctl))
    (hq : started img m (.tick esp ebp) = some q) :
    m'.ctl = .user q ∧ m'.kern.proc.pcbArray q = true ∧
      CleanedUp img m'.kern.proc q (past.record img m (.call (.tick esp ebp)) q) := by
  simp only [started, Option.bind_eq_some_iff] at hq
  obtain ⟨t, hn, hnew⟩ := hq
  split at hnew
  · rename_i he
    simp only [Past.record, hn, he, if_true]
    rcases Kernel.pitHandler_cases hp with ⟨hnone, _⟩ | ⟨t', hn', _, hcase⟩
    · rw [hn] at hnone
      cases hnone
    · cases hn.symm.trans hn'
      rcases hcase with ⟨_, p1, hx, _⟩ | ⟨_, q', p1, hx, hk, hc⟩ | ⟨q', he', _⟩
      · have hnew' : (m.kern.suspended m.ctl t).proc.newPid img (some shellName) = some q := hnew
        obtain ⟨prog, hl⟩ := Proc.newPid_eq_some.mp hnew'
        exact absurd hx hl.not_ret
      · cases (enter_newPid hx).symm.trans hnew
        have hclean := enter_cleanedUp past hx
        rw [hk]
        exact ⟨hc, enter_pcbArray hx, hclean⟩
      · rw [he] at he'
        cases he'
  · cases hnew

/-- Where a program is entered, it is the program of a live process, and nothing of an earlier run
is left. -/
theorem entered_cleanedUp {s s' : Machine × Past} {a : UserEvent} {q : Pid} (ha : Tidy img s a)
    (hs : lifeStep img s a = some s') (hq : entered img s.1 a = some q) :
    s'.1.ctl = .user q ∧ s'.1.kern.proc.pcbArray q = true ∧
      CleanedUp img s'.1.kern.proc q (s'.2 q) := by
  obtain ⟨hm, hrec⟩ := withHistory_eq_some.mp hs
  rw [hrec]
  cases a with
  | store a b => cases hq
  | call e =>
    cases step_cases hm with
    | tick hp => exact tick_entered s.2 hp hq
    | returned hc hx =>
      simp only [entered, started, Option.bind_eq_some_iff] at hq
      obtain ⟨_, _, hnew⟩ := hq
      obtain ⟨prog, hl⟩ := Proc.newPid_eq_some.mp hnew
      exact absurd hx hl.not_ret
    | entered hc hx heq =>
      simp only [entered, started, Option.bind_eq_some_iff] at hq
      obtain ⟨_, _, hnew⟩ := hq
      cases (enter_newPid hx).symm.trans hnew
      obtain ⟨cmd, rfl⟩ := enter_command hx
      rw [heq]
      exact ⟨rfl, enter_pcbArray hx, enter_cleanedUp s.2 hx⟩
    | halt _ hx =>
      obtain ⟨hcur, hlt⟩ := Option.filter_eq_some_iff.mp hq
      obtain ⟨hk, hc, hp⟩ := halt_base hcur (by simpa using hlt) hx
      rw [hk]
      exact ⟨hc, hp, ha q hcur (by simpa using hlt)⟩
    | haltCall _ hx =>
      obtain ⟨hcur, hlt⟩ := Option.filter_eq_some_iff.mp hq
      obtain ⟨hk, hc, hp⟩ := haltEntry_base hcur (by simpa using hlt) hx
      rw [hk]
      exact ⟨hc, hp, ha q hcur (by simpa using hlt)⟩
    | _ => cases hq

/-- In every run in which the base shells clean up before they halt, every program starts with only
the terminal open, with the arguments of its command, and with its file in memory. -/
theorem programs_start_fresh (img : Image) (s s' : Machine × Past) (a : UserEvent) (q : Pid)
    (h : Reach (lifeStep img) LifeBoot (Tidy img) s) (ha : Tidy img s a)
    (hs : lifeStep img s a = some s') (hq : entered img s.1 a = some q) :
    s'.1.program = some q ∧ Fresh img s'.1.kern.proc q (s'.2 q) := by
  have hinv : LifeInv img s := h.inv (fun _ => LifeBoot.lifeInv) fun _ _ _ => LifeInv.next
  obtain ⟨hkept, hterm⟩ := hinv.next ha hs
  obtain ⟨hc, hp, hclean⟩ := entered_cleanedUp ha hs hq
  exact ⟨program_eq_some.mpr hc, (hkept q).fresh hclean (hterm q hp)⟩

/-- The record before anything is started. -/
def noPast : Past := fun _ => ⟨none, false, fun _ => false⟩

theorem lifeBoot_booted : LifeBoot (booted, noPast) := ⟨boot_booted, fun _ => rfl⟩

/-- The first shell starts, and halts with nothing left behind. -/
theorem programs_start_fresh_again : ∃ s s' : Machine × Past,
    lifeStep disk s (.call (.halt 0)) = some s' ∧ s'.1.program = some 0 ∧
      Fresh disk s'.1.kern.proc 0 (s'.2 0) := by
  have hrun : (lifeStep disk (booted, noPast) (.call (.tick 0 0))).map (fun s =>
      (s.1.kern.currPid, (lifeStep disk s (.call (.halt 0))).isSome)) = some (some 0, true) := by
    decide +kernel
  obtain ⟨s, hs, hp⟩ := Option.map_eq_some_iff.mp hrun
  simp only [Prod.mk.injEq] at hp
  obtain ⟨hcur, hsome⟩ := hp
  obtain ⟨s', hs'⟩ := Option.isSome_iff_exists.mp hsome
  have htidy : Tidy disk (booted, noPast) (.call (.tick 0 0)) := trivial
  have hreach : Reach (lifeStep disk) LifeBoot (Tidy disk) s :=
    .step (.init lifeBoot_booted) htidy hs
  have hfirst : entered disk booted (.call (.tick 0 0)) = some 0 := by decide +kernel
  have hclean := (entered_cleanedUp htidy hs hfirst).2.2
  have hhalt : Tidy disk s (.call (.halt 0)) := by
    intro c hc _
    cases hcur.symm.trans hc
    exact hclean
  have hagain : entered disk s.1 (.call (.halt 0)) = some 0 := by
    simp [entered, hcur]
  exact ⟨s, s', hs', programs_start_fresh disk s s' _ 0 hreach hhalt hs' hagain⟩

/-- The first shell opens a file and halts: its next run finds the descriptor open. -/
theorem restarted_shell_keeps_descriptor :
    ¬ ∀ (img : Image) (s s' : Machine × Past) (a : UserEvent) (q : Pid),
      Reach (lifeStep img) LifeBoot (fun _ _ => True) s → lifeStep img s a = some s' →
        entered img s.1 a = some q → s'.1.program = some q ∧ Fresh img s'.1.kern.proc q (s'.2 q) := by
  intro h
  have hrun : (run (lifeStep disk) (booted, noPast)
      [.call (.tick 0 0), .call (.open' (some catName))]).map (fun s =>
        (s.1.kern.currPid, (lifeStep disk s (.call (.halt 0))).map fun s' =>
          (s'.1.kern.proc.fd 0 2).flags)) = some (some 0, some true) := by
    decide +kernel
  obtain ⟨s, hs, hp⟩ := Option.map_eq_some_iff.mp hrun
  simp only [Prod.mk.injEq] at hp
  obtain ⟨hcur, hhalt⟩ := hp
  obtain ⟨s', hs', hopen⟩ := Option.map_eq_some_iff.mp hhalt
  have hreach : Reach (lifeStep disk) LifeBoot (fun _ _ => True) s :=
    Reach.of_any (.init lifeBoot_booted) hs
  have hentered : entered disk s.1 (.call (.halt 0)) = some 0 := by
    simp [entered, hcur]
  have hclosed := (h disk s s' _ 0 hreach hs' hentered).2.closed 2 (by decide)
  rw [hopen] at hclosed
  cases hclosed

end Machine
end DeviceOS
