import DeviceOS.DescriptorTable
import DeviceOS.Directory
import DeviceOS.Programs

/-!
# DeviceOS.PrivateCalls

The system calls as one process sees them: functions of its descriptors and its arguments alone.

* `Own`: what a process has for itself. `Own.syscall`: a call over it, without the other processes,
  the terminals and the devices. `OwnResult`: the call returns, or waits for a line, for the clock
  or for a child.
* `Kernel.Enters.own_fresh`: what `execute` has set up. Descriptors 0 and 1 are the terminal, the
  others are closed, and the arguments are the text after the first space.
* `Kernel.close_own`, `open_own`, `read_own`, `write_own`, `getargs_own`: the kernel computes the same
  reply, and leaves the same of its own to the process.
* `OwnResult.Goes`, `goes_of_syscall`: every call that the kernel takes is one over `Own`.
  `syscall_of_own`: the kernel takes those that are settled there.
-/

namespace DeviceOS

/-! ## One process -/

/-- The descriptors and the arguments of a process. -/
structure Own where
  fdarray : Fin 8 → FdaEntry
  argsArray : Nat → UInt8

def Proc.own (p : Proc) (q : Pid) : Own := ⟨(p.pcb q).fdarray, (p.pcb q).argsArray⟩

/-- How a call goes on: it returns, or it is in the loop of `terminal_read` or of `rtc_read`, or in
`execute`. -/
inductive OwnResult where
  | ret (r : Reply) (o : Own)
  | terminal
  | rtc
  | child

def stdinFd : FdaEntry := ⟨some .read, 0, 0, true⟩
def stdoutFd : FdaEntry := ⟨some .write, 0, 0, true⟩

namespace Own

/-- The process of a program that was entered with the arguments `args` and has made no calls. -/
structure Fresh (o : Own) (args : CString) : Prop where
  stdin : o.fdarray 0 = stdinFd
  stdout : o.fdarray 1 = stdoutFd
  closed : ∀ w : Fin 8, 2 ≤ w.val → (o.fdarray w).flags = false
  length : args.length < maxArgsSize
  args : cstr maxArgsSize o.argsArray = args

def setFd (o : Own) (w : Fin 8) (e : FdaEntry) : Own :=
  { o with fdarray := Function.update o.fdarray w e }

def clearArgs (o : Own) : Own :=
  { o with argsArray := fun i => if i < maxArgsSize then 0 else o.argsArray i }

theorem setFd_self (o : Own) (w : Fin 8) : o.setFd w (o.fdarray w) = o := by
  simp [setFd]

theorem setFd_fdarray_self (o : Own) (w : Fin 8) (e : FdaEntry) : (o.setFd w e).fdarray w = e :=
  Function.update_self ..

theorem setFd_fdarray_of_ne (o : Own) (e : FdaEntry) {w v : Fin 8} (h : v ≠ w) :
    (o.setFd w e).fdarray v = o.fdarray v :=
  Function.update_of_ne h ..

theorem clearArgs_fdarray (o : Own) : o.clearArgs.fdarray = o.fdarray := rfl

def freeFd (o : Own) : Option (Fin 8) :=
  (List.finRange 8).find? fun w => 2 ≤ w.val && !(o.fdarray w).flags

def close (o : Own) (fd : Int) : Option (Int × Own) :=
  match Kernel.fdOf fd with
  | none => some (-1, o)
  | some w =>
    let e := o.fdarray w
    if w.val < 2 ∨ e.flags = false then some (-1, o)
    else
      match e.fopsPtr with
      | some .rtc | some .file | some .dir => some (0, o.setFd w { e with flags := false })
      | some .read | some .write | none => none

def open' (img : Image) (o : Own) (filename : Option CString) : Option (Int × Own) :=
  match o.freeFd, filename with
  | some w, some name =>
    match img.readDentryByName name with
    | .error _ => none
    | .ok none => some (-1, o)
    | .ok (some entry) =>
      let e : FdaEntry := {
        fopsPtr := Kernel.fopsOfType entry.filetype (o.fdarray w).fopsPtr
        inodeNum := entry.inodeNum.toNat
        filePos := 0
        flags := true }
      let failed := o.setFd w { e with flags := false }
      match e.fopsPtr with
      | some .rtc => some (w.val, o.setFd w e)
      | some .file => if entry.filetype = 2 then some (w.val, o.setFd w e) else some (-1, failed)
      | some .dir => if entry.filetype = 1 then some (w.val, o.setFd w e) else some (-1, failed)
      | some .read | some .write | none => none
  | _, _ => some (-1, o)

def fileRead (img : Image) (o : Own) (w : Fin 8) (nbytes : Nat) : Option OwnResult :=
  let e := o.fdarray w
  match img.readData e.inodeNum e.filePos nbytes with
  | .error _ => none
  | .ok r => some (.ret ⟨r.ret, r.bytes⟩
      (o.setFd w { e with filePos := (e.filePos + (r.ret % 2 ^ 32).toNat) % 2 ^ 32 }))

def directoryRead (img : Image) (o : Own) (w : Fin 8) (nbytes : Nat) : Option OwnResult :=
  let e := o.fdarray w
  match img.readDentryByIndex e.filePos with
  | .error _ => none
  | .ok none => some (.ret ⟨0, []⟩ o)
  | .ok (some entry) =>
    let out := ((List.range (min nbytes filenameLen)).map entry.filename).takeWhile (· ≠ 0)
    some (.ret ⟨out.length, out⟩ (o.setFd w { e with filePos := (e.filePos + 1) % 2 ^ 32 }))

def read (img : Image) (o : Own) (fd : Int) (buf : Option (Nat → UInt8)) (nbytes : Int) :
    Option OwnResult :=
  match Kernel.fdOf fd with
  | none => some (.ret ⟨-1, []⟩ o)
  | some w =>
    let e := o.fdarray w
    if buf.isNone ∨ nbytes < 0 ∨ e.flags = false then some (.ret ⟨-1, []⟩ o)
    else
      match e.fopsPtr with
      | some .rtc => some .rtc
      | some .file => o.fileRead img w nbytes.toNat
      | some .dir => o.directoryRead img w nbytes.toNat
      | some .read => some .terminal
      | some .write => some (.ret ⟨-1, []⟩ o)
      | none => none

def write (o : Own) (fd : Int) (buf : Option (Nat → UInt8)) (nbytes : Int) : Option Reply :=
  match Kernel.fdOf fd, buf with
  | some w, some b =>
    let e := o.fdarray w
    if nbytes < 0 ∨ e.flags = false then some ⟨-1, []⟩
    else
      match e.fopsPtr with
      | some .rtc =>
        let frequency := leNat [b 0, b 1, b 2, b 3]
        some ⟨if frequency = 0 ∨ Rtc.maxFreq < frequency then -1 else 0, []⟩
      | some .file | some .dir | some .read => some ⟨-1, []⟩
      | some .write => some ⟨nbytes, []⟩
      | none => none
  | _, _ => some ⟨-1, []⟩

def getargs (o : Own) (mem : Nat → UInt8) (nbytes : Int) : Option (Reply × Own) :=
  if o.argsArray 0 = 0 ∨ nbytes < 1 then some (⟨-1, []⟩, o)
  else
    let args := cstr maxArgsSize o.argsArray
    if args.length = maxArgsSize ∧ (maxArgsSize : Int) < nbytes then none
    else if (args.length : Int) < nbytes then some (⟨0, args ++ [0]⟩, o.clearArgs)
    else
      let out := args.take nbytes.toNat
      if mem nbytes.toNat ≠ 0 then some (⟨-1, out⟩, o) else some (⟨0, out⟩, o.clearArgs)

/-- A system call. `halt` does not return. -/
def syscall (img : Image) (o : Own) : Event → Option OwnResult
  | .execute _ _ _ => some .child
  | .read fd buf nbytes => o.read img fd buf nbytes
  | .write fd buf nbytes => (o.write fd buf nbytes).map fun r => .ret r o
  | .open' name => (o.open' img name).map fun r => .ret ⟨r.1, []⟩ r.2
  | .close fd => (o.close fd).map fun r => .ret ⟨r.1, []⟩ r.2
  | .getargs mem nbytes => (o.getargs mem nbytes).map fun r => .ret r.1 r.2
  | .vidmap start =>
    let outside := start < Kernel.usrmemBottom ∨ Kernel.usrmemTop < start
    some (.ret ⟨if outside then -1 else 0, []⟩ o)
  | .setHandler | .sigreturn => some (.ret ⟨-1, []⟩ o)
  | _ => none

end Own

/-! ## The kernel -/

/-- What `read` leaves, as far as the process itself can tell. -/
def ReadResult.own (p : Pid) : ReadResult → OwnResult
  | .ret r k => .ret r (k.proc.own p)
  | .terminal _ => .terminal
  | .rtc _ => .rtc

namespace Kernel

variable {img : Image} {k : Kernel} {p : Pid} {cmd : CString}

/-- The parser has not stored outside of its arrays. -/
theorem Enters.args_length (h : k.Enters img p cmd) : cmd.text.kept.length < maxArgsSize := by
  obtain ⟨P0, cur, regs, hx⟩ := h
  obtain ⟨prog, p1, hl, _⟩ := Proc.execute_enter hx
  refine CString.kept_length ?_
  by_contra hlong
  obtain ⟨cmd', hc, hf⟩ := hl.1.found
  cases hc
  have hover := parseCommand_overflow (CString.text_nulFree cmd) (by omega) (by omega)
  rw [← findProgram_text] at hf
  simp only [findProgram, hover, Except.bind] at hf
  cases hf

theorem Enters.own_fresh (h : k.Enters img p cmd) : (k.proc.own p).Fresh cmd.text.kept := by
  have hlen := h.args_length
  obtain ⟨P0, cur, regs, hx⟩ := h
  obtain ⟨_, _, _, hstarted⟩ := Proc.enter_started hx
  obtain ⟨_, p1, _, ⟨mem, rfl, _⟩, hp⟩ := Proc.execute_enter hx
  have hfd : (k.proc.own p).fdarray = (P0.prepared cur p).fd p := by
    rw [hp]
    funext w
    simp only [Proc.own, Proc.fd, Proc.launch, Function.update_self]
  have hwhole : cmd.text.kept.takeWhile (· ≠ 0) = cmd.text.kept :=
    List.takeWhile_eq_self_iff.mpr fun c hc => by
      simpa using (CString.text_nulFree cmd).kept c hc
  refine ⟨?_, ?_, fun w hw => ?_, hlen, ?_⟩
  · rw [hfd]
    simp [Proc.fd, Proc.prepared, Proc.createPcb, Proc.mapProgramMem, stdinFd]
  · rw [hfd]
    simp [Proc.fd, Proc.prepared, Proc.createPcb, Proc.mapProgramMem, stdoutFd]
  · rw [hfd]
    by_contra hf
    exact absurd (P0.prepared_fd cur p w (by simpa using hf)).1 (by omega)
  · calc cstr maxArgsSize (k.proc.own p).argsArray
        = Buffers.string 0 maxArgsSize fun i => cmd.text.kept.getD i 0 :=
          Buffers.string_congr fun i hi => (hstarted.args i hi).trans (by
            rw [List.getD_eq_getElem?_getD])
      _ = cmd.text.kept := by
        rw [Buffers.string_getD _ (by rw [hwhole]; omega), hwhole]

/-- The system calls are those of process `p`. -/
structure Runs (k : Kernel) (p : Pid) : Prop where
  currPid : k.currPid = some p
  pcbArray : k.proc.pcbArray p = true

theorem own_setFd (k : Kernel) (p : Pid) (w : Fin 8) (e : FdaEntry) :
    (k.setFd p w e).proc.own p = (k.proc.own p).setFd w e := by
  simp [Proc.own, Own.setFd, setFd, Proc.setPcb]

theorem close_own (hr : k.Runs p) (fd : Int) :
    (k.close fd).map (fun r => (r.1, r.2.proc.own p)) = (k.proc.own p).close fd := by
  unfold close Own.close
  rw [hr.currPid, Option.bind_some]
  cases fdOf fd with
  | none => rfl
  | some w =>
    have hfd : (k.proc.own p).fdarray w = (k.proc.pcb p).fdarray w := rfl
    simp only [hr.pcbArray, Bool.true_eq_false, false_or, hfd]
    split
    · rfl
    · have hset := own_setFd k p w { (k.proc.pcb p).fdarray w with flags := false }
      split <;> simp_all

theorem open_own (hr : k.Runs p) (name : Option CString) :
    (k.open' img name).map (fun r => (r.1, r.2.proc.own p)) = (k.proc.own p).open' img name := by
  unfold open' Own.open'
  rw [hr.currPid, Option.bind_some, if_neg (by simp [hr.pcbArray])]
  have hfree : (k.proc.own p).freeFd = freeFd (k.proc.pcb p) := rfl
  rw [hfree]
  cases freeFd (k.proc.pcb p) with
  | none => rfl
  | some w =>
    cases name with
    | none => rfl
    | some name =>
      have hfd : (k.proc.own p).fdarray w = (k.proc.pcb p).fdarray w := rfl
      simp only [hfd]
      cases img.readDentryByName name with
      | error f => rfl
      | ok o =>
        cases o with
        | none => rfl
        | some entry =>
          have hset := own_setFd k p w
          cases hf : fopsOfType entry.filetype ((k.proc.pcb p).fdarray w).fopsPtr with
          | none => simp [hf]
          | some f =>
            cases f with
            | rtc => simp [hf, hset]
            | file =>
              simp only [hf]
              split <;> simp [hset]
            | dir =>
              simp only [hf]
              split <;> simp [hset]
            | read | write => simp [hf]

theorem read_own (hr : k.Runs p) (fd : Int) (buf : Option (Nat → UInt8)) (nbytes : Int) :
    (k.read img fd buf nbytes).map (ReadResult.own p) =
      (k.proc.own p).read img fd buf nbytes := by
  unfold read Own.read
  rw [hr.currPid, Option.bind_some]
  cases fdOf fd with
  | none => rfl
  | some w =>
    have hfd : (k.proc.own p).fdarray w = (k.proc.pcb p).fdarray w := rfl
    have hset := own_setFd k p w
    obtain ⟨t, ht, _⟩ := Option.bind_eq_some_iff.mp hr.currPid
    simp only [hr.pcbArray, Bool.true_eq_false, false_or, hfd]
    split
    · rfl
    · cases ((k.proc.pcb p).fdarray w).fopsPtr with
      | none => rfl
      | some f =>
        cases f with
        | rtc | write => rfl
        | read => simp [ht, ReadResult.own]
        | file =>
          simp only [fileRead, Own.fileRead, hfd]
          cases img.readData _ _ _ with
          | error f => rfl
          | ok r => simp [ReadResult.own, hset]
        | dir =>
          simp only [directoryRead, Own.directoryRead, hfd]
          cases img.readDentryByIndex _ with
          | error f => rfl
          | ok o => cases o <;> simp [ReadResult.own, hset]

theorem write_own (hr : k.Runs p) (fd : Int) (buf : Option (Nat → UInt8)) (nbytes : Int) :
    (k.write fd buf nbytes).map Prod.fst = (k.proc.own p).write fd buf nbytes := by
  unfold write Own.write
  rw [hr.currPid, Option.bind_some]
  cases fdOf fd with
  | none => rfl
  | some w =>
    cases buf with
    | none => rfl
    | some b =>
      have hfd : (k.proc.own p).fdarray w = (k.proc.pcb p).fdarray w := rfl
      simp only [hr.pcbArray, Bool.true_eq_false, false_or, hfd]
      split
      · rfl
      · cases ((k.proc.pcb p).fdarray w).fopsPtr with
        | none => rfl
        | some f =>
          cases f with
          | rtc =>
            simp only [Rtc.write, Option.map_some]
            split <;> rfl
          | _ => rfl

theorem getargs_own (hr : k.Runs p) (mem : Nat → UInt8) (nbytes : Int) :
    (k.getargs mem nbytes).map (fun r => (r.1, r.2.proc.own p)) =
      (k.proc.own p).getargs mem nbytes := by
  unfold getargs Own.getargs
  rw [hr.currPid, Option.bind_some]
  have hargs : (k.proc.own p).argsArray = (k.proc.pcb p).argsArray := rfl
  have hset : ∀ b : Pcb, (k.proc.setPcb p b).own p = ⟨b.fdarray, b.argsArray⟩ := by
    simp [Proc.own, Proc.setPcb]
  simp only [hr.pcbArray, Bool.true_eq_false, false_or, hargs]
  split
  · rfl
  · have hstr : ((List.range maxArgsSize).map (k.proc.pcb p).argsArray).takeWhile (· ≠ 0) =
        cstr maxArgsSize (k.proc.pcb p).argsArray := rfl
    simp only [hstr]
    by_cases hlong : (cstr maxArgsSize (k.proc.pcb p).argsArray).length = maxArgsSize ∧
        (maxArgsSize : Int) < nbytes
    · rw [if_pos hlong, if_pos hlong]
      rfl
    · rw [if_neg hlong, if_neg hlong]
      by_cases hfits : ((cstr maxArgsSize (k.proc.pcb p).argsArray).length : Int) < nbytes
      · rw [if_pos hfits, if_pos hfits]
        simp only [Option.map_some, hset]
        rfl
      · rw [if_neg hfits, if_neg hfits]
        split
        · rfl
        · simp only [Option.map_some, hset]
          rfl

end Kernel

/-! ## Calls of the machine -/

/-- How a call goes on in the machine: the machine after the event, and its reply. -/
inductive OwnResult.Goes (p : Pid) (o : Own) (m : Machine) : OwnResult → Option Reply → Prop
  | ret {r : Reply} {o' : Own} : m.ctl = .user p → m.kern.proc.own p = o' →
      Goes p o m (.ret r o') (some r)
  | terminal {x : Reader} : m.ctl = .reading p x → m.kern.proc.own p = o → Goes p o m .terminal none
  | rtc : m.ctl = .waiting p → m.kern.proc.own p = o → Goes p o m .rtc none
  /-- `execute` has entered no program. -/
  | failed {v : Int} : m.ctl = .user p → m.kern.proc.own p = o →
      Goes p o m .child (some ⟨v, []⟩)
  | child {q : Pid} : m.ctl = .user q → q ≠ p → m.kern.proc.pidMask p = true →
      m.kern.proc.own p = o → Goes p o m .child none

namespace Machine

variable {img : Image} {k : Kernel} {m' : Machine} {p : Pid} {e : Event} {y : Option Reply}

/-- Calls whose reply is settled by what the process has. -/
def OwnCall : Event → Prop
  | .read _ _ _ | .write _ _ _ | .open' _ | .close _ | .getargs _ _ => True
  | .setHandler | .sigreturn => True
  | _ => False

theorem OwnCall.isSyscall (h : OwnCall e) : IsSyscall e := by
  cases e <;> trivial

theorem call_of_user (img : Image) {m : Machine} (hc : m.ctl = .user p) (he : IsSyscall e) :
    call img m e = syscall img m.kern p e := by
  obtain ⟨k, ctl⟩ := m
  cases hc
  cases e <;> first | rfl | exact he.elim

/-- A call of the kernel is one over `Own`. -/
theorem goes_of_syscall (hr : k.Runs p) (hmask : k.proc.pidMask p = true)
    (h : syscall img k p e = some (m', y)) (hhalt : ∀ s, e ≠ .halt s ∧ e ≠ .haltCall s) :
    ∃ res, (k.proc.own p).syscall img e = some res ∧ res.Goes p (k.proc.own p) m' y := by
  cases e with
  | execute command esp ebp =>
    refine ⟨.child, rfl, ?_⟩
    have hkept :=
      @Undisturbed.execute p k.proc img k.con.curTerminal command ⟨esp, ebp, some p⟩ hmask
    have hown : ∀ proc, Undisturbed p k.proc proc → proc.own p = k.proc.own p := by
      intro proc hu
      simp only [Proc.own, hu.fdarray, hu.argsArray]
    simp only [syscall, execute] at h
    split at h
    · rename_i hx
      cases h
      exact .failed rfl (hown _ (hkept.1 _ _ hx))
    · rename_i child proc hx
      cases h
      have hu := hkept.2 _ _ hx
      refine .child rfl ?_ (hu.pidMask.trans hmask) (hown _ hu)
      rintro rfl
      obtain ⟨_, _, hl, _⟩ := Proc.execute_enter hx
      rw [Proc.freePid_spec hl.1.freePid] at hmask
      cases hmask
    · cases h
  | halt status => exact absurd rfl (hhalt status).1
  | haltCall status => exact absurd rfl (hhalt status).2
  | read fd buf nbytes =>
    obtain ⟨x, hx, heq⟩ := Option.map_eq_some_iff.mp h
    have hsq := @Kernel.read_own img k p hr fd buf nbytes
    rw [hx, Option.map_some] at hsq
    refine ⟨x.own p, hsq.symm, ?_⟩
    cases x with
    | ret r k' =>
      cases heq
      exact .ret rfl rfl
    | terminal t =>
      cases heq
      exact .terminal rfl rfl
    | rtc k' =>
      cases heq
      refine .rtc rfl ?_
      rw [Kernel.read_rtc hx]
  | write fd buf nbytes =>
    obtain ⟨⟨r, k'⟩, hx, heq⟩ := Option.map_eq_some_iff.mp h
    cases heq
    have hsq := Kernel.write_own hr fd buf nbytes
    rw [hx, Option.map_some] at hsq
    refine ⟨.ret r (k.proc.own p), ?_, .ret rfl ?_⟩
    · simp only [Own.syscall, ← hsq, Option.map_some]
    · rw [Kernel.write_proc hx]
  | open' name =>
    obtain ⟨⟨v, k'⟩, hx, heq⟩ := Option.map_eq_some_iff.mp h
    cases heq
    have hsq := @Kernel.open_own img k p hr name
    rw [hx, Option.map_some] at hsq
    refine ⟨.ret ⟨v, []⟩ (k'.proc.own p), ?_, .ret rfl rfl⟩
    simp only [Own.syscall, ← hsq, Option.map_some]
  | close fd =>
    obtain ⟨⟨v, k'⟩, hx, heq⟩ := Option.map_eq_some_iff.mp h
    cases heq
    have hsq := Kernel.close_own hr fd
    rw [hx, Option.map_some] at hsq
    refine ⟨.ret ⟨v, []⟩ (k'.proc.own p), ?_, .ret rfl rfl⟩
    simp only [Own.syscall, ← hsq, Option.map_some]
  | getargs mem nbytes =>
    obtain ⟨⟨r, k'⟩, hx, heq⟩ := Option.map_eq_some_iff.mp h
    cases heq
    have hsq := Kernel.getargs_own hr mem nbytes
    rw [hx, Option.map_some] at hsq
    refine ⟨.ret r (k'.proc.own p), ?_, .ret rfl rfl⟩
    simp only [Own.syscall, ← hsq, Option.map_some]
  | vidmap start =>
    obtain ⟨⟨v, k'⟩, hx, heq⟩ := Option.map_eq_some_iff.mp h
    cases heq
    obtain ⟨hst, _, hv⟩ := Kernel.vidmap_cases hx
    have hown : k'.proc.own p = k.proc.own p := by
      have hu : Undisturbed p k.proc k'.proc := .stored hst
      simp only [Proc.own, hu.fdarray, hu.argsArray]
    refine ⟨.ret ⟨v, []⟩ (k.proc.own p), ?_, .ret rfl hown⟩
    simp only [Own.syscall]
    rcases hv with ⟨rfl, _, hout⟩ | ⟨rfl, _, hin⟩
    · rw [if_pos (by omega)]
    · rw [if_neg (by omega)]
  | setHandler =>
    cases h
    exact ⟨_, rfl, .ret rfl rfl⟩
  | sigreturn =>
    cases h
    exact ⟨_, rfl, .ret rfl rfl⟩
  | tick | key | mouse | rtc | go => cases h

/-- The kernel takes a call that is settled by what the process has. -/
theorem syscall_of_own (hr : k.Runs p) (hmask : k.proc.pidMask p = true) (he : OwnCall e)
    {res : OwnResult} (h : (k.proc.own p).syscall img e = some res) :
    ∃ m' y, syscall img k p e = some (m', y) ∧ res.Goes p (k.proc.own p) m' y := by
  have hsome : ∃ x, syscall img k p e = some x := by
    cases e with
    | read fd buf nbytes =>
      have hsq := @Kernel.read_own img k p hr fd buf nbytes
      rw [show (k.proc.own p).read img fd buf nbytes = some res from h] at hsq
      obtain ⟨x, hx, _⟩ := Option.map_eq_some_iff.mp hsq
      exact ⟨_, by rw [syscall, hx, Option.map_some]⟩
    | write fd buf nbytes =>
      obtain ⟨r, hw, _⟩ := Option.map_eq_some_iff.mp h
      obtain ⟨x, hx, _⟩ := Option.map_eq_some_iff.mp ((Kernel.write_own hr fd buf nbytes).trans hw)
      exact ⟨_, by rw [syscall, hx, Option.map_some]⟩
    | open' name =>
      obtain ⟨r, ho, _⟩ := Option.map_eq_some_iff.mp h
      obtain ⟨x, hx, _⟩ := Option.map_eq_some_iff.mp ((Kernel.open_own hr name).trans ho)
      exact ⟨_, by rw [syscall, hx, Option.map_some]⟩
    | close fd =>
      obtain ⟨r, hc, _⟩ := Option.map_eq_some_iff.mp h
      obtain ⟨x, hx, _⟩ := Option.map_eq_some_iff.mp ((Kernel.close_own hr fd).trans hc)
      exact ⟨_, by rw [syscall, hx, Option.map_some]⟩
    | getargs mem nbytes =>
      obtain ⟨r, hg, _⟩ := Option.map_eq_some_iff.mp h
      obtain ⟨x, hx, _⟩ := Option.map_eq_some_iff.mp ((Kernel.getargs_own hr mem nbytes).trans hg)
      exact ⟨_, by rw [syscall, hx, Option.map_some]⟩
    | setHandler | sigreturn => exact ⟨_, rfl⟩
    | _ => exact he.elim
  obtain ⟨⟨m', y⟩, hx⟩ := hsome
  have hhalt : ∀ s, e ≠ .halt s ∧ e ≠ .haltCall s := by
    intro s
    constructor
    · rintro rfl
      exact he
    · rintro rfl
      exact he
  obtain ⟨res', hres, hgoes⟩ := goes_of_syscall hr hmask hx hhalt
  rw [h] at hres
  cases hres
  exact ⟨m', y, hx, hgoes⟩

end Machine
end DeviceOS
