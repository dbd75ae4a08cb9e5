import DeviceOS.Console
import DeviceOS.Execute

/-!
# DeviceOS.Syscalls

`rtc.c`, and the system calls of `system_calls.c` that work on the descriptors of the running
process: `read`, `write`, `open`, `close`, `getargs` and `vidmap`.

Each call is a function on the kernel that gives its result and the new kernel; `none` means that
it uses a pointer or an index that was never set. `read` of a terminal or of the RTC does not return
at once: it goes on in the loop of `terminal_read`, one statement at a time (`Kernel.readStep`), or
in the loop of `rtc_read` (`Kernel.rtcStep`).
-/

namespace DeviceOS

/-! ## `rtc.c` -/

namespace Rtc

def maxFreq : Nat := 1024

def changeRate (r : Rtc) (rate : Nat) : Rtc :=
  { r with regA := (r.regA &&& 0xF0) ||| UInt8.ofNat (rate % 16) }

def handler (r : Rtc) : Rtc :=
  { r with rtcCounter := (r.rtcCounter + 1) % 2 ^ 32, rtcInterrupt := true }

def open' (r : Rtc) : Rtc := { r with rtcFrequency := 2 }.changeRate 15

def close (r : Rtc) : Rtc := { r with rtcCounter := 0, rtcFrequency := 0 }

/-- The first statement of `rtc_read`. -/
def resetInterrupt (r : Rtc) : Rtc := { r with rtcInterrupt := false }

/-- The loop of `rtc_write`: `rate` for `divider`, with at most `n` halvings. -/
def rateLoop : Nat → Nat → Nat → Nat
  | 0, _, rate => rate
  | n + 1, divider, rate => if 1 ≤ divider then rateLoop n (divider / 2) (rate + 1) else rate

/-- `rtc_write` of the value `frequency`. -/
def write (r : Rtc) (frequency : Nat) : Int × Rtc :=
  if frequency = 0 ∨ maxFreq < frequency then (-1, r)
  else (0, { r with rtcFrequency := frequency }.changeRate (rateLoop 32 (32768 / frequency) 0))

end Rtc

/-! ## System calls -/

/-- What a system call hands back to the program: its result, and the bytes it stored from the
start of the program's buffer. -/
structure Reply where
  ret : Int
  out : List UInt8

/-- How `read` goes on: it returns, enters `terminal_read` on a terminal, or enters the loop of
`rtc_read`. -/
inductive ReadResult where
  | ret (r : Reply) (k : Kernel)
  | terminal (t : Term)
  | rtc (k : Kernel)

namespace Kernel

def onProc (k : Kernel) (f : Proc → Proc) : Kernel := { k with proc := f k.proc }

/-- `pid_arr[terminal_process_index]`, the process that a system call acts for. -/
def currPid (k : Kernel) : Option Pid := k.proc.terminalProcessIndex.bind k.proc.pidArr

def setFd (k : Kernel) (q : Pid) (fd : Fin 8) (e : FdaEntry) : Kernel :=
  let b := k.proc.pcb q
  { k with proc := k.proc.setPcb q { b with fdarray := Function.update b.fdarray fd e } }

/-- A descriptor number in range. -/
def fdOf (fd : Int) : Option (Fin 8) :=
  if h : 0 ≤ fd ∧ fd < 8 then some ⟨fd.toNat, by omega⟩ else none

def close (k : Kernel) (fd : Int) : Option (Int × Kernel) :=
  k.currPid.bind fun q =>
    match fdOf fd with
    | none => some (-1, k)
    | some w =>
      let e := (k.proc.pcb q).fdarray w
      if w.val < 2 ∨ k.proc.pcbArray q = false ∨ e.flags = false then some (-1, k)
      else
        let k1 := k.setFd q w { e with flags := false }
        match e.fopsPtr with
        | some .rtc => some (0, { k1 with rtc := k1.rtc.close })
        | some .file | some .dir => some (0, k1)
        | some .read | some .write | none => none

/-- `file_read`, on a descriptor in range and a buffer that is not NULL. -/
def fileRead (img : Image) (k : Kernel) (q : Pid) (w : Fin 8) (nbytes : Nat) :
    Option (Reply × Kernel) :=
  let e := (k.proc.pcb q).fdarray w
  match img.readData e.inodeNum e.filePos nbytes with
  | .error _ => none
  | .ok r =>
    -- the result is kept in a `uint32_t`, so -1 moves the position back by one
    some (⟨r.ret, r.bytes⟩,
      k.setFd q w { e with filePos := (e.filePos + (r.ret % 2 ^ 32).toNat) % 2 ^ 32 })

def directoryRead (img : Image) (k : Kernel) (q : Pid) (w : Fin 8) (nbytes : Nat) :
    Option (Reply × Kernel) :=
  let e := (k.proc.pcb q).fdarray w
  match img.readDentryByIndex e.filePos with
  | .error _ => none
  | .ok none => some (⟨0, []⟩, k)
  | .ok (some entry) =>
    let out := ((List.range (min nbytes filenameLen)).map entry.filename).takeWhile (· ≠ 0)
    some (⟨out.length, out⟩, k.setFd q w { e with filePos := (e.filePos + 1) % 2 ^ 32 })

/-- `buf` is the memory from the buffer on (`none`: NULL). -/
def read (img : Image) (k : Kernel) (fd : Int) (buf : Option (Nat → UInt8)) (nbytes : Int) :
    Option ReadResult :=
  k.currPid.bind fun q =>
    match fdOf fd with
    | none => some (.ret ⟨-1, []⟩ k)
    | some w =>
      let e := (k.proc.pcb q).fdarray w
      if k.proc.pcbArray q = false ∨ buf.isNone ∨ nbytes < 0 ∨ e.flags = false then
        some (.ret ⟨-1, []⟩ k)
      else
        match e.fopsPtr with
        | some .rtc => some (.rtc { k with rtc := k.rtc.resetInterrupt })
        | some .file => (k.fileRead img q w nbytes.toNat).map fun r => .ret r.1 r.2
        | some .dir => (k.directoryRead img q w nbytes.toNat).map fun r => .ret r.1 r.2
        | some .read => k.proc.terminalProcessIndex.map .terminal
        | some .write => some (.ret ⟨-1, []⟩ k)
        | none => none

/-- One statement of the loop of `terminal_read`, called by process `p`; the last one includes
what follows the loop. -/
def readStep (k : Kernel) (p : Pid) (r : Reader) : Option (Kernel × Ctl × Option Reply) :=
  let s := k.con.terminalStruct r.term
  match r.step s with
  | .more r' => some (k, .reading p r', none)
  | .done buf ret =>
    k.currPid.map fun q =>
      ({ k with con := k.con.setTerm r.term (s.finishRead (k.proc.shellMask q)) }, .user p,
        some ⟨ret, (List.range ret).map buf⟩)
  | .wild => none

/-- One test of `rtc_interrupt` in the loop of `rtc_read`, called by process `p`. -/
def rtcStep (k : Kernel) (p : Pid) : Ctl × Option Reply :=
  if k.rtc.rtcInterrupt then (.user p, some ⟨0, []⟩) else (.waiting p, none)

/-- `buf` is the memory from the buffer on (`none`: NULL). -/
def write (k : Kernel) (fd : Int) (buf : Option (Nat → UInt8)) (nbytes : Int) :
    Option (Reply × Kernel) :=
  k.currPid.bind fun q =>
    match fdOf fd, buf with
    | some w, some b =>
      let e := (k.proc.pcb q).fdarray w
      if k.proc.pcbArray q = false ∨ nbytes < 0 ∨ e.flags = false then some (⟨-1, []⟩, k)
      else
        match e.fopsPtr with
        | some .rtc =>
          let r := k.rtc.write (leNat [b 0, b 1, b 2, b 3])
          some (⟨r.1, []⟩, { k with rtc := r.2 })
        | some .file | some .dir | some .read => some (⟨-1, []⟩, k)
        | some .write =>
          let con := k.con.terminalWrite k.proc.terminalProcessIndex
            ((List.range nbytes.toNat).map b)
          some (⟨nbytes, []⟩, { k with con := con })
        | none => none
    | _, _ => some (⟨-1, []⟩, k)

/-- The `switch` of `open`: an entry of any other type leaves the pointer as it was. -/
def fopsOfType (filetype : BitVec 32) (old : Option Fops) : Option Fops :=
  if filetype = 0 then some .rtc
  else if filetype = 1 then some .dir
  else if filetype = 2 then some .file
  else old

/-- The first descriptor in 2..7 whose flag is 0. -/
def freeFd (b : Pcb) : Option (Fin 8) :=
  (List.finRange 8).find? fun w => 2 ≤ w.val && !(b.fdarray w).flags

def open' (img : Image) (k : Kernel) (filename : Option CString) : Option (Int × Kernel) :=
  k.currPid.bind fun q =>
    if k.proc.pcbArray q = false then some (-1, k)
    else
      match freeFd (k.proc.pcb q), filename with
      | some w, some name =>
        match img.readDentryByName name with
        | .error _ => none
        | .ok none => some (-1, k)
        | .ok (some entry) =>
          let e : FdaEntry := {
            fopsPtr := fopsOfType entry.filetype ((k.proc.pcb q).fdarray w).fopsPtr
            inodeNum := entry.inodeNum.toNat
            filePos := 0
            flags := true }
          let k1 := k.setFd q w e
          let failed := k.setFd q w { e with flags := false }
          match e.fopsPtr with
          | some .rtc => some (w.val, { k1 with rtc := k1.rtc.open' })
          | some .file => if entry.filetype = 2 then some (w.val, k1) else some (-1, failed)
          | some .dir => if entry.filetype = 1 then some (w.val, k1) else some (-1, failed)
          | some .read | some .write | none => none
      | _, _ => some (-1, k)

/-- `getargs`; `mem` is the memory from `buf` on. -/
def getargs (k : Kernel) (mem : Nat → UInt8) (nbytes : Int) : Option (Reply × Kernel) :=
  k.currPid.bind fun q =>
    let b := k.proc.pcb q
    if k.proc.pcbArray q = false ∨ b.argsArray 0 = 0 ∨ nbytes < 1 then some (⟨-1, []⟩, k)
    else
      let args := ((List.range maxArgsSize).map b.argsArray).takeWhile (· ≠ 0)
      if args.length = maxArgsSize ∧ (maxArgsSize : Int) < nbytes then none
      -- after the loop `i` is the length of the string, or `nbytes` when it did not fit
      else if (args.length : Int) < nbytes then
        some (⟨0, args ++ [0]⟩, { k with proc := k.proc.setPcb q { b with
          argsArray := fun i => if i < maxArgsSize then 0 else b.argsArray i } })
      else
        let out := args.take nbytes.toNat
        if mem nbytes.toNat ≠ 0 then some (⟨-1, out⟩, k)
        else some (⟨0, out⟩, { k with proc := k.proc.setPcb q { b with
          argsArray := fun i => if i < maxArgsSize then 0 else b.argsArray i } })

def usrmemTop : Nat := 0x8400000
def usrmemBottom : Nat := 0x8000000

/-- `vidmap`; `screenStart` is the address it is given (0: NULL). -/
def vidmap (k : Kernel) (screenStart : Nat) : Option (Int × Kernel) :=
  if screenStart < usrmemBottom ∨ usrmemTop < screenStart then some (-1, k)
  else
    (k.proc.storeBytes screenStart [0x00, 0x80, 0x0B, 0x00]).map fun p =>
      (0, { k with proc := p, con := { k.con with vidmapped := true, vidmemPage := vidmemIndex } })

end Kernel
end DeviceOS
