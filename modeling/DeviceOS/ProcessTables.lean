import DeviceOS.Loader
import DeviceOS.StepCases

/-!
# DeviceOS.ProcessTables

What each event can do to the process tables.

* `SameTables`: everything that `execute`, `halt` and `schedule` use to switch processes is
  unchanged. Descriptors, arguments, typing and program memory may differ.
* `Machine.Quiet`, `Machine.step_sameTables`: all events but the timer, `execute` and `halt` keep
  these tables.
* `Kernel.pitHandler_cases`: what a tick does: nothing, start a shell (which can fail), or resume a
  process.
* `HaltPc.exec_cases`: what one statement of `halt` does. `runHalt_inv`, `halt_rel`: what the whole
  call keeps.
-/

namespace DeviceOS

/-- The fields of a PCB that only `execute` and `schedule` store to. -/
structure SamePcb (b b' : Pcb) : Prop where
  parentid : b'.parentid = b.parentid
  tssPrevEsp0 : b'.tssPrevEsp0 = b.tssPrevEsp0
  prev : b'.prev = b.prev
  program : b'.program = b.program

structure SameTables (p p' : Proc) : Prop where
  haltValue : p'.haltValue = p.haltValue
  shellMask : p'.shellMask = p.shellMask
  pidMask : p'.pidMask = p.pidMask
  pidArr : p'.pidArr = p.pidArr
  pcbArray : p'.pcbArray = p.pcbArray
  tss : p'.tss = p.tss
  pageDirectory32 : p'.pageDirectory32 = p.pageDirectory32
  terminalProcessIndex : p'.terminalProcessIndex = p.terminalProcessIndex
  pcb : ∀ q, SamePcb (p.pcb q) (p'.pcb q)

theorem SamePcb.refl (b : Pcb) : SamePcb b b := ⟨rfl, rfl, rfl, rfl⟩

theorem SameTables.refl (p : Proc) : SameTables p p :=
  ⟨rfl, rfl, rfl, rfl, rfl, rfl, rfl, rfl, fun _ => .refl _⟩

theorem Proc.setPcb_sameTables (p : Proc) {q : Pid} {b : Pcb} (h : SamePcb (p.pcb q) b) :
    SameTables p (p.setPcb q b) := by
  refine ⟨rfl, rfl, rfl, rfl, rfl, rfl, rfl, rfl, fun r => ?_⟩
  by_cases hr : r = q
  · subst hr
    simpa [Proc.setPcb] using h
  · simp [Proc.setPcb, Function.update_of_ne hr, SamePcb.refl]

theorem Proc.Stored.sameTables {p p' : Proc} (h : p.Stored p') : SameTables p p' := by
  obtain ⟨mem, rfl, _⟩ := h
  exact ⟨rfl, rfl, rfl, rfl, rfl, rfl, rfl, rfl, fun _ => .refl _⟩

/-- The thread is in the program of process `p`, or in a `read` that it has called. -/
def Ctl.Serves (p : Pid) : Ctl → Prop
  | .user r | .reading r _ | .waiting r => r = p
  | _ => False

namespace Kernel

variable {img : Image} {k k' : Kernel}

theorem setFd_sameTables (k : Kernel) (q : Pid) (fd : Fin 8) (e : FdaEntry) :
    SameTables k.proc (k.setFd q fd e).proc :=
  k.proc.setPcb_sameTables ⟨rfl, rfl, rfl, rfl⟩

/-! ## System calls -/

/-- The process tables and the console are unchanged. -/
def Apart (k k' : Kernel) : Prop := SameTables k.proc k'.proc ∧ k'.con = k.con

theorem Apart.refl (k : Kernel) : k.Apart k := ⟨.refl _, rfl⟩

theorem setFd_apart (k : Kernel) (q : Pid) (fd : Fin 8) (e : FdaEntry) : k.Apart (k.setFd q fd e) :=
  ⟨k.setFd_sameTables q fd e, rfl⟩

/-- `close` changes nothing, or clears the flag of a descriptor from 2 on. -/
theorem close_cases {fd v : Int} (h : k.close fd = some (v, k')) : k' = k ∨
    ∃ q w, 2 ≤ w.val ∧ k'.con = k.con ∧ (k'.rtc = k.rtc ∨ k'.rtc = k.rtc.close) ∧
      k'.proc = (k.setFd q w { (k.proc.pcb q).fdarray w with flags := false }).proc := by
  simp only [close, Option.bind_eq_some_iff] at h
  obtain ⟨q, _, h⟩ := h
  split at h
  · cases h
    exact Or.inl rfl
  · rename_i w _
    split at h
    · cases h
      exact Or.inl rfl
    · rename_i hcond
      have hw : 2 ≤ w.val := by omega
      split at h
      · cases h
        exact Or.inr ⟨q, w, hw, rfl, Or.inr rfl, rfl⟩
      · cases h
        exact Or.inr ⟨q, w, hw, rfl, Or.inl rfl, rfl⟩
      · cases h
        exact Or.inr ⟨q, w, hw, rfl, Or.inl rfl, rfl⟩
      · cases h
      · cases h
      · cases h

theorem close_apart {fd v : Int} (h : k.close fd = some (v, k')) : k.Apart k' := by
  rcases close_cases h with rfl | ⟨q, w, _, hcon, _, hproc⟩
  · exact .refl k'
  · exact ⟨by rw [hproc]; exact k.setFd_sameTables q w _, hcon⟩

/-- `file_read` moves the position of its descriptor, and nothing else. -/
theorem fileRead_cases {q : Pid} {w : Fin 8} {n : Nat} {r : Reply}
    (h : k.fileRead img q w n = some (r, k')) :
    ∃ pos, k' = k.setFd q w { (k.proc.pcb q).fdarray w with filePos := pos } := by
  simp only [fileRead] at h
  split at h
  · cases h
  · cases h
    exact ⟨_, rfl⟩

/-- `directory_read` does so too, or finds no entry. -/
theorem directoryRead_cases {q : Pid} {w : Fin 8} {n : Nat} {r : Reply}
    (h : k.directoryRead img q w n = some (r, k')) :
    k' = k ∨ ∃ pos, k' = k.setFd q w { (k.proc.pcb q).fdarray w with filePos := pos } := by
  simp only [directoryRead] at h
  split at h
  · cases h
  · cases h
    exact Or.inl rfl
  · cases h
    exact Or.inr ⟨_, rfl⟩

theorem fileRead_apart {q : Pid} {w : Fin 8} {n : Nat} {r : Reply}
    (h : k.fileRead img q w n = some (r, k')) : k.Apart k' := by
  obtain ⟨pos, rfl⟩ := fileRead_cases h
  exact setFd_apart k q w _

theorem directoryRead_apart {q : Pid} {w : Fin 8} {n : Nat} {r : Reply}
    (h : k.directoryRead img q w n = some (r, k')) : k.Apart k' := by
  rcases directoryRead_cases h with rfl | ⟨pos, rfl⟩
  · exact .refl k'
  · exact setFd_apart k q w _

/-- `read` or `write` gets to the operations `ops` of descriptor `w` of process `q`. -/
structure OpenFor (k : Kernel) (fd : Int) (buf : Option (Nat → UInt8)) (nbytes : Int) (q : Pid)
    (w : Fin 8) (ops : Fops) : Prop where
  currPid : k.currPid = some q
  fdOf : fdOf fd = some w
  pcbArray : k.proc.pcbArray q = true
  buf : buf ≠ none
  nbytes : 0 ≤ nbytes
  flags : ((k.proc.pcb q).fdarray w).flags = true
  fopsPtr : ((k.proc.pcb q).fdarray w).fopsPtr = some ops

theorem OpenFor.unique {fd nbytes : Int} {buf : Option (Nat → UInt8)} {q q' : Pid} {w w' : Fin 8}
    {ops ops' : Fops} (h : k.OpenFor fd buf nbytes q w ops)
    (h' : k.OpenFor fd buf nbytes q' w' ops') : ops = ops' := by
  obtain rfl : q = q' := Option.some.inj (h.currPid.symm.trans h'.currPid)
  obtain rfl : w = w' := Option.some.inj (h.fdOf.symm.trans h'.fdOf)
  exact Option.some.inj (h.fopsPtr.symm.trans h'.fopsPtr)

theorem OpenFor.not_refused {fd nbytes : Int} {buf : Option (Nat → UInt8)} {q : Pid} {w : Fin 8}
    {ops : Fops} (h : k.OpenFor fd buf nbytes q w ops) :
    ¬ (k.proc.pcbArray q = false ∨ buf.isNone = true ∨ nbytes < 0 ∨
      ((k.proc.pcb q).fdarray w).flags = false) := by
  rintro (h1 | h1 | h1 | h1)
  · rw [h.pcbArray] at h1
    cases h1
  · exact h.buf (Option.isNone_iff_eq_none.mp h1)
  · have := h.nbytes
    omega
  · rw [h.flags] at h1
    cases h1

/-- What `read` does: it is refused, or calls the operation of the descriptor. -/
inductive ReadCase (img : Image) (k : Kernel) (fd nbytes : Int) (buf : Option (Nat → UInt8)) :
    ReadResult → Prop
  | refused : (∀ q w ops, k.OpenFor fd buf nbytes q w ops → ops = .write) →
      ReadCase img k fd nbytes buf (.ret ⟨-1, []⟩ k)
  | rtc {q : Pid} {w : Fin 8} : k.OpenFor fd buf nbytes q w .rtc →
      ReadCase img k fd nbytes buf (.rtc { k with rtc := k.rtc.resetInterrupt })
  | file {q : Pid} {w : Fin 8} {r : Reply} {k' : Kernel} : k.OpenFor fd buf nbytes q w .file →
      k.fileRead img q w nbytes.toNat = some (r, k') → ReadCase img k fd nbytes buf (.ret r k')
  | dir {q : Pid} {w : Fin 8} {r : Reply} {k' : Kernel} : k.OpenFor fd buf nbytes q w .dir →
      k.directoryRead img q w nbytes.toNat = some (r, k') →
      ReadCase img k fd nbytes buf (.ret r k')
  | terminal {q : Pid} {w : Fin 8} {t : Term} : k.OpenFor fd buf nbytes q w .read →
      ReadCase img k fd nbytes buf (.terminal t)

theorem read_cases {fd nbytes : Int} {buf : Option (Nat → UInt8)} {x : ReadResult}
    (h : k.read img fd buf nbytes = some x) : ReadCase img k fd nbytes buf x := by
  simp only [read, Option.bind_eq_some_iff] at h
  obtain ⟨q, hq, h⟩ := h
  split at h
  · rename_i hw
    cases h
    refine .refused fun q' w' ops ho => ?_
    have := ho.fdOf
    rw [hw] at this
    cases this
  · rename_i w hw
    split at h
    · rename_i hcond
      cases h
      refine .refused fun q' w' ops ho => ?_
      obtain rfl : q = q' := Option.some.inj (hq.symm.trans ho.currPid)
      obtain rfl : w = w' := Option.some.inj (hw.symm.trans ho.fdOf)
      have hpcb := ho.pcbArray
      have hflags := ho.flags
      have hbuf := ho.buf
      have hn := ho.nbytes
      rcases hcond with hc | hc | hc | hc
      · rw [hpcb] at hc
        cases hc
      · exact absurd (Option.isNone_iff_eq_none.mp hc) hbuf
      · omega
      · rw [hflags] at hc
        cases hc
    · rename_i hcond
      simp only [not_or] at hcond
      obtain ⟨h1, h2, h3, h4⟩ := hcond
      have hopen : ∀ {ops : Fops}, ((k.proc.pcb q).fdarray w).fopsPtr = some ops →
          k.OpenFor fd buf nbytes q w ops := fun hops =>
        ⟨hq, hw, by simpa using h1, by simpa using h2, by omega, by simpa using h4, hops⟩
      split at h
      · rename_i hops
        cases h
        exact .rtc (hopen hops)
      · rename_i hops
        obtain ⟨⟨r, k'⟩, hread, rfl⟩ := Option.map_eq_some_iff.mp h
        exact .file (hopen hops) hread
      · rename_i hops
        obtain ⟨⟨r, k'⟩, hread, rfl⟩ := Option.map_eq_some_iff.mp h
        exact .dir (hopen hops) hread
      · rename_i hops
        obtain ⟨t, _, rfl⟩ := Option.map_eq_some_iff.mp h
        exact .terminal (hopen hops)
      · rename_i hops
        cases h
        exact .refused fun q' w' ops ho => ho.unique (hopen hops)
      · cases h

theorem read_apart {fd nbytes : Int} {buf : Option (Nat → UInt8)} {r : Reply}
    (h : k.read img fd buf nbytes = some (.ret r k')) : k.Apart k' := by
  cases read_cases h with
  | refused => exact .refl k
  | file _ hread => exact fileRead_apart hread
  | dir _ hread => exact directoryRead_apart hread

/-- `rtc_read` starts with `rtc_interrupt = 0`. -/
theorem read_rtc {fd nbytes : Int} {buf : Option (Nat → UInt8)}
    (h : k.read img fd buf nbytes = some (.rtc k')) :
    k' = { k with rtc := k.rtc.resetInterrupt } := by
  cases read_cases h with
  | rtc => rfl

/-- What `open` does: nothing, or it fails when the descriptor is already set up, or it succeeds. -/
inductive OpenCase (img : Image) (k : Kernel) : Option CString → Int → Kernel → Prop
  | refused {name : Option CString} : OpenCase img k name (-1) k
  | failed {name : Option CString} {q : Pid} {w : Fin 8} {e : FdaEntry} : e.flags = false →
      OpenCase img k name (-1) (k.setFd q w e)
  | opened {q : Pid} {w : Fin 8} {fname : CString} {entry : Dentry} {ops : Fops} {k' : Kernel} :
      k.currPid = some q → freeFd (k.proc.pcb q) = some w →
      img.readDentryByName fname = .ok (some entry) →
      fopsOfType entry.filetype ((k.proc.pcb q).fdarray w).fopsPtr = some ops →
      (ops = .file → entry.filetype = 2) →
      k'.proc = (k.setFd q w ⟨some ops, entry.inodeNum.toNat, 0, true⟩).proc → k'.con = k.con →
      k'.rtc = (if ops = .rtc then k.rtc.open' else k.rtc) → OpenCase img k (some fname) w.val k'

theorem open_cases {name : Option CString} {v : Int} (h : k.open' img name = some (v, k')) :
    OpenCase img k name v k' := by
  simp only [open', Option.bind_eq_some_iff] at h
  obtain ⟨q, hq, h⟩ := h
  split at h
  · cases h
    exact .refused
  · split at h
    · rename_i w fname hfree
      split at h
      · cases h
      · cases h
        exact .refused
      · rename_i entry hname
        split at h
        · rename_i hops
          cases h
          exact .opened hq hfree hname hops (by simp) (by rw [hops]) rfl rfl
        · rename_i hops
          split at h
          · rename_i htype
            cases h
            exact .opened hq hfree hname hops (fun _ => htype) (by rw [hops]) rfl rfl
          · cases h
            exact .failed rfl
        · rename_i hops
          split at h
          · cases h
            exact .opened hq hfree hname hops (by simp) (by rw [hops]) rfl rfl
          · cases h
            exact .failed rfl
        · cases h
        · cases h
        · cases h
    · cases h
      exact .refused

theorem open_apart {name : Option CString} {v : Int} (h : k.open' img name = some (v, k')) :
    k.Apart k' := by
  cases open_cases h with
  | refused => exact .refl k
  | failed => exact setFd_apart k _ _ _
  | opened _ _ _ _ _ hproc hcon =>
    exact ⟨by rw [hproc]; exact k.setFd_sameTables _ _ _, hcon⟩

/-- `getargs` fails and changes nothing, or clears the arguments of the process. -/
theorem getargs_cases {mem : Nat → UInt8} {nbytes : Int} {r : Reply}
    (h : k.getargs mem nbytes = some (r, k')) : (r.ret = -1 ∧ k' = k) ∨
      (r.ret = 0 ∧ ∃ q, k.currPid = some q ∧ k' = k.onProc (·.setPcb q { k.proc.pcb q with
        argsArray := fun i => if i < maxArgsSize then 0 else (k.proc.pcb q).argsArray i })) := by
  simp only [getargs, Option.bind_eq_some_iff] at h
  obtain ⟨q, hq, h⟩ := h
  split at h
  · cases h
    exact Or.inl ⟨rfl, rfl⟩
  · split at h
    · cases h
    · split at h
      · cases h
        exact Or.inr ⟨rfl, q, hq, rfl⟩
      · split at h
        · cases h
          exact Or.inl ⟨rfl, rfl⟩
        · cases h
          exact Or.inr ⟨rfl, q, hq, rfl⟩

theorem getargs_apart {mem : Nat → UInt8} {nbytes : Int} {r : Reply}
    (h : k.getargs mem nbytes = some (r, k')) : k.Apart k' := by
  rcases getargs_cases h with ⟨_, rfl⟩ | ⟨_, q, _, rfl⟩
  · exact .refl k'
  · exact ⟨k.proc.setPcb_sameTables ⟨rfl, rfl, rfl, rfl⟩, rfl⟩

/-- What `write` does: it is refused, or sets the rate of the RTC, or draws on the screen. -/
inductive WriteCase (k : Kernel) (fd nbytes : Int) : Option (Nat → UInt8) → Reply → Kernel → Prop
  | refused {buf : Option (Nat → UInt8)} : WriteCase k fd nbytes buf ⟨-1, []⟩ k
  | rtc {q : Pid} {w : Fin 8} {b : Nat → UInt8} : k.OpenFor fd (some b) nbytes q w .rtc →
      WriteCase k fd nbytes (some b) ⟨(k.rtc.write (leNat [b 0, b 1, b 2, b 3])).1, []⟩
        { k with rtc := (k.rtc.write (leNat [b 0, b 1, b 2, b 3])).2 }
  | terminal {q : Pid} {w : Fin 8} {b : Nat → UInt8} : k.OpenFor fd (some b) nbytes q w .write →
      WriteCase k fd nbytes (some b) ⟨nbytes, []⟩ { k with
        con := k.con.terminalWrite k.proc.terminalProcessIndex
          ((List.range nbytes.toNat).map b) }

theorem write_cases {fd nbytes : Int} {buf : Option (Nat → UInt8)} {r : Reply}
    (h : k.write fd buf nbytes = some (r, k')) : WriteCase k fd nbytes buf r k' := by
  simp only [write, Option.bind_eq_some_iff] at h
  obtain ⟨q, hq, h⟩ := h
  split at h
  · rename_i w b hw
    split at h
    · cases h
      exact .refused
    · rename_i hcond
      simp only [not_or] at hcond
      obtain ⟨h1, h2, h3⟩ := hcond
      have hopen : ∀ {ops : Fops}, ((k.proc.pcb q).fdarray w).fopsPtr = some ops →
          k.OpenFor fd (some b) nbytes q w ops := fun hops =>
        ⟨hq, hw, by simpa using h1, by simp, by omega, by simpa using h3, hops⟩
      split at h
      · rename_i hops
        cases h
        exact .rtc (hopen hops)
      · cases h
        exact .refused
      · cases h
        exact .refused
      · cases h
        exact .refused
      · rename_i hops
        cases h
        exact .terminal (hopen hops)
      · cases h
  · cases h
    exact .refused

theorem write_proc {fd nbytes : Int} {buf : Option (Nat → UInt8)} {r : Reply}
    (h : k.write fd buf nbytes = some (r, k')) : k'.proc = k.proc := by
  cases write_cases h with
  | refused => rfl
  | rtc => rfl
  | terminal => rfl

/-- `vidmap` succeeds for an address in the program page, and then sets the page of video memory. -/
theorem vidmap_cases {start : Nat} {v : Int} (h : k.vidmap start = some (v, k')) :
    k.proc.Stored k'.proc ∧ k'.rtc = k.rtc ∧
      (v = -1 ∧ k' = k ∧ ¬ (usrmemBottom ≤ start ∧ start ≤ usrmemTop) ∨
        v = 0 ∧ k'.con = { k.con with vidmapped := true, vidmemPage := vidmemIndex } ∧
          usrmemBottom ≤ start ∧ start ≤ usrmemTop) := by
  simp only [vidmap] at h
  split at h
  · cases h
    exact ⟨.refl _, rfl, Or.inl ⟨rfl, rfl, by omega⟩⟩
  · obtain ⟨p, hp, heq⟩ := Option.map_eq_some_iff.mp h
    cases heq
    exact ⟨Proc.storeBytes_stored hp, rfl, Or.inr ⟨rfl, rfl, by omega, by omega⟩⟩

theorem readStep_proc {p : Pid} {r : Reader} {c : Ctl} {y : Option Reply}
    (h : k.readStep p r = some (k', c, y)) :
    k'.proc = k.proc ∧ k'.rtc = k.rtc ∧ c.Serves p := by
  simp only [readStep] at h
  split at h
  · cases h; exact ⟨rfl, rfl, rfl⟩
  · obtain ⟨q, _, heq⟩ := Option.map_eq_some_iff.mp h
    cases heq
    exact ⟨rfl, rfl, rfl⟩
  · cases h

theorem rtcStep_serves (k : Kernel) (p : Pid) : (k.rtcStep p).1.Serves p := by
  simp only [rtcStep]
  split <;> rfl

/-! ## The mouse -/

/-- Only the first click of the right button on a shell does more than set `right_click`. -/
theorem rightButton_cases {status : UInt8} {r : Kernel × Bool} (h : k.rightButton status = some r) :
    r.1.rtc = k.rtc ∧ ((r.1.proc = k.proc ∧ r.1.con = k.con) ∨
      (r.1.proc = k.togglePaint.1.proc ∧ r.1.con = k.togglePaint.1.con)) := by
  simp only [rightButton] at h
  split at h
  · cases h
    exact ⟨rfl, Or.inl ⟨rfl, rfl⟩⟩
  · obtain ⟨r1, h1, rfl⟩ := Option.map_eq_some_iff.mp h
    split at h1
    · cases h1
      exact ⟨rfl, Or.inl ⟨rfl, rfl⟩⟩
    · obtain ⟨q, _, rfl⟩ := Option.map_eq_some_iff.mp h1
      split
      · exact ⟨rfl, Or.inr ⟨rfl, rfl⟩⟩
      · exact ⟨rfl, Or.inl ⟨rfl, rfl⟩⟩

/-- A packet is dropped, or moves the pointer after the right button is looked at. -/
theorem mouseHandler_cases {p : Packet} (h : k.mouseHandler p = some k') :
    k' = k ∨ ∃ (k1 : Kernel) (x y : Nat) (paintFlag : Bool),
      k' = k1.drawPointer p.status x y paintFlag ∧ k1.rtc = k.rtc ∧
      ((k1.proc = k.proc ∧ k1.con = k.con) ∨
        (k1.proc = k.togglePaint.1.proc ∧ k1.con = k.togglePaint.1.con)) := by
  simp only [mouseHandler] at h
  split at h
  · cases h
    exact Or.inl rfl
  · split at h
    · cases h
      exact Or.inl rfl
    · obtain ⟨r, hr, rfl⟩ := Option.map_eq_some_iff.mp h
      exact Or.inr ⟨r.1, _, _, _, rfl, rightButton_cases hr⟩

theorem mouseHandler_proc {p : Packet} (h : k.mouseHandler p = some k') :
    k'.proc = k.proc ∨ k'.proc = k.togglePaint.1.proc := by
  rcases mouseHandler_cases h with rfl | ⟨k1, x, y, flag, rfl, _, ⟨hp, _⟩ | ⟨hp, _⟩⟩
  · exact Or.inl rfl
  · exact Or.inl hp
  · exact Or.inr hp

theorem mouseHandler_sameTables {p : Packet} (h : k.mouseHandler p = some k') :
    SameTables k.proc k'.proc := by
  rcases mouseHandler_proc h with hp | hp
  · rw [hp]
    exact .refl _
  · rw [hp]
    exact ⟨rfl, rfl, rfl, rfl, rfl, rfl, rfl, rfl, fun _ => .refl _⟩

/-! ## The timer -/

/-- The terminal that the next tick moves to; `none`: it changes nothing. -/
def nextTerminal (k : Kernel) : Option Term :=
  k.search k.proc.terminalProcessIndex 3 (nextTerm k.proc.terminalProcessIndex)

/-- The kernel when `schedule` has stored the interrupted context. -/
def suspended (k : Kernel) (ctl : Ctl) (t : Term) : Kernel :=
  k.onProc fun p => { p with
    terminalProcessIndex := some t
    pcb := match p.terminalProcessIndex.bind p.pidArr with
      | none => p.pcb
      | some q => Function.update p.pcb q { p.pcb q with
          program := ctl
          tssProgramEsp0 := p.tss.esp0
          tssProgramSs0 := p.tss.ss0 } }

/-- Only the PCB of the interrupted process changes. -/
theorem suspended_pcb (k : Kernel) (ctl : Ctl) (t : Term) (q : Pid) :
    (k.suspended ctl t).proc.pcb q = k.proc.pcb q ∨
      (k.suspended ctl t).proc.pcb q = { k.proc.pcb q with
        program := ctl
        tssProgramEsp0 := k.proc.tss.esp0
        tssProgramSs0 := k.proc.tss.ss0 } := by
  simp only [suspended, onProc]
  cases k.proc.terminalProcessIndex.bind k.proc.pidArr with
  | none => exact Or.inl rfl
  | some r =>
    by_cases hq : q = r
    · subst hq
      exact Or.inr (Function.update_self ..)
    · exact Or.inl (Function.update_of_ne hq ..)

/-- The kernel when `schedule` has switched to process `q` of terminal `t`. -/
def resumed (k : Kernel) (ctl : Ctl) (t : Term) (q : Pid) : Kernel :=
  let k1 := k.suspended ctl t
  { k1 with
    proc := { k1.proc.mapProgramMem q with tss := ⟨esp0Of q, kernelDs⟩ }
    con := { k.con with
      vidmemPage := if t ≠ k.con.curTerminal then term1Index + t.val else vidmemIndex } }

theorem pitHandler_cases {ctl ctl' : Ctl} {regs : Frame}
    (h : k.pitHandler img ctl regs = some (k', ctl')) :
    (k.nextTerminal = none ∧ k' = k ∧ ctl' = ctl) ∨
    ∃ t, k.nextTerminal = some t ∧
      (∀ s, k.proc.terminalProcessIndex = some s → k.proc.pidArr s ≠ none) ∧
      ((k.proc.pidArr t = none ∧ ∃ p',
          (k.suspended ctl t).proc.execute img k.con.curTerminal (some shellName) regs =
            .ret (-1) p' ∧
          k' = { k.suspended ctl t with proc := p' } ∧ ctl' = ctl) ∨
        (k.proc.pidArr t = none ∧ ∃ q p',
          (k.suspended ctl t).proc.execute img k.con.curTerminal (some shellName) regs =
            .enter q p' ∧
          k' = { k.suspended ctl t with proc := p' } ∧ ctl' = .user q) ∨
        (∃ q, k.proc.pidArr t = some q ∧ k' = k.resumed ctl t q ∧
          ctl' = ((k.suspended ctl t).proc.pcb q).program)) := by
  simp only [pitHandler] at h
  cases ht : k.nextTerminal with
  | none =>
    rw [nextTerminal] at ht
    rw [ht] at h
    cases h
    exact Or.inl ⟨rfl, rfl, rfl⟩
  | some t =>
    rw [nextTerminal] at ht
    rw [ht] at h
    simp only [schedule, Option.bind_eq_some_iff] at h
    obtain ⟨k1, h1, h⟩ := h
    have hk1 : k1 = k.suspended ctl t ∧
        ∀ s, k.proc.terminalProcessIndex = some s → k.proc.pidArr s ≠ none := by
      cases hs : k.proc.terminalProcessIndex with
      | none =>
        simp only [saveContext, hs] at h1
        cases h1
        exact ⟨by simp [suspended, onProc, hs], by simp⟩
      | some s =>
        simp only [saveContext, hs] at h1
        obtain ⟨q, hq, rfl⟩ := Option.map_eq_some_iff.mp h1
        refine ⟨by simp [suspended, onProc, Proc.setPcb, hs, hq], ?_⟩
        intro s' hs'
        cases hs'
        simp [hq]
    obtain ⟨rfl, hlive⟩ := hk1
    refine Or.inr ⟨t, rfl, hlive, ?_⟩
    have harr : (k.suspended ctl t).proc.pidArr = k.proc.pidArr := rfl
    have hcon : (k.suspended ctl t).con = k.con := rfl
    rw [harr, hcon] at h
    cases hq : k.proc.pidArr t with
    | none =>
      simp only [hq] at h
      rcases Proc.execute_cases img k.con.curTerminal (k.suspended ctl t).proc (some shellName)
        regs with ⟨h1, _⟩ | ⟨f, h1⟩ | ⟨q, prog, p', _, _, _, h1⟩ | ⟨q, prog, p', _, _, h1⟩
      all_goals rw [h1] at h
      · cases h
        exact Or.inl ⟨rfl, _, h1, rfl, rfl⟩
      · cases h
      · cases h
        exact Or.inl ⟨rfl, _, h1, rfl, rfl⟩
      · cases h
        exact Or.inr (Or.inl ⟨rfl, _, _, h1, rfl, rfl⟩)
    | some q =>
      simp only [hq] at h
      split at h
      · cases h
      · cases h
        exact Or.inr (Or.inr ⟨q, rfl, rfl, rfl⟩)

/-! ## `halt` -/

theorem haltEntry_cases {status : UInt8} {c : Ctl} (h : k.haltEntry status = some (k', c)) :
    k' = k ∧ ∃ q, k.currPid = some q ∧ (q.val < 3 ∧ c = .user q ∨
      3 ≤ q.val ∧ c = .halting .mapParent ⟨q, (k.proc.pcb q).parentid, status⟩) := by
  simp only [haltEntry, Option.bind_eq_some_iff] at h
  obtain ⟨q, hq, h⟩ := h
  split at h
  · cases h
  · split at h
    · rename_i hlt
      cases h
      exact ⟨rfl, q, hq, Or.inl ⟨hlt, rfl⟩⟩
    · cases h
      exact ⟨rfl, q, hq, Or.inr ⟨by omega, rfl⟩⟩

theorem haltEntry_kern {status : UInt8} {c : Ctl} (h : k.haltEntry status = some (k', c)) :
    k' = k := (haltEntry_cases h).1

end Kernel

/-- A statement of `halt` closes a descriptor, or leaves the PCBs and the console alone. -/
theorem HaltPc.exec_cases {pc : HaltPc} {l : HaltLocals} {k k' : Kernel} {c : Ctl}
    (h : pc.exec l k = some (k', c)) : (∃ fd v, k.close fd = some (v, k')) ∨
      (k'.con = k.con ∧ k'.rtc = k.rtc ∧ k'.proc.pcb = k.proc.pcb ∧
        k'.proc.pcbArray = k.proc.pcbArray ∧
        k'.proc.terminalProcessIndex = k.proc.terminalProcessIndex) := by
  cases pc with
  | mapParent =>
    simp only [exec] at h
    split at h <;> cases h <;> exact Or.inr ⟨rfl, rfl, rfl, rfl, rfl⟩
  | closeFds i =>
    obtain ⟨⟨v, k1⟩, hclose, heq⟩ := Option.map_eq_some_iff.mp h
    cases heq
    exact Or.inl ⟨_, v, hclose⟩
  | typing =>
    obtain ⟨t, _, heq⟩ := Option.map_eq_some_iff.mp h
    cases heq
    exact Or.inr ⟨rfl, rfl, rfl, rfl, rfl⟩
  | popPid =>
    obtain ⟨t, _, heq⟩ := Option.map_eq_some_iff.mp h
    cases heq
    exact Or.inr ⟨rfl, rfl, rfl, rfl, rfl⟩
  | _ => cases h; exact Or.inr ⟨rfl, rfl, rfl, rfl, rfl⟩

/-- The invariant rule for the statements of `halt` and the return at `finish_execute`. -/
theorem runHalt_inv {I : Kernel → Ctl → Prop}
    (hexec : ∀ {pc : HaltPc} {l k k' c}, I k (.halting pc l) → pc.exec l k = some (k', c) → I k' c)
    (hfinish : ∀ {fr l k p}, I k (.finishing fr l) → I k (.user p)) :
    ∀ {n : Nat} {k k' : Kernel} {c c' : Ctl}, I k c → runHalt n k c = some (k', c') → I k' c' := by
  intro n
  induction n with
  | zero =>
    intro k k' c c' hi h
    cases h
    exact hi
  | succ n ih =>
    intro k k' c c' hi h
    cases c with
    | halting pc l =>
      simp only [runHalt, Option.bind_eq_some_iff] at h
      obtain ⟨⟨k1, c1⟩, hx, h⟩ := h
      exact ih (hexec hi hx) h
    | finishing fr l =>
      simp only [runHalt, Option.bind_eq_some_iff] at h
      obtain ⟨⟨k1, c1⟩, hx, h⟩ := h
      obtain ⟨p, _, heq⟩ := Option.map_eq_some_iff.mp hx
      cases heq
      exact ih (hfinish hi) h
    | _ =>
      cases h
      exact hi

/-- What every statement of `halt` keeps, any number of them keeps. -/
theorem runHalt_rel {R : Kernel → Kernel → Prop} (hrefl : ∀ k, R k k)
    (htrans : ∀ {k k1 k'}, R k k1 → R k1 k' → R k k')
    (hexec : ∀ {pc : HaltPc} {l k k' c}, pc.exec l k = some (k', c) → R k k') {n : Nat}
    {k k' : Kernel} {c c' : Ctl} (h : runHalt n k c = some (k', c')) : R k k' :=
  runHalt_inv (I := fun k1 _ => R k k1) (fun hi hx => htrans hi (hexec hx)) (fun hi => hi) (hrefl k) h

theorem halt_rel {R : Kernel → Kernel → Prop} (hrefl : ∀ k, R k k)
    (htrans : ∀ {k k1 k'}, R k k1 → R k1 k' → R k k')
    (hexec : ∀ {pc : HaltPc} {l k k' c}, pc.exec l k = some (k', c) → R k k') {k k' : Kernel}
    {status : UInt8} {c : Ctl} (h : halt k status = some (k', c)) : R k k' := by
  simp only [halt, Option.bind_eq_some_iff] at h
  obtain ⟨⟨k1, c1⟩, hentry, hr⟩ := h
  obtain rfl := Kernel.haltEntry_kern hentry
  exact runHalt_rel hrefl htrans hexec hr

/-- The console is the same, and so is the terminal that runs. -/
def SameScreen (k k' : Kernel) : Prop :=
  k'.con = k.con ∧ k'.proc.terminalProcessIndex = k.proc.terminalProcessIndex

theorem SameScreen.refl (k : Kernel) : SameScreen k k := ⟨rfl, rfl⟩

theorem SameScreen.trans {k k1 k' : Kernel} (h1 : SameScreen k k1) (h2 : SameScreen k1 k') :
    SameScreen k k' := ⟨h2.1.trans h1.1, h2.2.trans h1.2⟩

theorem HaltPc.exec_con {pc : HaltPc} {l : HaltLocals} {k k' : Kernel} {c : Ctl}
    (h : pc.exec l k = some (k', c)) : SameScreen k k' := by
  rcases exec_cases h with ⟨fd, v, hclose⟩ | ⟨hcon, _, _, _, htpi⟩
  · obtain ⟨hp, hc⟩ := Kernel.close_apart hclose
    exact ⟨hc, hp.terminalProcessIndex⟩
  · exact ⟨hcon, htpi⟩

theorem runHalt_con {n : Nat} {k k' : Kernel} {c c' : Ctl} (h : runHalt n k c = some (k', c')) :
    SameScreen k k' :=
  runHalt_rel .refl .trans HaltPc.exec_con h

theorem halt_con {k k' : Kernel} {status : UInt8} {c : Ctl} (h : halt k status = some (k', c)) :
    SameScreen k k' :=
  halt_rel .refl .trans HaltPc.exec_con h

namespace Machine

variable {img : Image} {m m' : Machine}

/-- An event that leaves the process tables alone. -/
def Quiet (m : Machine) : Event → Prop
  | .tick _ _ | .execute _ _ _ | .halt _ | .haltCall _ => False
  | .go => ∃ p, m.ctl.Serves p
  | _ => True

/-- The process that an event starts. -/
def started (img : Image) (m : Machine) : Event → Option Pid
  | .execute command _ _ => m.program.bind fun _ => m.kern.proc.newPid img command
  | .tick _ _ => m.kern.nextTerminal.bind fun t =>
    if m.kern.proc.pidArr t = none then m.kern.proc.newPid img (some shellName) else none
  | _ => none

/-- The thread that runs is the same as before, at the same process. -/
def SameThread (c c' : Ctl) : Prop := c' = c ∨ ∃ p, c.Serves p ∧ c'.Serves p

theorem step_sameTables {e : Event} (hq : Quiet m e) (h : step img m e = some m') :
    SameTables m.kern.proc m'.kern.proc ∧ SameThread m.ctl m'.ctl := by
  have hstay : ∀ {p : Pid}, m.ctl = .user p → m'.ctl = .user p → SameThread m.ctl m'.ctl :=
    fun hc hc' => Or.inl (hc'.trans hc.symm)
  cases step_cases h with
  | tick => exact hq.elim
  | returned => exact hq.elim
  | entered => exact hq.elim
  | halt => exact hq.elim
  | haltCall => exact hq.elim
  | key heq => subst heq; exact ⟨.refl _, Or.inl rfl⟩
  | mouse hk hc => exact ⟨Kernel.mouseHandler_sameTables hk, Or.inl hc⟩
  | rtc heq => subst heq; exact ⟨.refl _, Or.inl rfl⟩
  | statement hc =>
    obtain ⟨p, hc'⟩ := hq
    rw [hc] at hc'
    exact hc'.elim
  | finish hc =>
    obtain ⟨p, hc'⟩ := hq
    rw [hc] at hc'
    exact hc'.elim
  | @poll p r y hc hk =>
    obtain ⟨hp, _, hc'⟩ := Kernel.readStep_proc hk
    exact ⟨by rw [hp]; exact .refl _, Or.inr ⟨p, by rw [hc]; rfl, hc'⟩⟩
  | @rtcPoll p hc heq =>
    subst heq
    exact ⟨.refl _, Or.inr ⟨p, by rw [hc]; rfl, Kernel.rtcStep_serves _ p⟩⟩
  | read hc hx hc' => exact ⟨(Kernel.read_apart hx).1, hstay hc hc'⟩
  | @readTerminal _ _ _ p _ hc _ heq =>
    subst heq
    exact ⟨.refl _, Or.inr ⟨p, by rw [hc]; rfl, rfl⟩⟩
  | @readRtc _ _ _ p hc hx hc' =>
    rw [Kernel.read_rtc hx, hc, hc']
    exact ⟨.refl _, Or.inr ⟨p, rfl, rfl⟩⟩
  | write hc hx hc' => exact ⟨by rw [Kernel.write_proc hx]; exact .refl _, hstay hc hc'⟩
  | open' hc hx hc' => exact ⟨(Kernel.open_apart hx).1, hstay hc hc'⟩
  | close hc hx hc' => exact ⟨(Kernel.close_apart hx).1, hstay hc hc'⟩
  | getargs hc hx hc' => exact ⟨(Kernel.getargs_apart hx).1, hstay hc hc'⟩
  | vidmap hc hx hc' => exact ⟨(Kernel.vidmap_cases hx).1.sameTables, hstay hc hc'⟩
  | setHandler _ heq => subst heq; exact ⟨.refl _, Or.inl rfl⟩
  | sigreturn _ heq => subst heq; exact ⟨.refl _, Or.inl rfl⟩

end Machine
end DeviceOS
