import DeviceOS.ConsoleSteps

/-!
# DeviceOS.Descriptors

What the events leave of the file descriptors. An event other than `open` and a `read` of a file
either keeps an open descriptor as it is, or moves the position of an open directory; a descriptor
can be closed, and `create_pcb` sets up all eight of a process anew (`FdsKept`).
-/

namespace DeviceOS

/-- If the descriptor is open afterwards, it was open, for the same thing. The position of a
directory may have moved. -/
structure FdKept (e e' : FdaEntry) : Prop where
  flags : e'.flags = true → e.flags = true
  fopsPtr : e'.flags = true → e'.fopsPtr = e.fopsPtr
  file : e'.flags = true → e.fopsPtr = some .file →
    e'.inodeNum = e.inodeNum ∧ e'.filePos = e.filePos

theorem FdKept.refl (e : FdaEntry) : FdKept e e := ⟨id, fun _ => rfl, fun _ _ => ⟨rfl, rfl⟩⟩

theorem FdKept.trans {e e' e'' : FdaEntry} (h1 : FdKept e e') (h2 : FdKept e' e'') :
    FdKept e e'' where
  flags h := h1.flags (h2.flags h)
  fopsPtr h := (h2.fopsPtr h).trans (h1.fopsPtr (h2.flags h))
  file h hf := by
    obtain ⟨h3, h4⟩ := h1.file (h2.flags h) hf
    obtain ⟨h5, h6⟩ := h2.file h ((h1.fopsPtr (h2.flags h)).trans hf)
    exact ⟨h5.trans h3, h6.trans h4⟩

/-- The descriptors of a new process: only the terminal is open. -/
def FdFresh (w : Fin 8) (e : FdaEntry) : Prop :=
  e.flags = true → w.val < 2 ∧ e.fopsPtr ≠ some .file

theorem FdFresh.kept {w : Fin 8} {e e' : FdaEntry} (h : FdFresh w e) (hk : FdKept e e') :
    FdFresh w e' := by
  intro hf
  rw [hk.fopsPtr hf]
  exact h (hk.flags hf)

/-- The descriptor `w` of process `q`. -/
def Proc.fd (p : Proc) (q : Pid) (w : Fin 8) : FdaEntry := (p.pcb q).fdarray w

/-- The descriptors of every process that exists afterwards are kept, or are those of a new one. -/
def FdsKept (p p' : Proc) : Prop := ∀ q, p'.pcbArray q = true →
  (p.pcbArray q = true ∧ ∀ w, FdKept (p.fd q w) (p'.fd q w)) ∨ ∀ w, FdFresh w (p'.fd q w)

variable {p p' p'' : Proc}

theorem FdsKept.of_eq (h1 : p'.pcbArray = p.pcbArray)
    (h2 : ∀ q, (p'.pcb q).fdarray = (p.pcb q).fdarray) : FdsKept p p' := by
  intro q hq
  refine Or.inl ⟨by rw [← h1]; exact hq, fun w => ?_⟩
  simp only [Proc.fd, h2 q]
  exact .refl _

theorem FdsKept.refl (p : Proc) : FdsKept p p := .of_eq rfl fun _ => rfl

theorem FdsKept.trans (h1 : FdsKept p p') (h2 : FdsKept p' p'') : FdsKept p p'' := by
  intro q hq
  rcases h2 q hq with ⟨hq', hk⟩ | hf
  · rcases h1 q hq' with ⟨hq'', hk'⟩ | hf
    · exact Or.inl ⟨hq'', fun w => (hk' w).trans (hk w)⟩
    · exact Or.inr fun w => (hf w).kept (hk w)
  · exact Or.inr hf

namespace Kernel

theorem fdOf_val (w : Fin 8) : fdOf (w.val : Int) = some w := by
  rw [fdOf, dif_pos (by omega)]
  simp

theorem setFd_fd_self (k : Kernel) (q : Pid) (w : Fin 8) (e : FdaEntry) :
    (k.setFd q w e).proc.fd q w = e := by
  simp [Proc.fd, setFd, Proc.setPcb]

theorem setFd_fd_of_ne (k : Kernel) {q r : Pid} {w v : Fin 8} (e : FdaEntry)
    (h : ¬ (r = q ∧ v = w)) : (k.setFd q w e).proc.fd r v = k.proc.fd r v := by
  by_cases hr : r = q
  · subst hr
    have hv : v ≠ w := fun hv => h ⟨rfl, hv⟩
    simp [Proc.fd, setFd, Proc.setPcb, Function.update_of_ne hv]
  · simp [Proc.fd, setFd, Proc.setPcb, Function.update_of_ne hr]

end Kernel

theorem FdsKept.setFd (k : Kernel) (q : Pid) (w : Fin 8) {e : FdaEntry}
    (h : FdKept (k.proc.fd q w) e) : FdsKept k.proc (k.setFd q w e).proc := by
  intro r hr
  refine Or.inl ⟨hr, fun v => ?_⟩
  by_cases hrv : r = q ∧ v = w
  · obtain ⟨rfl, rfl⟩ := hrv
    rw [k.setFd_fd_self]
    exact h
  · rw [k.setFd_fd_of_ne e hrv]
    exact .refl _

theorem FdsKept.closed (k : Kernel) (q : Pid) (w : Fin 8) {e : FdaEntry} (h : e.flags = false) :
    FdsKept k.proc (k.setFd q w e).proc := by
  refine .setFd k q w ⟨?_, ?_, ?_⟩
  · intro hf
    rw [h] at hf
    cases hf
  · intro hf
    rw [h] at hf
    cases hf
  · intro hf
    rw [h] at hf
    cases hf

theorem Proc.prepared_fd (p : Proc) (cur : Term) (q : Pid) (w : Fin 8) :
    FdFresh w ((p.prepared cur q).fd q w) := by
  intro hf
  simp only [Proc.fd, Proc.prepared, Proc.createPcb, Proc.mapProgramMem,
    Function.update_self] at hf ⊢
  split at hf
  · exact ⟨by omega, by rw [if_pos (by omega)]; simp⟩
  · split at hf
    · exact ⟨by omega, by rw [if_neg (by omega), if_pos (by omega)]; simp⟩
    · cases hf

/-- A new process leaves the tables of the others as they are. -/
theorem Proc.prepared_fd_of_ne (p : Proc) (cur : Term) {q r : Pid} (h : r ≠ q) :
    (p.prepared cur q).pcbArray r = p.pcbArray r ∧
      ∀ w, (p.prepared cur q).fd r w = p.fd r w := by
  simp [Proc.fd, Proc.prepared, Proc.createPcb, Proc.mapProgramMem, Function.update_of_ne h]

/-! ## Relations between the tables -/

/-- What the events other than `open` and a `read` of a file or of a directory do to the tables, one
operation at a time: nothing, a new process, a `close`. A relation that holds of each of them holds
of these events (`Machine.step_ops`). -/
structure TableOps (R : Proc → Proc → Prop) : Prop where
  of_eq : ∀ {p p' : Proc}, p'.pcbArray = p.pcbArray →
    (∀ q, (p'.pcb q).fdarray = (p.pcb q).fdarray) → R p p'
  trans : ∀ {p p' p'' : Proc}, R p p' → R p' p'' → R p p''
  prepared : ∀ (p : Proc) (cur : Term) (q : Pid), R p (p.prepared cur q)
  closed : ∀ (k : Kernel) (q : Pid) (w : Fin 8), 2 ≤ w.val →
    R k.proc (k.setFd q w { k.proc.fd q w with flags := false }).proc

/-- What the events other than `open` and a `read` of a file do to the tables, one operation at a
time: nothing, a new process, a `close`, a move in a directory. A relation that holds of each of
them holds of these events (`Machine.step_tables`). -/
structure TableRel (R : Proc → Proc → Prop) : Prop where
  of_eq : ∀ {p p' : Proc}, p'.pcbArray = p.pcbArray →
    (∀ q, (p'.pcb q).fdarray = (p.pcb q).fdarray) → R p p'
  trans : ∀ {p p' p'' : Proc}, R p p' → R p' p'' → R p p''
  prepared : ∀ (p : Proc) (cur : Term) (q : Pid), R p (p.prepared cur q)
  closed : ∀ (k : Kernel) (q : Pid) (w : Fin 8), 2 ≤ w.val →
    R k.proc (k.setFd q w { k.proc.fd q w with flags := false }).proc
  moved : ∀ (k : Kernel) (q : Pid) (w : Fin 8) (pos : Nat),
    (k.proc.fd q w).fopsPtr = some .dir →
    R k.proc (k.setFd q w { k.proc.fd q w with filePos := pos }).proc

theorem TableRel.ops {R : Proc → Proc → Prop} (hR : TableRel R) : TableOps R :=
  ⟨hR.of_eq, hR.trans, hR.prepared, hR.closed⟩

theorem FdsKept.tableRel : TableRel FdsKept where
  of_eq := .of_eq
  trans := .trans
  prepared p cur q := by
    intro r hr
    by_cases heq : r = q
    · subst heq
      exact Or.inr (p.prepared_fd cur r)
    · obtain ⟨harray, hfd⟩ := p.prepared_fd_of_ne cur heq
      refine Or.inl ⟨by rw [← harray]; exact hr, fun w => ?_⟩
      rw [hfd w]
      exact .refl _
  closed k q w _ := .closed k q w rfl
  moved k q w pos hd := by
    refine .setFd k q w ⟨fun hf => hf, fun _ => rfl, fun _ hf => ?_⟩
    rw [hd] at hf
    cases hf

namespace TableOps

variable {R : Proc → Proc → Prop} (hR : TableOps R) {img : Image}
include hR

theorem refl (p : Proc) : R p p := hR.of_eq rfl fun _ => rfl

theorem stored (h : p.Stored p') : R p p' := by
  obtain ⟨mem, rfl, _⟩ := h
  exact hR.of_eq rfl fun _ => rfl

theorem setPcb (p : Proc) (q : Pid) {b : Pcb} (h : b.fdarray = (p.pcb q).fdarray) :
    R p (p.setPcb q b) := by
  refine hR.of_eq rfl fun r => ?_
  by_cases heq : r = q
  · subst heq
    simpa [Proc.setPcb] using h
  · simp [Proc.setPcb, Function.update_of_ne heq]

theorem launch (p : Proc) (cur : Term) (q : Pid) (prog : Program) (regs : Frame) :
    R p (p.launch cur q prog regs) := by
  refine hR.of_eq rfl fun r => ?_
  simp only [Proc.launch]
  by_cases heq : r = q
  · subst heq
    rw [Function.update_self]
  · rw [Function.update_of_ne heq]

theorem execute {cur : Term} {command : Option CString} {regs : Frame} :
    (∀ v p', p.execute img cur command regs = .ret v p' → R p p') ∧
      ∀ q p', p.execute img cur command regs = .enter q p' → R p p' :=
  Proc.execute_keeps (I := R p) (hR.refl p)
    (fun q _ hst => hR.trans (hR.prepared p cur q) (hR.stored hst))
    fun q prog p' h => hR.trans h (hR.launch p' cur q prog regs)

variable {k k' : Kernel}

theorem close {fd v : Int} (h : k.close fd = some (v, k')) : R k.proc k'.proc := by
  rcases Kernel.close_cases h with rfl | ⟨q, w, hw, _, _, hproc⟩
  · exact hR.refl _
  · rw [hproc]
    exact hR.closed k q w hw

theorem getargs {mem : Nat → UInt8} {nbytes : Int} {r : Reply}
    (h : k.getargs mem nbytes = some (r, k')) : R k.proc k'.proc := by
  rcases Kernel.getargs_cases h with ⟨_, rfl⟩ | ⟨_, q, _, rfl⟩
  · exact hR.refl _
  · exact hR.setPcb k.proc q rfl

theorem vidmap {start : Nat} {v : Int} (h : k.vidmap start = some (v, k')) : R k.proc k'.proc :=
  hR.stored (Kernel.vidmap_cases h).1

theorem suspended (k : Kernel) (ctl : Ctl) (t : Term) : R k.proc (k.suspended ctl t).proc := by
  refine hR.of_eq rfl fun r => ?_
  rcases k.suspended_pcb ctl t r with h | h
  · rw [h]
  · rw [h]

theorem pitHandler {ctl ctl' : Ctl} {regs : Frame}
    (h : k.pitHandler img ctl regs = some (k', ctl')) : R k.proc k'.proc := by
  rcases Kernel.pitHandler_cases h with ⟨_, hk, _⟩ | ⟨t, _, _, hcase⟩
  · rw [hk]
    exact hR.refl _
  · have hsusp := hR.suspended k ctl t
    rcases hcase with ⟨_, p', hx, hk, _⟩ | ⟨_, q, p', hx, hk, _⟩ | ⟨q, _, hk, _⟩
    · rw [hk]
      exact hR.trans hsusp (hR.execute.1 _ _ hx)
    · rw [hk]
      exact hR.trans hsusp (hR.execute.2 _ _ hx)
    · rw [hk]
      exact hR.trans hsusp (hR.of_eq rfl fun _ => rfl)

theorem mouseHandler {x : Packet} (h : k.mouseHandler x = some k') : R k.proc k'.proc := by
  rcases Kernel.mouseHandler_proc h with hp | hp
  · rw [hp]
    exact hR.refl _
  · rw [hp]
    exact hR.of_eq rfl fun _ => rfl

theorem exec {pc : HaltPc} {l : HaltLocals} {c : Ctl} (h : pc.exec l k = some (k', c)) :
    R k.proc k'.proc := by
  rcases HaltPc.exec_cases h with ⟨fd, v, hclose⟩ | ⟨_, _, hpcb, harray, _⟩
  · exact hR.close hclose
  · exact hR.of_eq harray fun q => by rw [hpcb]

theorem halt {status : UInt8} {c : Ctl} (h : DeviceOS.halt k status = some (k', c)) :
    R k.proc k'.proc :=
  halt_rel (R := fun k k' => R k.proc k'.proc) (fun _ => hR.refl _) hR.trans hR.exec h

end TableOps

/-- A `read` of a directory moves its position, or finds no entry. -/
theorem TableRel.directoryRead {R : Proc → Proc → Prop} (hR : TableRel R) {img : Image}
    {k k' : Kernel} {q : Pid} {w : Fin 8} {n : Nat} {r : Reply}
    (hd : (k.proc.fd q w).fopsPtr = some .dir)
    (h : k.directoryRead img q w n = some (r, k')) : R k.proc k'.proc := by
  rcases Kernel.directoryRead_cases h with rfl | ⟨pos, rfl⟩
  · exact hR.ops.refl _
  · exact hR.moved k q w pos hd

namespace Machine

variable {img : Image} {m m' : Machine} {e : Event}

/-- The entry that a `read` of a file works on. -/
def ReadsFile (m : Machine) (e : Event) (q : Pid) (w : Fin 8) (nbytes : Int) : Prop :=
  ∃ fd buf, e = .read fd buf nbytes ∧ Kernel.fdOf fd = some w ∧ m.kern.currPid = some q ∧
    m.kern.proc.pcbArray q = true ∧ buf ≠ none ∧ 0 ≤ nbytes ∧ (m.kern.proc.fd q w).flags = true ∧
    (m.kern.proc.fd q w).fopsPtr = some .file

/-- An event that neither opens a descriptor nor reads a file. -/
def FdQuiet (m : Machine) : Event → Prop
  | .open' _ => False
  | .read fd buf nbytes => ∀ q w, ¬ ReadsFile m (.read fd buf nbytes) q w nbytes
  | _ => True

/-- What an event does to the descriptors. -/
inductive FdKind (img : Image) (m m' : Machine) : Event → Prop
  | kept {e : Event} : FdQuiet m e → FdsKept m.kern.proc m'.kern.proc → FdKind img m m' e
  | opened {name : Option CString} {v : Int} :
      m.kern.open' img name = some (v, m'.kern) → FdKind img m m' (.open' name)
  | file {fd : Int} {buf : Option (Nat → UInt8)} {q : Pid} {w : Fin 8} {nbytes : Int} {r : Reply} :
      ReadsFile m (.read fd buf nbytes) q w nbytes →
      m.kern.fileRead img q w nbytes.toNat = some (r, m'.kern) →
      FdKind img m m' (.read fd buf nbytes)

theorem readsFile_iff {fd nbytes : Int} {buf : Option (Nat → UInt8)} {q : Pid} {w : Fin 8} :
    ReadsFile m (.read fd buf nbytes) q w nbytes ↔ m.kern.OpenFor fd buf nbytes q w .file := by
  constructor
  · rintro ⟨fd', buf', he, hw, hq, hpcb, hbuf, hn, hf, hops⟩
    cases he
    exact ⟨hq, hw, hpcb, hbuf, hn, hf, hops⟩
  · exact fun h => ⟨fd, buf, rfl, h.fdOf, h.currPid, h.pcbArray, h.buf, h.nbytes, h.flags, h.fopsPtr⟩

/-- An event that neither opens a descriptor nor reads a file or a directory. -/
def TablesQuiet (m : Machine) : Event → Prop
  | .open' _ => False
  | .read fd buf nbytes => ∀ q w ops, m.kern.OpenFor fd buf nbytes q w ops →
    ops ≠ .file ∧ ops ≠ .dir
  | _ => True

/-- The inversion of `read`: it reads a file or a directory, or returns -1 and leaves the kernel
as it is, or does not return at once. -/
theorem read_kinds {fd nbytes : Int} {buf : Option (Nat → UInt8)} {x : ReadResult}
    (h : m.kern.read img fd buf nbytes = some x) :
    (∃ q w r k', m.kern.OpenFor fd buf nbytes q w .file ∧
      m.kern.fileRead img q w nbytes.toNat = some (r, k') ∧ x = .ret r k') ∨
    (∃ q w r k', m.kern.OpenFor fd buf nbytes q w .dir ∧
      m.kern.directoryRead img q w nbytes.toNat = some (r, k') ∧ x = .ret r k') ∨
    (TablesQuiet m (.read fd buf nbytes) ∧
      ∀ r k', x = .ret r k' → r = ⟨-1, []⟩ ∧ k' = m.kern) := by
  have hquiet : ∀ {ops : Fops}, (∀ q w ops', m.kern.OpenFor fd buf nbytes q w ops' → ops' = ops) →
      ops ≠ .file → ops ≠ .dir → TablesQuiet m (.read fd buf nbytes) := by
    intro ops hops h1 h2 q w ops' ho
    rw [hops q w ops' ho]
    exact ⟨h1, h2⟩
  cases Kernel.read_cases h with
  | refused hno =>
    refine Or.inr (Or.inr ⟨hquiet hno (by simp) (by simp), fun r k' heq => ?_⟩)
    cases heq
    exact ⟨rfl, rfl⟩
  | rtc ho =>
    refine Or.inr (Or.inr ⟨hquiet (fun _ _ _ ho' => ho'.unique ho) (by simp) (by simp),
      fun r k' heq => ?_⟩)
    cases heq
  | file ho hread => exact Or.inl ⟨_, _, _, _, ho, hread, rfl⟩
  | dir ho hread => exact Or.inr (Or.inl ⟨_, _, _, _, ho, hread, rfl⟩)
  | terminal ho =>
    refine Or.inr (Or.inr ⟨hquiet (fun _ _ _ ho' => ho'.unique ho) (by simp) (by simp),
      fun r k' heq => ?_⟩)
    cases heq

/-- A relation between the tables that holds of their operations holds of every event that reads no
file and no directory and opens nothing. -/
theorem step_ops {R : Proc → Proc → Prop} (hR : TableOps R) (hq : TablesQuiet m e)
    (h : step img m e = some m') : R m.kern.proc m'.kern.proc := by
  cases step_cases h with
  | tick hp => exact hR.pitHandler hp
  | key heq =>
    rw [heq]
    exact hR.refl _
  | mouse hk => exact hR.mouseHandler hk
  | rtc heq =>
    rw [heq]
    exact hR.refl _
  | statement _ hx => exact hR.exec hx
  | finish _ _ heq =>
    rw [heq]
    exact hR.refl _
  | poll _ hx =>
    rw [(Kernel.readStep_proc hx).1]
    exact hR.refl _
  | rtcPoll _ heq =>
    rw [heq]
    exact hR.refl _
  | returned _ hx heq =>
    rw [heq]
    exact hR.execute.1 _ _ hx
  | entered _ hx heq =>
    rw [heq]
    exact hR.execute.2 _ _ hx
  | halt _ hx => exact hR.halt hx
  | haltCall _ hx =>
    rw [Kernel.haltEntry_kern hx]
    exact hR.refl _
  | read _ hx =>
    rcases read_kinds hx with ⟨_, _, _, _, ho, _⟩ | ⟨_, _, _, _, ho, _⟩ | ⟨_, hkept⟩
    · exact absurd rfl (hq _ _ _ ho).1
    · exact absurd rfl (hq _ _ _ ho).2
    · rw [(hkept _ _ rfl).2]
      exact hR.refl _
  | readTerminal _ hx heq =>
    rw [heq]
    exact hR.refl _
  | readRtc _ hx =>
    rw [Kernel.read_rtc hx]
    exact hR.refl _
  | write _ hx =>
    rw [Kernel.write_proc hx]
    exact hR.refl _
  | open' _ hx => exact hq.elim
  | close _ hx => exact hR.close hx
  | getargs _ hx => exact hR.getargs hx
  | vidmap _ hx => exact hR.vidmap hx
  | setHandler _ heq =>
    rw [heq]
    exact hR.refl _
  | sigreturn _ heq =>
    rw [heq]
    exact hR.refl _

/-- The inversion of one event, for the tables: it opens a descriptor, reads a file, reads a
directory, or does none of these. -/
inductive TableKind (img : Image) (m m' : Machine) : Event → Prop
  | quiet {e : Event} : TablesQuiet m e → TableKind img m m' e
  | opened {name : Option CString} {v : Int} :
      m.kern.open' img name = some (v, m'.kern) → TableKind img m m' (.open' name)
  | file {fd nbytes : Int} {buf : Option (Nat → UInt8)} {q : Pid} {w : Fin 8} {r : Reply} :
      m.kern.OpenFor fd buf nbytes q w .file →
      m.kern.fileRead img q w nbytes.toNat = some (r, m'.kern) →
      TableKind img m m' (.read fd buf nbytes)
  | dir {fd nbytes : Int} {buf : Option (Nat → UInt8)} {q : Pid} {w : Fin 8} {r : Reply} :
      m.kern.OpenFor fd buf nbytes q w .dir →
      m.kern.directoryRead img q w nbytes.toNat = some (r, m'.kern) →
      TableKind img m m' (.read fd buf nbytes)

theorem step_kinds (h : step img m e = some m') : TableKind img m m' e := by
  cases step_cases h with
  | open' _ hx => exact .opened hx
  | read _ hx =>
    rcases read_kinds hx with ⟨_, _, _, _, ho, hread, heq⟩ | ⟨_, _, _, _, ho, hread, heq⟩ |
      ⟨hquiet, _⟩
    · cases heq
      exact .file ho hread
    · cases heq
      exact .dir ho hread
    · exact .quiet hquiet
  | readTerminal _ hx =>
    rcases read_kinds hx with ⟨_, _, _, _, _, _, heq⟩ | ⟨_, _, _, _, _, _, heq⟩ | ⟨hquiet, _⟩
    · cases heq
    · cases heq
    · exact .quiet hquiet
  | readRtc _ hx =>
    rcases read_kinds hx with ⟨_, _, _, _, _, _, heq⟩ | ⟨_, _, _, _, _, _, heq⟩ | ⟨hquiet, _⟩
    · cases heq
    · cases heq
    · exact .quiet hquiet
  | _ => exact .quiet trivial

/-- A relation that also holds of the moves in a directory holds of every event that neither opens a
descriptor nor reads a file. -/
theorem step_tables {R : Proc → Proc → Prop} (hR : TableRel R) (hq : FdQuiet m e)
    (h : step img m e = some m') : R m.kern.proc m'.kern.proc := by
  cases step_kinds h with
  | quiet hquiet => exact step_ops hR.ops hquiet h
  | opened => exact hq.elim
  | file ho => exact absurd (readsFile_iff.mpr ho) (hq _ _)
  | dir ho hread => exact hR.directoryRead ho.fopsPtr hread

/-- The inversion of one event, for the descriptors. -/
theorem step_fds (h : step img m e = some m') : FdKind img m m' e := by
  have hkept : FdQuiet m e → FdKind img m m' e := fun hq =>
    .kept hq (step_tables FdsKept.tableRel hq h)
  cases step_kinds h with
  | quiet hquiet =>
    refine hkept ?_
    cases e with
    | open' => exact hquiet
    | read => exact fun q w hr => (hquiet q w _ (readsFile_iff.mp hr)).1 rfl
    | _ => trivial
  | opened hopen => exact .opened hopen
  | file ho hread => exact .file (readsFile_iff.mpr ho) hread
  | dir ho =>
    refine hkept fun q w hr => ?_
    have hops := ho.unique (readsFile_iff.mp hr)
    cases hops

end Machine
end DeviceOS
