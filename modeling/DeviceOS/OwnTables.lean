import DeviceOS.Descriptors
import DeviceOS.ProcessStacks

/-!
# DeviceOS.OwnTables

What a process has for itself: its descriptors and its arguments.

* `Undisturbed q p p'`: they are the same in the tables `p'` as in `p`, and `q` still exists.
* `step_undisturbed`: an event that is no system call of process `q` leaves them alone. The timer
  and `execute` only set up the PCB of a free pid; `halt` closes the descriptors of its own process
  before it moves `pid_arr` to the parent.
* `descriptors_private`: in every run in order, a program's descriptors and arguments change through
  its own calls only.
-/

namespace DeviceOS

open EventSystem (Reach run)

/-- Process `q` exists and has what it had. -/
structure Undisturbed (q : Pid) (p p' : Proc) : Prop where
  pidMask : p'.pidMask q = p.pidMask q
  pcbArray : p'.pcbArray q = p.pcbArray q
  fdarray : (p'.pcb q).fdarray = (p.pcb q).fdarray
  argsArray : (p'.pcb q).argsArray = (p.pcb q).argsArray

namespace Undisturbed

variable {q r : Pid} {p p' p'' : Proc} {img : Image}

theorem refl (q : Pid) (p : Proc) : Undisturbed q p p := ⟨rfl, rfl, rfl, rfl⟩

theorem trans (h1 : Undisturbed q p p') (h2 : Undisturbed q p' p'') : Undisturbed q p p'' :=
  ⟨h2.pidMask.trans h1.pidMask, h2.pcbArray.trans h1.pcbArray, h2.fdarray.trans h1.fdarray,
    h2.argsArray.trans h1.argsArray⟩

theorem stored (h : p.Stored p') : Undisturbed q p p' := by
  obtain ⟨mem, rfl, _⟩ := h
  exact ⟨rfl, rfl, rfl, rfl⟩

/-- The PCB of another process. -/
theorem setPcb (p : Proc) (b : Pcb) (h : q ≠ r) : Undisturbed q p (p.setPcb r b) := by
  have heq : (p.setPcb r b).pcb q = p.pcb q := Function.update_of_ne h ..
  exact ⟨rfl, rfl, by rw [heq], by rw [heq]⟩

theorem setFd (k : Kernel) (w : Fin 8) (e : FdaEntry) (h : q ≠ r) :
    Undisturbed q k.proc (k.setFd r w e).proc := setPcb k.proc _ h

theorem suspended (q : Pid) (k : Kernel) (ctl : Ctl) (t : Term) :
    Undisturbed q k.proc (k.suspended ctl t).proc := by
  rcases k.suspended_pcb ctl t q with h | h
  · exact ⟨rfl, rfl, by rw [h], by rw [h]⟩
  · exact ⟨rfl, rfl, by rw [h], by rw [h]⟩

theorem prepared (p : Proc) (cur : Term) (h : q ≠ r) : Undisturbed q p (p.prepared cur r) := by
  have heq : (p.prepared cur r).pcb q = p.pcb q := by
    simp [Proc.prepared, Proc.createPcb, Proc.mapProgramMem, Function.update_of_ne h]
  refine ⟨rfl, ?_, by rw [heq], by rw [heq]⟩
  simp [Proc.prepared, Proc.createPcb, Proc.mapProgramMem, Function.update_of_ne h]

theorem launch (p : Proc) (cur : Term) (prog : Program) (regs : Frame) (h : q ≠ r) :
    Undisturbed q p (p.launch cur r prog regs) := by
  have heq : (p.launch cur r prog regs).pcb q = p.pcb q := by
    simp [Proc.launch, Function.update_of_ne h]
  exact ⟨Function.update_of_ne h .., rfl, by rw [heq], by rw [heq]⟩

/-- `execute` sets up a process whose pid is free. -/
theorem execute {cur : Term} {command : Option CString} {regs : Frame} (hq : p.pidMask q = true) :
    (∀ v p', p.execute img cur command regs = .ret v p' → Undisturbed q p p') ∧
      ∀ r p', p.execute img cur command regs = .enter r p' → Undisturbed q p p' := by
  have hne : ∀ {r}, p.freePid = some r → q ≠ r := by
    rintro r hr rfl
    rw [Proc.freePid_spec hr] at hq
    cases hq
  refine ⟨fun v p' h => ?_, fun r p' h => ?_⟩
  · rcases (Proc.execute_ret h).2 with rfl | ⟨r, prog, hf, _, hst⟩
    · exact .refl q _
    · exact (prepared p cur (hne hf.freePid)).trans (stored hst)
  · obtain ⟨prog, p1, hl, hst, rfl⟩ := Proc.execute_enter h
    have hr := hne hl.1.freePid
    exact ((prepared p cur hr).trans (stored hst)).trans (launch p1 cur prog regs hr)

variable {k k' : Kernel}

theorem pitHandler {ctl ctl' : Ctl} {regs : Frame} (hq : k.proc.pidMask q = true)
    (h : k.pitHandler img ctl regs = some (k', ctl')) : Undisturbed q k.proc k'.proc := by
  rcases Kernel.pitHandler_cases h with ⟨_, rfl, _⟩ | ⟨t, _, _, hcase⟩
  · exact .refl q _
  · have hsusp := suspended q k ctl t
    have hq' : (k.suspended ctl t).proc.pidMask q = true := hq
    rcases hcase with ⟨_, p', hx, rfl, _⟩ | ⟨_, r, p', hx, rfl, _⟩ | ⟨r, _, rfl, _⟩
    · exact hsusp.trans ((execute hq').1 _ _ hx)
    · exact hsusp.trans ((execute hq').2 _ _ hx)
    · exact hsusp.trans ⟨rfl, rfl, rfl, rfl⟩

theorem mouseHandler {x : Packet} (h : k.mouseHandler x = some k') :
    Undisturbed q k.proc k'.proc := by
  rcases Kernel.mouseHandler_proc h with hp | hp
  · rw [hp]
    exact .refl q _
  · rw [hp]
    exact ⟨rfl, rfl, rfl, rfl⟩

/-- `close` works on the process that `pid_arr` names. -/
theorem close {fd v : Int} (hcur : k.currPid ≠ some q) (h : k.close fd = some (v, k')) :
    Undisturbed q k.proc k'.proc := by
  simp only [Kernel.close, Option.bind_eq_some_iff] at h
  obtain ⟨r, hr, h⟩ := h
  have hne : q ≠ r := by
    rintro rfl
    exact hcur hr
  have hset : ∀ w e, Undisturbed q k.proc (k.setFd r w e).proc := fun w e => setFd k w e hne
  split at h
  · cases h
    exact .refl q _
  · split at h
    · cases h
      exact .refl q _
    · split at h <;> cases h <;> exact hset _ _

/-- So does `open`. -/
theorem open' {name : Option CString} {v : Int} (hcur : k.currPid ≠ some q)
    (h : k.open' img name = some (v, k')) : Undisturbed q k.proc k'.proc := by
  simp only [Kernel.open', Option.bind_eq_some_iff] at h
  obtain ⟨r, hr, h⟩ := h
  have hne : q ≠ r := by
    rintro rfl
    exact hcur hr
  have hset : ∀ w e, Undisturbed q k.proc (k.setFd r w e).proc := fun w e => setFd k w e hne
  split at h
  · cases h
    exact .refl q _
  · split at h
    · split at h
      · cases h
      · cases h
        exact .refl q _
      · split at h
        · cases h
          exact hset _ _
        · split at h <;> cases h <;> exact hset _ _
        · split at h <;> cases h <;> exact hset _ _
        all_goals cases h
    · cases h
      exact .refl q _

theorem read {fd nbytes : Int} {buf : Option (Nat → UInt8)} {x : Reply}
    (hcur : k.currPid ≠ some q) (h : k.read img fd buf nbytes = some (.ret x k')) :
    Undisturbed q k.proc k'.proc := by
  have hne : ∀ {r w ops}, k.OpenFor fd buf nbytes r w ops → q ≠ r := by
    rintro r w ops ho rfl
    exact hcur ho.currPid
  cases Kernel.read_cases h with
  | refused => exact .refl q _
  | file ho hread =>
    obtain ⟨pos, rfl⟩ := Kernel.fileRead_cases hread
    exact setFd k _ _ (hne ho)
  | dir ho hread =>
    rcases Kernel.directoryRead_cases hread with rfl | ⟨pos, rfl⟩
    · exact .refl q _
    · exact setFd k _ _ (hne ho)

theorem getargs {mem : Nat → UInt8} {nbytes : Int} {x : Reply} (hcur : k.currPid ≠ some q)
    (h : k.getargs mem nbytes = some (x, k')) : Undisturbed q k.proc k'.proc := by
  rcases Kernel.getargs_cases h with ⟨_, rfl⟩ | ⟨_, r, hr, rfl⟩
  · exact .refl q _
  · refine setPcb k.proc _ ?_
    rintro rfl
    exact hcur hr

/-! ## `halt` -/

/-- The `halt` in progress is that of another process. -/
def OtherHalt (q : Pid) (k : Kernel) : Ctl → Prop
  | .halting pc l => l.currPid ≠ q ∧ (pc.popped = false → k.currPid ≠ some q)
  | _ => True

/-- A statement of `halt`. Up to the change of `pid_arr` the process that `close` works on stays
the same. -/
theorem exec {pc : HaltPc} {l : HaltLocals} {c : Ctl} (ho : OtherHalt q k (.halting pc l))
    (h : pc.exec l k = some (k', c)) : Undisturbed q k.proc k'.proc ∧ OtherHalt q k' c := by
  obtain ⟨hl, hcur⟩ := ho
  cases pc with
  | mapParent =>
    simp only [HaltPc.exec] at h
    split at h
    · cases h
      exact ⟨⟨rfl, rfl, rfl, rfl⟩, trivial⟩
    · cases h
      exact ⟨⟨rfl, rfl, rfl, rfl⟩, hl, hcur⟩
  | closeFds i =>
    obtain ⟨⟨v, k1⟩, hclose, heq⟩ := Option.map_eq_some_iff.mp h
    cases heq
    have hs := (Kernel.close_apart hclose).1
    have hcur1 : k1.currPid = k.currPid := by
      rw [Kernel.currPid, hs.terminalProcessIndex, hs.pidArr, Kernel.currPid]
    refine ⟨close (hcur rfl) hclose, hl, fun _ => ?_⟩
    rw [hcur1]
    exact hcur rfl
  | clearMask =>
    cases h
    exact ⟨⟨Function.update_of_ne hl.symm .., rfl, rfl, rfl⟩, hl, hcur⟩
  | typing =>
    obtain ⟨t, _, heq⟩ := Option.map_eq_some_iff.mp h
    cases heq
    exact ⟨⟨rfl, rfl, rfl, rfl⟩, hl, hcur⟩
  | popPid =>
    obtain ⟨t, _, heq⟩ := Option.map_eq_some_iff.mp h
    cases heq
    exact ⟨⟨rfl, rfl, rfl, rfl⟩, hl, fun hp => by cases hp⟩
  | setValue =>
    cases h
    exact ⟨⟨rfl, rfl, rfl, rfl⟩, hl, fun hp => by cases hp⟩
  | jump =>
    cases h
    exact ⟨⟨rfl, rfl, rfl, rfl⟩, trivial⟩
  | _ =>
    cases h
    exact ⟨⟨rfl, rfl, rfl, rfl⟩, hl, hcur⟩

/-- The whole `halt` of another process. -/
theorem halt {status : UInt8} {c : Ctl} (hcur : k.currPid ≠ some q)
    (h : DeviceOS.halt k status = some (k', c)) : Undisturbed q k.proc k'.proc := by
  simp only [DeviceOS.halt, Option.bind_eq_some_iff] at h
  obtain ⟨⟨k1, c1⟩, hentry, hr⟩ := h
  obtain ⟨rfl, r, hr', hcase⟩ := Kernel.haltEntry_cases hentry
  have hne : r ≠ q := by
    rintro rfl
    exact hcur hr'
  have hstart : OtherHalt q k1 c1 := by
    rcases hcase with ⟨_, rfl⟩ | ⟨_, rfl⟩
    · trivial
    · exact ⟨hne, fun _ => hcur⟩
  have hinv := runHalt_inv (I := fun k2 c2 => Undisturbed q k1.proc k2.proc ∧ OtherHalt q k2 c2)
    (fun hi hx => ⟨hi.1.trans (exec hi.2 hx).1, (exec hi.2 hx).2⟩) (fun hi => ⟨hi.1, trivial⟩)
    ⟨.refl q _, hstart⟩ hr
  exact hinv.1

end Undisturbed

namespace Machine

variable {img : Image} {m m' : Machine} {e : Event} {q : Pid}

/-- An event that is no system call of process `q`, and no statement of a `halt`. -/
theorem step_undisturbed (h : step img m e = some m') (hq : m.kern.proc.pidMask q = true)
    (hcur : IsSyscall e → m.kern.currPid ≠ some q) (hcalm : ¬ InHalt m.ctl) :
    Undisturbed q m.kern.proc m'.kern.proc := by
  cases step_cases h with
  | tick hp => exact .pitHandler hq hp
  | key heq =>
    rw [heq]
    exact ⟨rfl, rfl, rfl, rfl⟩
  | mouse hk => exact .mouseHandler hk
  | rtc heq =>
    rw [heq]
    exact .refl q _
  | statement hc =>
    rw [hc] at hcalm
    exact absurd trivial hcalm
  | finish hc =>
    rw [hc] at hcalm
    exact absurd trivial hcalm
  | poll _ hx =>
    rw [(Kernel.readStep_proc hx).1]
    exact .refl q _
  | rtcPoll _ heq =>
    rw [heq]
    exact .refl q _
  | returned _ hx heq =>
    rw [heq]
    exact (Undisturbed.execute hq).1 _ _ hx
  | entered _ hx heq =>
    rw [heq]
    exact (Undisturbed.execute hq).2 _ _ hx
  | halt _ hx => exact .halt (hcur trivial) hx
  | haltCall _ hx =>
    rw [Kernel.haltEntry_kern hx]
    exact .refl q _
  | read _ hx => exact .read (hcur trivial) hx
  | readTerminal _ _ heq =>
    rw [heq]
    exact .refl q _
  | readRtc _ hx =>
    rw [Kernel.read_rtc hx]
    exact .refl q _
  | write _ hx =>
    rw [Kernel.write_proc hx]
    exact .refl q _
  | open' _ hx => exact .open' (hcur trivial) hx
  | close _ hx => exact .close (hcur trivial) hx
  | getargs _ hx => exact .getargs (hcur trivial) hx
  | vidmap _ hx => exact .stored (Kernel.vidmap_cases hx).1
  | setHandler _ heq =>
    rw [heq]
    exact .refl q _
  | sigreturn _ heq =>
    rw [heq]
    exact .refl q _

/-- In an orderly run the process that a system call works on is the one that makes it. -/
theorem StackInv.currPid {A : Term → List Pid} (h : StackInv m A) {p : Pid} (hc : m.ctl = .user p) :
    m.kern.currPid = some p := by
  obtain ⟨t, ht, hp⟩ := h.user hc
  rw [Kernel.currPid, ht]
  exact hp

theorem not_inHalt {A : Term → List Pid} (h : StackInv m A) (hc : Calm m) : ¬ InHalt m.ctl := by
  by_cases hi : m.ctl = .idle
  · rw [hi]
    exact not_false
  · obtain ⟨t, _, _, _, hth, _⟩ := h.running hi
    exact hc t _ hth

/-- In every run in order, only the process itself can change its descriptors and its arguments,
whatever the other processes and the devices do between its calls. -/
theorem descriptors_private (img : Image) (m : Machine) (h : Reach (step img) Boot (InOrder img) m)
    (q : Pid) (hq : m.kern.proc.pidMask q = true) (e : Event) (m' : Machine)
    (hs : step img m e = some m') (hother : m.program = some q → ¬ IsSyscall e) :
    Undisturbed q m.kern.proc m'.kern.proc := by
  obtain ⟨⟨A, hi⟩, hc⟩ := reach_stackInv h
  refine step_undisturbed hs hq (fun he hcur => ?_) (not_inHalt hi hc)
  -- a system call is made by the program that runs
  obtain ⟨x, hcall, _⟩ := Option.map_eq_some_iff.mp hs
  obtain ⟨p, hp, _⟩ := call_user hcall he
  obtain rfl : p = q := Option.some.inj ((hi.currPid hp).symm.trans hcur)
  exact hother (program_eq_some.mpr hp) he

/-- A program runs while a key is pressed. -/
theorem descriptors_private_child : ∃ m m' : Machine, m.kern.proc.stackOf 0 = [3, 0] ∧
    step disk m (.key 1 0x1E) = some m' ∧ Undisturbed 3 m.kern.proc m'.kern.proc := by
  obtain ⟨m, hreach, hp, hstack⟩ := reach_child
  have hr := hreach.mono fun _ _ h => h.1
  have hq : m.kern.proc.pidMask 3 = true :=
    ((processes_form_stacks disk m hr).1.2 3).mpr ⟨0, by rw [hstack]; simp⟩
  exact ⟨m, _, hstack, rfl, descriptors_private disk m hr 3 hq (.key 1 0x1E) _ rfl fun _ => id⟩

end Machine
end DeviceOS
