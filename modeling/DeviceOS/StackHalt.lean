import DeviceOS.StackSteps

/-!
# DeviceOS.StackHalt

`halt` and the invariant of the process tables, statement by statement and as a whole; and the step
theorem for all events.

* `StackInv.exec`: one statement of `halt`. Only `pid_arr[terminal_process_index] = pid_temp` changes
  a stack.
* `StackInv.halt`: the whole call pops the stack of the running terminal.
* `StepKind`, `StackInv.kind`: what one event can do to the process tables, as one list of cases.
* `StackInv.next`: one event changes the stacks by the operation `stackOp` and keeps the invariant.
-/

namespace DeviceOS

/-- What an event does to the process stacks. -/
inductive StackOp where
  | keep
  | push (t : Term) (q : Pid)
  | pop (t : Term)
  deriving DecidableEq

def StackOp.apply (A : Term → List Pid) : StackOp → Term → List Pid
  | .keep => A
  | .push t q => Function.update A t (q :: A t)
  | .pop t => Function.update A t (A t).tail

/-- An upper bound on the statements of `halt` that are left. -/
def HaltPc.left : HaltPc → Nat
  | .mapParent => 15
  | .clearShell => 14
  | .closeFds i => 7 + max 1 (8 - i)
  | .tssEsp0 => 7
  | .tssSs0 => 6
  | .clearMask => 5
  | .typing => 4
  | .popPid => 3
  | .setValue => 2
  | .jump => 1

theorem HaltPc.exec_next {pc : HaltPc} {l : HaltLocals} {k k' : Kernel} {c : Ctl}
    (h : pc.exec l k = some (k', c)) :
    (∃ q, c = .user q) ∨ (∃ fr, c = .finishing fr l) ∨
      ∃ pc', c = .halting pc' l ∧ pc'.left < pc.left := by
  cases pc with
  | mapParent =>
    simp only [exec] at h
    split at h <;> cases h
    · exact Or.inl ⟨_, rfl⟩
    · exact Or.inr (Or.inr ⟨_, rfl, by decide⟩)
  | closeFds i =>
    obtain ⟨r, _, heq⟩ := Option.map_eq_some_iff.mp h
    cases heq
    refine Or.inr (Or.inr ⟨_, rfl, ?_⟩)
    split
    · simp only [left]
      omega
    · simp only [left]
      omega
  | typing =>
    obtain ⟨r, _, heq⟩ := Option.map_eq_some_iff.mp h
    cases heq
    exact Or.inr (Or.inr ⟨_, rfl, by decide⟩)
  | popPid =>
    obtain ⟨r, _, heq⟩ := Option.map_eq_some_iff.mp h
    cases heq
    exact Or.inr (Or.inr ⟨_, rfl, by decide⟩)
  | jump => cases h; exact Or.inr (Or.inl ⟨_, rfl⟩)
  | clearShell => cases h; exact Or.inr (Or.inr ⟨_, rfl, by decide⟩)
  | tssEsp0 => cases h; exact Or.inr (Or.inr ⟨_, rfl, by decide⟩)
  | tssSs0 => cases h; exact Or.inr (Or.inr ⟨_, rfl, by decide⟩)
  | clearMask => cases h; exact Or.inr (Or.inr ⟨_, rfl, by decide⟩)
  | setValue => cases h; exact Or.inr (Or.inr ⟨_, rfl, by decide⟩)

theorem runHalt_user_self (n : Nat) (k : Kernel) (q : Pid) :
    runHalt n k (.user q) = some (k, .user q) := by
  cases n <;> rfl

/-- With enough fuel a `halt` that returns has come back to a user program. -/
theorem runHalt_user : ∀ {n : Nat} {pc : HaltPc} {l : HaltLocals} {k k' : Kernel} {c : Ctl},
    pc.left < n → runHalt n k (.halting pc l) = some (k', c) → ∃ q, c = .user q := by
  intro n
  induction n with
  | zero => intro pc l k k' c hn _; exact absurd hn (by omega)
  | succ n ih =>
    intro pc l k k' c hn h
    simp only [runHalt, Option.bind_eq_some_iff] at h
    obtain ⟨⟨k1, c1⟩, h1, h⟩ := h
    rcases HaltPc.exec_next h1 with ⟨q, rfl⟩ | ⟨fr, rfl⟩ | ⟨pc', rfl, hlt⟩
    · simp only [runHalt_user_self] at h
      cases h
      exact ⟨q, rfl⟩
    · cases n with
      | zero =>
        have : 1 ≤ pc.left := by cases pc <;> simp only [HaltPc.left] <;> omega
        omega
      | succ n =>
        simp only [runHalt, Option.bind_eq_some_iff] at h
        obtain ⟨⟨k2, c2⟩, h2, h⟩ := h
        obtain ⟨q, _, heq⟩ := Option.map_eq_some_iff.mp h2
        cases heq
        rw [runHalt_user_self] at h
        cases h
        exact ⟨q, rfl⟩
    · exact ih (by omega) h

namespace Machine

variable {img : Image} {m m' : Machine} {A : Term → List Pid} {t : Term} {q : Pid}

theorem StackStep.trans {m1 m2 : Machine} {A1 A2 : Term → List Pid} (h1 : StackStep m m1 A1)
    (h2 : StackStep m1 m2 A2)
    (ht : m2.kern.proc.terminalProcessIndex = m1.kern.proc.terminalProcessIndex) :
    StackStep m m2 A2 :=
  ⟨h2.inv, fun u hu => (h2.other u hu).trans (h1.other u (ht ▸ hu))⟩

/-- What the next statement of the running thread does to the stacks. -/
def goOp (m : Machine) : StackOp :=
  match m.ctl, m.kern.proc.terminalProcessIndex with
  | .halting .popPid _, some t => .pop t
  | _, _ => .keep

/-- The stacks when the `halt` in progress, if there is one, is over. -/
def settled (m : Machine) (A : Term → List Pid) : Term → List Pid :=
  match m.ctl, m.kern.proc.terminalProcessIndex with
  | .halting pc _, some t => if pc.popped then A else Function.update A t (A t).tail
  | _, _ => A

theorem StackInv.haltCall (h : StackInv m A) {p : Pid} (hc : m.ctl = .user p) {status : UInt8}
    {k : Kernel} {c : Ctl} (hx : m.kern.haltEntry status = some (k, c)) :
    k = m.kern ∧ StackStep m ⟨k, c⟩ A ∧ (p.val < 3 ∧ c = .user p ∨
      3 ≤ p.val ∧ c = .halting .mapParent ⟨p, m.kern.proc.parentOf p, status⟩) := by
  obtain ⟨t, r, ht, hr, _, hok⟩ := h.running (by rw [hc]; simp)
  rw [hc] at hok
  have hpr : p = r := hok
  subst hpr
  have hcur : m.kern.currPid = some p := by simp [Kernel.currPid, ht, hr]
  obtain ⟨rfl, q, hq, hcase⟩ := Kernel.haltEntry_cases hx
  obtain rfl : p = q := Option.some.inj (hcur.symm.trans hq)
  rcases hcase with ⟨hlt, rfl⟩ | ⟨hge, rfl⟩
  · refine ⟨rfl, ?_, Or.inl ⟨hlt, rfl⟩⟩
    rw [← hc]
    exact ⟨h, fun _ _ => rfl⟩
  · refine ⟨rfl, ?_, Or.inr ⟨hge, rfl⟩⟩
    refine h.move ⟨rfl, rfl, rfl, fun _ => ⟨rfl, rfl⟩⟩ (fun _ => rfl) rfl ht hr ?_ ?_
    · rw [hc]
      rfl
    · exact ⟨hge, rfl, rfl⟩

/-- A statement of `halt` that changes no stack, no mask and no saved context. -/
theorem StackInv.exec_move {pc pc' : HaltPc} {l : HaltLocals} {k : Kernel} (h : StackInv m A)
    (hc : m.ctl = .halting pc l) (hpc : pc ≠ .popPid) (hpop : pc'.popped = pc.popped)
    (hrel : (Ctl.halting pc' l).releases = (Ctl.halting pc l).releases)
    (hs : SameShape m.kern.proc k.proc)
    (hprog : ∀ q, (k.proc.pcb q).program = (m.kern.proc.pcb q).program)
    (htpi : k.proc.terminalProcessIndex = m.kern.proc.terminalProcessIndex) :
    StackStep m ⟨k, .halting pc' l⟩ (m.goOp.apply A) ∧
      settled ⟨k, .halting pc' l⟩ (m.goOp.apply A) = settled m A := by
  obtain ⟨t, q, ht, hq, _, hok⟩ := h.running (by rw [hc]; simp)
  rw [hc] at hok
  have hop : m.goOp = .keep := by
    unfold goOp
    rw [hc]
    split
    · rename_i heq _
      cases heq
      exact absurd rfl hpc
    · rfl
  rw [hop]
  refine ⟨?_, ?_⟩
  · refine h.move hs hprog htpi ht hq (by rw [hc]; exact hrel) ?_
    have hok' := hs.threadOk hok
    simp only [ThreadOk, hpop] at hok' ⊢
    exact hok'
  · simp only [settled, hc, htpi, ht, hpop]
    rfl

/-- One statement of `halt`. -/
theorem StackInv.exec (h : StackInv m A) {pc : HaltPc} {l : HaltLocals}
    (hc : m.ctl = .halting pc l) {k : Kernel} {c : Ctl} (hx : pc.exec l m.kern = some (k, c)) :
    StackStep m ⟨k, c⟩ (m.goOp.apply A) ∧ settled ⟨k, c⟩ (m.goOp.apply A) = settled m A := by
  obtain ⟨t, q, ht, hq, hth, hok⟩ := h.running (by rw [hc]; simp)
  rw [hc] at hok hth
  have h3 := hok.1
  cases pc with
  | mapParent =>
    obtain ⟨_, hcur, hpar⟩ := hok
    obtain ⟨d, _, hd, _, _⟩ := h.table.parent_exists hq (hcur ▸ h3)
    rw [hd] at hpar
    simp only [HaltPc.exec, hpar] at hx
    cases hx
    exact h.exec_move hc (by simp) rfl rfl ⟨rfl, rfl, rfl, fun _ => ⟨rfl, rfl⟩⟩ (fun _ => rfl) rfl
  | clearShell =>
    cases hx
    exact h.exec_move hc (by simp) rfl rfl ⟨rfl, rfl, rfl, fun _ => ⟨rfl, rfl⟩⟩ (fun _ => rfl) rfl
  | closeFds i =>
    obtain ⟨⟨v, k1⟩, hclose, heq⟩ := Option.map_eq_some_iff.mp hx
    cases heq
    have hs := (Kernel.close_apart hclose).1
    refine h.exec_move hc (by simp) ?_ ?_ hs.sameShape (fun q => (hs.pcb q).program)
      hs.terminalProcessIndex
    · split <;> rfl
    · split <;> rfl
  | tssEsp0 =>
    cases hx
    exact h.exec_move hc (by simp) rfl rfl ⟨rfl, rfl, rfl, fun _ => ⟨rfl, rfl⟩⟩ (fun _ => rfl) rfl
  | tssSs0 =>
    cases hx
    exact h.exec_move hc (by simp) rfl rfl ⟨rfl, rfl, rfl, fun _ => ⟨rfl, rfl⟩⟩ (fun _ => rfl) rfl
  | clearMask =>
    cases hx
    refine ⟨?_, ?_⟩
    · rw [goOp, hc]
      exact h.of_update ht (h.table.clearMask hq hth) rfl (fun _ _ => rfl)
        (by simp [Kernel.onProc, Proc.clearMask, hq]) fun _ _ _ _ => rfl
    · simp [settled, goOp, hc, ht, Kernel.onProc, Proc.clearMask, HaltPc.popped, StackOp.apply]
  | typing =>
    obtain ⟨u, _, heq⟩ := Option.map_eq_some_iff.mp hx
    cases heq
    exact h.exec_move hc (by simp) rfl rfl ⟨rfl, rfl, rfl, fun _ => ⟨rfl, rfl⟩⟩ (fun _ => rfl) rfl
  | popPid =>
    simp only [HaltPc.exec, ht, Option.map_some, Option.some.injEq] at hx
    cases hx
    have hop : m.goOp = .pop t := by simp [goOp, hc, ht]
    rw [hop]
    have hnew : (m.kern.onProc (·.popPid t l.pidTemp)).proc.pidArr t ≠ none := by
      obtain ⟨_, hcur, hpar⟩ := hok
      obtain ⟨d, _, hd, _, _⟩ := h.table.parent_exists hq (hcur ▸ h3)
      simp [Kernel.onProc, Proc.popPid, hpar, hd]
    refine ⟨?_, ?_⟩
    · exact h.of_update ht (h.table.popPid hq hth) rfl (fun u hu => Proc.popPid_of_ne _ _ hu) hnew
        fun _ _ _ _ => rfl
    · simp [settled, hc, ht, Kernel.onProc, Proc.popPid, HaltPc.popped, StackOp.apply]
  | setValue =>
    cases hx
    exact h.exec_move hc (by simp) rfl rfl ⟨rfl, rfl, rfl, fun _ => ⟨rfl, rfl⟩⟩ (fun _ => rfl) rfl
  | jump =>
    cases hx
    refine ⟨?_, ?_⟩
    · rw [goOp, hc]
      exact h.move ⟨rfl, rfl, rfl, fun _ => ⟨rfl, rfl⟩⟩ (fun _ => rfl) rfl ht hq
        (by rw [hc]; rfl) hok.2.2
    · simp [settled, goOp, hc, ht, HaltPc.popped, StackOp.apply]

/-- The return at `finish_execute`. -/
theorem StackInv.finish (h : StackInv m A) {fr : Frame} {l : HaltLocals}
    (hc : m.ctl = .finishing fr l) {k : Kernel} {c : Ctl}
    (hx : finishExecute m.kern fr = some (k, c)) :
    k = m.kern ∧ StackStep m ⟨k, c⟩ A ∧ ∃ p, c = .user p := by
  obtain ⟨t, q, ht, hq, _, hok⟩ := h.running (by rw [hc]; simp)
  rw [hc] at hok
  obtain ⟨p, hp, heq⟩ := Option.map_eq_some_iff.mp hx
  cases heq
  refine ⟨rfl, ?_, p, rfl⟩
  refine h.move ⟨rfl, rfl, rfl, fun _ => ⟨rfl, rfl⟩⟩ (fun _ => rfl) rfl ht hq (by rw [hc]; rfl) ?_
  exact Option.some.inj (hp.symm.trans hok)

/-- All statements of `halt` that are left. -/
theorem StackInv.runHalt : ∀ {n : Nat} {m : Machine} {A : Term → List Pid} {k : Kernel} {c : Ctl},
    StackInv m A → runHalt n m.kern m.ctl = some (k, c) →
      ∃ A', StackStep m ⟨k, c⟩ A' ∧ settled ⟨k, c⟩ A' = settled m A := by
  intro n
  induction n with
  | zero =>
    intro m A k c h hr
    cases hr
    exact ⟨A, ⟨h, fun _ _ => rfl⟩, rfl⟩
  | succ n ih =>
    intro m A k c h hr
    cases hc : m.ctl with
    | halting pc l =>
      simp only [hc, DeviceOS.runHalt, Option.bind_eq_some_iff] at hr
      obtain ⟨⟨k1, c1⟩, hx, hr⟩ := hr
      obtain ⟨h1, hs1⟩ := h.exec hc hx
      obtain ⟨A', h2, hs2⟩ := ih (m := ⟨k1, c1⟩) h1.inv hr
      exact ⟨A', h1.trans h2 (runHalt_con hr).2, hs2.trans hs1⟩
    | finishing fr l =>
      simp only [hc, DeviceOS.runHalt, Option.bind_eq_some_iff] at hr
      obtain ⟨⟨k1, c1⟩, hx, hr⟩ := hr
      obtain ⟨rfl, h1, p, rfl⟩ := h.finish hc hx
      obtain ⟨A', h2, hs2⟩ := ih (m := ⟨m.kern, .user p⟩) h1.inv hr
      refine ⟨A', h1.trans h2 (runHalt_con hr).2, hs2.trans ?_⟩
      simp [settled, hc]
    | _ =>
      simp only [hc, DeviceOS.runHalt] at hr
      cases hr
      refine ⟨A, ?_, ?_⟩
      · rw [← hc]
        exact ⟨h, fun _ _ => rfl⟩
      · simp [settled, hc]

/-- `halt` as one step: a base shell starts again, any other process leaves its stack. -/
theorem StackInv.halt (h : StackInv m A) {p : Pid} (hc : m.ctl = .user p) {status : UInt8}
    {k : Kernel} {c : Ctl} (hx : DeviceOS.halt m.kern status = some (k, c))
    (ht : m.kern.proc.terminalProcessIndex = some t) :
    StackStep m ⟨k, c⟩ (if p.val < 3 then A else Function.update A t (A t).tail) ∧
      ∃ q, c = .user q := by
  simp only [DeviceOS.halt, Option.bind_eq_some_iff] at hx
  obtain ⟨⟨k1, c1⟩, he, hr⟩ := hx
  obtain ⟨rfl, h1, hcase⟩ := h.haltCall hc he
  rcases hcase with ⟨hlt, rfl⟩ | ⟨hge, rfl⟩
  · simp only [runHalt_user_self] at hr
    cases hr
    rw [if_pos hlt]
    exact ⟨h1, p, rfl⟩
  · obtain ⟨q, rfl⟩ := runHalt_user (by decide) hr
    obtain ⟨A', h2, hs⟩ := StackInv.runHalt h1.inv hr
    have hA : A' = Function.update A t (A t).tail := by
      simpa [settled, ht, HaltPc.popped] using hs
    rw [if_neg (by omega), ← hA]
    exact ⟨h1.trans h2 (runHalt_con hr).2, q, rfl⟩

/-! ## All events -/

/-- The file system has a program `shell` that can be loaded. -/
def ShellLoads (img : Image) : Prop :=
  ∃ prog, findProgram img shellName = .ok (some prog) ∧
    img.badBlock (img.inodes prog.inode) = false

/-- A program is started only by the process of the displayed terminal, and only when the pids of
the base shells are taken; a tick that starts a base shell finds one. -/
def Orderly (img : Image) (m : Machine) : Event → Prop
  | .tick _ _ => ∀ t, m.kern.nextTerminal = some t → m.kern.proc.pidArr t = none → ShellLoads img
  | .execute command _ _ => ∀ q, m.kern.proc.newPid img command = some q →
    m.kern.proc.terminalProcessIndex = some m.kern.con.curTerminal ∧ 3 ≤ q.val
  | _ => True

/-- `execute` fills in the PCB of a pid whose `halt` is still in progress on some terminal. -/
def Reuse (img : Image) (m : Machine) : Event → Prop
  | .execute command _ _ => ∃ q prog, m.kern.proc.Finds img command q prog ∧
    ∃ u pc l, m.thread u = some (.halting pc l) ∧ l.currPid = q
  | _ => False

/-- The copy of a program's image fails. -/
def CopyFails (img : Image) (m : Machine) : Event → Prop
  | .execute command _ _ => ∃ q prog, m.kern.proc.Finds img command q prog ∧
    img.badBlock (img.inodes prog.inode) = true
  | _ => False

/-- What an event does to the stacks. -/
def stackOp (img : Image) (m : Machine) : Event → StackOp
  | .tick _ _ =>
    match m.kern.nextTerminal with
    | some t => if m.kern.proc.pidArr t = none then .push t (rootPid t) else .keep
    | none => .keep
  | .execute command _ _ =>
    match m.kern.proc.terminalProcessIndex, m.kern.proc.newPid img command with
    | some t, some q => .push t q
    | _, _ => .keep
  | .halt _ =>
    match m.kern.proc.terminalProcessIndex, m.kern.currPid with
    | some t, some c => if c.val < 3 then .keep else .pop t
    | _, _ => .keep
  | .go => m.goOp
  | _ => .keep

/-- What an event does, once programs start on the terminal that runs them. -/
inductive StepKind (img : Image) (m m' : Machine) : Event → Prop
  | quiet {e : Event} : Quiet m e → SameTables m.kern.proc m'.kern.proc →
      SameThread m.ctl m'.ctl → StepKind img m m' e
  | still {esp ebp : Nat} : m.kern.nextTerminal = none → m' = m →
      StepKind img m m' (.tick esp ebp)
  | start {esp ebp : Nat} {t : Term} : m.kern.nextTerminal = some t → m.kern.proc.pidArr t = none →
      Launched (m.kern.suspended m.ctl t).proc m'.kern.proc t m.kern.con.curTerminal (rootPid t)
        ⟨esp, ebp, none⟩ → m'.ctl = .user (rootPid t) → StepKind img m m' (.tick esp ebp)
  | resume {esp ebp : Nat} {t : Term} {q : Pid} : m.kern.nextTerminal = some t →
      m.kern.proc.pidArr t = some q → m'.kern.proc = (m.kern.resumed m.ctl t q).proc →
      m.thread t = some m'.ctl → StepKind img m m' (.tick esp ebp)
  | spawn {command : Option CString} {esp ebp : Nat} {t : Term} {p q : Pid} : m.ctl = .user p →
      m.kern.proc.terminalProcessIndex = some t → m.kern.proc.pidArr t = some p → 3 ≤ q.val →
      m.kern.proc.newPid img command = some q →
      Launched m.kern.proc m'.kern.proc t t q ⟨esp, ebp, some p⟩ → m'.ctl = .user q →
      StepKind img m m' (.execute command esp ebp)
  | rejected {command : Option CString} {esp ebp : Nat} : m.program ≠ none →
      m.kern.proc.newPid img command = none → m'.kern.proc = m.kern.proc → m'.ctl = m.ctl →
      StepKind img m m' (.execute command esp ebp)
  | failed {command : Option CString} {esp ebp : Nat} {p q : Pid} {prog : Program} :
      m.ctl = .user p → m.kern.proc.newPid img command = none →
      m.kern.proc.Finds img command q prog → img.badBlock (img.inodes prog.inode) = true →
      (m.kern.proc.prepared m.kern.con.curTerminal q).Stored m'.kern.proc → m'.ctl = .user p →
      StepKind img m m' (.execute command esp ebp)
  | restart {status : UInt8} {p : Pid} : m.ctl = .user p → p.val < 3 → m' = m →
      StepKind img m m' (.haltCall status)
  | enter {status : UInt8} {p : Pid} : m.ctl = .user p → 3 ≤ p.val → m'.kern = m.kern →
      m'.ctl = .halting .mapParent ⟨p, m.kern.proc.parentOf p, status⟩ →
      StepKind img m m' (.haltCall status)
  | exec {pc : HaltPc} {l : HaltLocals} : m.ctl = .halting pc l →
      pc.exec l m.kern = some (m'.kern, m'.ctl) → StepKind img m m' .go
  | finish {fr : Frame} {l : HaltLocals} {p : Pid} : m.ctl = .finishing fr l →
      fr.caller = some p → m'.kern = m.kern → m'.ctl = .user p → StepKind img m m' .go
  | whole {status : UInt8} {p : Pid} : m.ctl = .user p →
      DeviceOS.halt m.kern status = some (m'.kern, m'.ctl) → StepKind img m m' (.halt status)

/-- A user program is the process of the running terminal. -/
theorem StackInv.user (h : StackInv m A) {p : Pid} (hc : m.ctl = .user p) :
    ∃ t, m.kern.proc.terminalProcessIndex = some t ∧ m.kern.proc.pidArr t = some p := by
  obtain ⟨t, q, ht, hq, _, hok⟩ := h.running (by rw [hc]; simp)
  rw [hc] at hok
  have hpq : p = q := hok
  exact ⟨t, ht, hpq ▸ hq⟩

theorem StackInv.tick_kind (h : StackInv m A) {esp ebp : Nat} (ho : Orderly img m (.tick esp ebp))
    (hp : m.kern.pitHandler img m.ctl ⟨esp, ebp, none⟩ = some (m'.kern, m'.ctl)) :
    StepKind img m m' (.tick esp ebp) := by
  rcases Kernel.pitHandler_cases hp with ⟨hn, hk, hc⟩ | ⟨t, hn, _, hcase⟩
  · obtain ⟨k', c'⟩ := m'
    cases hk
    cases hc
    exact .still hn rfl
  · rcases hcase with ⟨he, p', hx, _, _⟩ | ⟨he, q, p', hx, hk, hc⟩ | ⟨q, hq, hk, hc⟩
    · -- the shell cannot fail to start: its pid is free and its program loads
      exfalso
      obtain ⟨prog, hf, hb⟩ := ho t hn he
      have hloads : (m.kern.suspended m.ctl t).proc.Loads img (some shellName) (rootPid t) prog :=
        ⟨⟨h.freePid_eq hn he, _, rfl, hf⟩, hb⟩
      exact hloads.not_ret hx
    · obtain ⟨rfl, hl⟩ := h.shell_launched hn he hx
      exact .start hn he (by rw [hk]; exact hl) hc
    · refine .resume hn hq (by rw [hk]) ?_
      rw [hc, ← h.saved t t, hq]
      rfl

theorem returned_kind {command : Option CString} {esp ebp : Nat} {p : Pid} {v : Int}
    {p' : Proc} (hc : m.ctl = .user p)
    (hx : m.kern.proc.execute img m.kern.con.curTerminal command ⟨esp, ebp, some p⟩ = .ret v p')
    (heq : m' = ⟨{ m.kern with proc := p' }, .user p⟩) :
    StepKind img m m' (.execute command esp ebp) := by
  subst heq
  have hnone : m.kern.proc.newPid img command = none := by
    by_contra hne
    obtain ⟨q, hq⟩ := Option.ne_none_iff_exists'.mp hne
    obtain ⟨prog, hl⟩ := Proc.newPid_eq_some.mp hq
    exact hl.not_ret hx
  rcases (Proc.execute_ret hx).2 with rfl | ⟨q, prog, hf, hb, hst⟩
  · exact .rejected (by rw [program_eq_some.mpr hc]; simp) hnone rfl hc.symm
  · exact .failed hc hnone hf hb hst rfl

theorem StackInv.entered_kind (h : StackInv m A) {command : Option CString} {esp ebp : Nat}
    (ho : Orderly img m (.execute command esp ebp)) {p q : Pid} {p' : Proc} (hc : m.ctl = .user p)
    (hx : m.kern.proc.execute img m.kern.con.curTerminal command ⟨esp, ebp, some p⟩ = .enter q p')
    (heq : m' = ⟨{ m.kern with proc := p' }, .user q⟩) :
    StepKind img m m' (.execute command esp ebp) := by
  subst heq
  obtain ⟨prog, p1, hl, hst, rfl⟩ := Proc.execute_enter hx
  have hq := Proc.newPid_eq_some.mpr ⟨prog, hl⟩
  obtain ⟨hcur, h3⟩ := ho q hq
  obtain ⟨t, ht, hp⟩ := h.user hc
  have htc : t = m.kern.con.curTerminal := Option.some.inj (ht.symm.trans hcur)
  have hlaunch := Proc.launch_launched prog ⟨esp, ebp, some p⟩ hst
  rw [Proc.pidSlot, dif_neg (by omega), ← htc] at hlaunch
  exact .spawn hc ht hp h3 hq (htc ▸ hlaunch) rfl

/-- The inversion of one event, for the stacks. -/
theorem StackInv.kind (h : StackInv m A) {e : Event} (ho : Orderly img m e)
    (hs : step img m e = some m') : StepKind img m m' e := by
  have hquiet : Quiet m e → StepKind img m m' e := fun hq =>
    .quiet hq (step_sameTables hq hs).1 (step_sameTables hq hs).2
  cases step_cases hs with
  | tick hp => exact h.tick_kind ho hp
  | returned hc hx heq => exact returned_kind hc hx heq
  | entered hc hx heq => exact h.entered_kind ho hc hx heq
  | halt hc hx => exact .whole hc hx
  | haltCall hc hx =>
    obtain ⟨hk, _, ⟨hlt, hc'⟩ | ⟨hge, hc'⟩⟩ := h.haltCall hc hx
    · obtain ⟨k', c'⟩ := m'
      cases hk
      cases hc'
      exact .restart hc hlt (by rw [← hc])
    · exact .enter hc hge hk hc'
  | statement hc hx => exact .exec hc hx
  | finish hc hp heq => exact .finish hc hp (by rw [heq]) (by rw [heq])
  | poll hc => exact hquiet ⟨_, by rw [hc]; rfl⟩
  | rtcPoll hc => exact hquiet ⟨_, by rw [hc]; rfl⟩
  | _ => exact hquiet trivial

/-- One event: the invariant is kept, and the stacks change by the operation of the event. -/
theorem StackInv.next (h : StackInv m A) {e : Event} (ho : Orderly img m e) (hr : ¬ Reuse img m e)
    (hs : step img m e = some m') : StackStep m m' ((stackOp img m e).apply A) := by
  cases h.kind ho hs with
  | quiet hq hp hc =>
    have hop : stackOp img m e = .keep := by
      cases e with
      | go =>
        obtain ⟨p, hp⟩ := hq
        cases hctl : m.ctl with
        | halting pc l =>
          rw [hctl] at hp
          exact hp.elim
        | _ => simp [stackOp, goOp, hctl]
      | tick | execute | halt | haltCall => exact hq.elim
      | _ => rfl
    rw [hop]
    exact h.quiet hp hc
  | still hn heq =>
    subst heq
    simp only [stackOp, hn]
    exact ⟨h, fun _ _ => rfl⟩
  | start hn he hl hc =>
    simp only [stackOp, hn, he, if_true]
    exact h.startShell hn he hl hc
  | resume hn hq hp hc =>
    simp only [stackOp, hn, hq]
    exact h.resume hn hq hp hc
  | @spawn command esp ebp t p q hc ht hp h3 hq hl hc' =>
    obtain ⟨prog, hf, _⟩ := Proc.newPid_eq_some.mp hq
    simp only [stackOp, ht, hq]
    exact h.spawn hc ht hp h3 hf.freePid
      (fun u pc l hth heq => hr ⟨q, prog, hf, u, pc, l, hth, heq⟩) hl hc'
  | @rejected command esp ebp hc hnone hp hc' =>
    have hop : stackOp img m (.execute command esp ebp) = .keep := by
      simp only [stackOp, hnone]
      cases m.kern.proc.terminalProcessIndex <;> rfl
    rw [hop]
    exact h.quiet (by rw [hp]; exact .refl _) (Or.inl hc')
  | @failed command esp ebp p q prog hc hnone hf hb hst hc' =>
    have hop : stackOp img m (.execute command esp ebp) = .keep := by
      simp only [stackOp, hnone]
      cases m.kern.proc.terminalProcessIndex <;> rfl
    rw [hop]
    exact h.failedExecute hc hf.freePid
      (fun u pc l hth heq => hr ⟨q, prog, hf, u, pc, l, hth, heq⟩) hst hc'
  | restart hc hlt heq =>
    subst heq
    exact ⟨h, fun _ _ => rfl⟩
  | @enter status p hc hge hk hc' =>
    obtain ⟨t, ht, hp⟩ := h.user hc
    refine h.move (by rw [hk]; exact ⟨rfl, rfl, rfl, fun _ => ⟨rfl, rfl⟩⟩) (fun _ => by rw [hk])
      (by rw [hk]) ht hp ?_ ?_
    · rw [hc', hc]
      rfl
    · rw [hc', hk]
      exact ⟨hge, rfl, rfl⟩
  | exec hc hx => exact (h.exec hc hx).1
  | @finish fr l p hc hp hk hc' =>
    have hop : stackOp img m .go = .keep := by simp [stackOp, goOp, hc]
    rw [hop]
    obtain ⟨t, q, ht, hq, _, hok⟩ := h.running (by rw [hc]; simp)
    rw [hc] at hok
    refine h.move (by rw [hk]; exact ⟨rfl, rfl, rfl, fun _ => ⟨rfl, rfl⟩⟩) (fun _ => by rw [hk])
      (by rw [hk]) ht hq ?_ ?_
    · rw [hc', hc]
      rfl
    · rw [hc']
      exact Option.some.inj (hp.symm.trans hok)
  | @whole status p hc hx =>
    obtain ⟨t, ht, hp⟩ := h.user hc
    have hop : stackOp img m (.halt status) = if p.val < 3 then .keep else .pop t := by
      simp [stackOp, Kernel.currPid, ht, hp]
    rw [hop]
    obtain ⟨h', _⟩ := h.halt hc hx ht
    split
    · rwa [if_pos ‹_›] at h'
    · rwa [if_neg ‹_›] at h'

end Machine
end DeviceOS
