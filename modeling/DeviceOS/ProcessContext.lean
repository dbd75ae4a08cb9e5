import DeviceOS.FailedExecute
import DeviceOS.ProcessStacks

/-!
# DeviceOS.ProcessContext

The page directory and the TSS follow the process that runs. `execute` and `schedule` compute both
from the pid; `halt` maps the parent's page and takes ESP0 from the PCB of the child, where `execute`
had saved it.

* `ContextInv m A`: what the saved values are, and what page and ESP0 are at each point of `halt`.
* `ContextInv.next`: every event keeps it, unless a tick resumes a thread between the two statements
  of `halt` that map the parent and leave the child's stack (`InWindow`).
* `user_context`: in runs of whole calls, a user program runs in its own page and on its own kernel
  stack.
-/

namespace DeviceOS

open EventSystem (Reach run)

/-- `map_program_mem(pid_temp)` has been executed. -/
def HaltPc.mapped : HaltPc → Bool
  | .mapParent => false
  | _ => true

/-- `tss.esp0 = curr_pcb->TSS_prev_esp0` has been executed. -/
def HaltPc.restored : HaltPc → Bool
  | .mapParent | .clearShell | .closeFds _ | .tssEsp0 => false
  | _ => true

/-- ESP0 while the thread `c` runs. -/
def EspOk (p : Proc) : Ctl → Prop
  | .idle => True
  | .user r | .reading r _ | .waiting r => p.tss.esp0 = esp0Of r
  | .halting pc l => pc.restored = true → ∀ d, l.pidTemp = some d → p.tss.esp0 = esp0Of d
  | .finishing fr _ => ∀ d, fr.caller = some d → p.tss.esp0 = esp0Of d

/-- The program page while the thread `c` is in `halt`. -/
def PageOk (p : Proc) : Ctl → Prop
  | .halting pc l => pc.mapped = true → ∀ d, l.pidTemp = some d → p.pageDirectory32 = pdeOf d
  | .finishing fr _ => ∀ d, fr.caller = some d → p.pageDirectory32 = pdeOf d
  | _ => True

/-- The program page while the thread `c` is in a program. -/
def UserPage (p : Proc) : Ctl → Prop
  | .user r | .reading r _ | .waiting r => p.pageDirectory32 = pdeOf r
  | _ => True

/-- The fields of a PCB that only `execute` stores to. -/
structure KeptPcb (b b' : Pcb) : Prop where
  parentid : b'.parentid = b.parentid
  prev : b'.prev = b.prev
  tssPrevEsp0 : b'.tssPrevEsp0 = b.tssPrevEsp0

theorem KeptPcb.refl (b : Pcb) : KeptPcb b b := ⟨rfl, rfl, rfl⟩

theorem KeptPcb.trans {a b c : Pcb} (h1 : KeptPcb a b) (h2 : KeptPcb b c) : KeptPcb a c :=
  ⟨h2.parentid.trans h1.parentid, h2.prev.trans h1.prev, h2.tssPrevEsp0.trans h1.tssPrevEsp0⟩

theorem SamePcb.kept {b b' : Pcb} (h : SamePcb b b') : KeptPcb b b' :=
  ⟨h.parentid, h.prev, h.tssPrevEsp0⟩

theorem HaltPc.exec_kept {pc : HaltPc} {l : HaltLocals} {k k' : Kernel} {c : Ctl}
    (h : pc.exec l k = some (k', c)) (q : Pid) : KeptPcb (k.proc.pcb q) (k'.proc.pcb q) := by
  rcases exec_cases h with ⟨fd, v, hclose⟩ | ⟨_, _, hpcb, _, _⟩
  · exact ((Kernel.close_apart hclose).1.pcb q).kept
  · rw [hpcb]
    exact .refl _

theorem halt_kept {k k' : Kernel} {status : UInt8} {c : Ctl} (h : halt k status = some (k', c))
    (q : Pid) : KeptPcb (k.proc.pcb q) (k'.proc.pcb q) :=
  halt_rel (R := fun k k' => KeptPcb (k.proc.pcb q) (k'.proc.pcb q)) (fun _ => .refl _) .trans
    (fun hx => HaltPc.exec_kept hx q) h

namespace Machine

variable {img : Image} {m m' : Machine} {A : Term → List Pid} {t : Term} {q : Pid} {e : Event}

/-! ## PCBs that a step sets up -/

/-- The pids whose PCB an event fills in. -/
def SetsUp (img : Image) (m : Machine) : Event → Pid → Prop
  | .tick _ _, q => ∃ t, m.kern.nextTerminal = some t ∧ m.kern.proc.pidArr t = none ∧ q = rootPid t
  | .execute command _ _, q => ∃ prog, m.kern.proc.Finds img command q prog
  | _, _ => False

theorem suspended_kept (k : Kernel) (ctl : Ctl) (t : Term) (q : Pid) :
    KeptPcb (k.proc.pcb q) ((k.suspended ctl t).proc.pcb q) := by
  rcases k.suspended_pcb ctl t q with h | h
  · rw [h]
    exact .refl _
  · rw [h]
    exact ⟨rfl, rfl, rfl⟩

theorem StepKind.kept (h : StepKind img m m' e) (hq : ¬ SetsUp img m e q) :
    KeptPcb (m.kern.proc.pcb q) (m'.kern.proc.pcb q) := by
  cases h with
  | quiet _ hs => exact (hs.pcb q).kept
  | still _ heq => rw [heq]; exact .refl _
  | start hn he hl =>
    rw [hl.other q fun heq => hq ⟨_, hn, he, heq⟩]
    exact suspended_kept m.kern m.ctl _ q
  | @resume _ _ t _ _ _ hp =>
    rw [hp]
    exact suspended_kept m.kern m.ctl t q
  | spawn _ _ _ _ hnew hl =>
    obtain ⟨prog, hload⟩ := Proc.newPid_eq_some.mp hnew
    rw [hl.other q (by rintro rfl; exact hq ⟨prog, hload.1⟩)]
    exact .refl _
  | rejected _ _ hp => rw [hp]; exact .refl _
  | failed _ _ hf _ hst =>
    rw [((prepared_other hst).1 q (by rintro rfl; exact hq ⟨_, hf⟩)).2]
    exact .refl _
  | restart _ _ heq => rw [heq]; exact .refl _
  | enter _ _ hk => rw [hk]; exact .refl _
  | exec _ hx => exact HaltPc.exec_kept hx q
  | finish _ _ hk => rw [hk]; exact .refl _
  | whole hc hx => exact halt_kept hx q

/-- A PCB that is filled in belongs to no process of a stack. -/
theorem StackInv.setsUp_fresh (h : StackInv m A) (hr : ¬ Reuse img m e) (hq : SetsUp img m e q) :
    ∀ u, q ∉ A u := by
  cases e with
  | tick esp ebp =>
    obtain ⟨t, hn, he, rfl⟩ := hq
    have hsmall : (rootPid t).val < 3 := t.isLt
    refine h.fresh (h.freePid_eq hn he) fun u pc l hth heq => ?_
    have := h.halting_pid hth
    rw [heq] at this
    omega
  | execute command esp ebp =>
    obtain ⟨prog, hf⟩ := hq
    exact h.fresh hf.freePid fun u pc l hth heq => hr ⟨q, prog, hf, u, pc, l, hth, heq⟩
  | _ => exact hq.elim

theorem goOp_ne_push : m.goOp ≠ .push t q := by
  simp only [goOp]
  split <;> simp

/-- A process that is on a stack after a step was there before, unless the step sets it up. -/
theorem mem_apply_stackOp (hq : ¬ SetsUp img m e q) (hmem : q ∈ (stackOp img m e).apply A t) :
    q ∈ A t := by
  cases hop : stackOp img m e with
  | keep => rwa [hop] at hmem
  | pop u =>
    rw [hop, StackOp.apply] at hmem
    exact LinkedStacks.mem_of_pop hmem
  | push u r =>
    have hr : SetsUp img m e r := by
      cases e with
      | tick esp ebp =>
        simp only [stackOp] at hop
        split at hop
        · rename_i v hn
          split at hop
          · rename_i he
            cases hop
            exact ⟨u, hn, he, rfl⟩
          · cases hop
        · cases hop
      | execute command esp ebp =>
        simp only [stackOp] at hop
        split at hop
        · rename_i v r' _ hnew
          cases hop
          obtain ⟨prog, hl⟩ := Proc.newPid_eq_some.mp hnew
          exact ⟨prog, hl.1⟩
        · cases hop
      | halt status =>
        simp only [stackOp] at hop
        split at hop
        · split at hop <;> cases hop
        · cases hop
      | go => exact absurd hop goOp_ne_push
      | _ => cases hop
    rw [hop, StackOp.apply] at hmem
    rcases LinkedStacks.mem_push.mp hmem with ⟨_, rfl⟩ | hmem
    · exact absurd hr hq
    · exact hmem

/-- A process that a step sets up and puts on a stack, other than a base shell, is the child of the
process that called `execute`. -/
theorem StepKind.setsUp_spawn (hk : StepKind img m m' e) (hi : StackInv m A)
    (hr : ¬ Reuse img m e) (hset : SetsUp img m e q) (hq : q ∈ (stackOp img m e).apply A t)
    (h3 : 3 ≤ q.val) :
    ∃ command esp ebp p, e = .execute command esp ebp ∧ m.ctl = .user p ∧
      m.kern.proc.terminalProcessIndex = some t ∧ m.kern.proc.pidArr t = some p ∧
      m.kern.proc.newPid img command = some q ∧
      Launched m.kern.proc m'.kern.proc t t q ⟨esp, ebp, some p⟩ := by
  have hkeep : ∀ command esp ebp, e = .execute command esp ebp →
      m.kern.proc.newPid img command = none → False := by
    rintro command esp ebp rfl hnone
    refine hi.setsUp_fresh hr hset t ?_
    simp only [stackOp, hnone] at hq
    cases ht : m.kern.proc.terminalProcessIndex <;> rw [ht] at hq <;> exact hq
  cases hk with
  | quiet hq' => cases e <;> first | exact hq'.elim | exact hset.elim
  | still hn =>
    obtain ⟨u, hn', _⟩ := hset
    rw [hn] at hn'
    cases hn'
  | start =>
    obtain ⟨u, _, _, rfl⟩ := hset
    have hsmall : (rootPid u).val < 3 := u.isLt
    omega
  | resume hn hq' =>
    obtain ⟨u, hn', he, _⟩ := hset
    rw [hn] at hn'
    cases hn'
    rw [hq'] at he
    cases he
  | @spawn command esp ebp u p q' hc hu hp _ hnew hl =>
    obtain ⟨prog, hload⟩ := Proc.newPid_eq_some.mp hnew
    obtain rfl : q = q' := by
      obtain ⟨prog', hf⟩ := hset
      exact (hf.unique hload.1).1
    obtain rfl : t = u := by
      by_contra hne
      simp only [stackOp, hu, hnew, StackOp.apply, Function.update_of_ne hne] at hq
      exact hi.setsUp_fresh hr hset t hq
    exact ⟨command, esp, ebp, p, rfl, hc, hu, hp, hnew, hl⟩
  | rejected _ hnone => exact (hkeep _ _ _ rfl hnone).elim
  | failed _ hnone => exact (hkeep _ _ _ rfl hnone).elim
  | _ => exact hset.elim

/-! ## The invariant -/

structure ContextInv (m : Machine) (A : Term → List Pid) : Prop where
  saved : ∀ t q d, q ∈ A t → 3 ≤ q.val → m.kern.proc.parentOf q = some d →
    (m.kern.proc.pcb q).tssPrevEsp0 = esp0Of d
  esp : EspOk m.kern.proc m.ctl
  page : PageOk m.kern.proc m.ctl

/-- A tick that resumes a `halt` which has mapped the parent's page, while `pid_arr` still names the
child: `schedule` maps the child's page again, and `halt` goes on with it. -/
def InWindow (m : Machine) : Event → Prop
  | .tick _ _ => ∃ t pc l, m.kern.nextTerminal = some t ∧ m.thread t = some (.halting pc l) ∧
    pc.mapped = true ∧ pc.popped = false
  | _ => False

/-- One statement of `halt`. -/
theorem ContextInv.exec (h : ContextInv m A) (hi : StackInv m A) {pc : HaltPc} {l : HaltLocals}
    (hc : m.ctl = .halting pc l) {k : Kernel} {c : Ctl} (hx : pc.exec l m.kern = some (k, c)) :
    EspOk k.proc c ∧ PageOk k.proc c ∧ UserPage k.proc c := by
  obtain ⟨t, q, ht, hq, _, hok⟩ := hi.running (by rw [hc]; simp)
  rw [hc] at hok
  have h3 := hok.1
  have hesp := h.esp
  have hpage := h.page
  rw [hc] at hesp hpage
  cases pc with
  | mapParent =>
    obtain ⟨_, hcur, hpar⟩ := hok
    obtain ⟨d, _, hd, _, _⟩ := hi.table.parent_exists hq (hcur ▸ h3)
    rw [hd] at hpar
    simp only [HaltPc.exec, hpar] at hx
    cases hx
    refine ⟨fun hr => absurd hr (by decide), fun _ d' hd' => ?_, trivial⟩
    rw [hpar] at hd'
    cases hd'
    rfl
  | clearShell =>
    cases hx
    exact ⟨fun hr => absurd hr (by decide), fun _ => hpage rfl, trivial⟩
  | closeFds i =>
    obtain ⟨⟨v, k1⟩, hclose, heq⟩ := Option.map_eq_some_iff.mp hx
    cases heq
    have hs := (Kernel.close_apart hclose).1
    have hnext : (if i + 1 < 8 then HaltPc.closeFds (i + 1) else HaltPc.tssEsp0).restored = false := by
      split <;> rfl
    refine ⟨fun hr => ?_, fun _ d hd => ?_, trivial⟩
    · rw [hnext] at hr
      cases hr
    · rw [hs.pageDirectory32]
      exact hpage rfl d hd
  | tssEsp0 =>
    cases hx
    obtain ⟨_, hcur, hpar⟩ := hok
    refine ⟨fun _ d hd => ?_, fun _ => hpage rfl, trivial⟩
    rw [hpar] at hd
    have := h.saved t q d (hi.table.linked.top_mem hq) (hcur ▸ h3) hd
    simp only [Proc.restoreEsp0, hcur]
    exact this
  | tssSs0 => cases hx; exact ⟨fun _ => hesp rfl, fun _ => hpage rfl, trivial⟩
  | clearMask => cases hx; exact ⟨fun _ => hesp rfl, fun _ => hpage rfl, trivial⟩
  | typing =>
    obtain ⟨u, _, heq⟩ := Option.map_eq_some_iff.mp hx
    cases heq
    exact ⟨fun _ => hesp rfl, fun _ => hpage rfl, trivial⟩
  | popPid =>
    obtain ⟨u, _, heq⟩ := Option.map_eq_some_iff.mp hx
    cases heq
    exact ⟨fun _ => hesp rfl, fun _ => hpage rfl, trivial⟩
  | setValue => cases hx; exact ⟨fun _ => hesp rfl, fun _ => hpage rfl, trivial⟩
  | jump =>
    cases hx
    obtain ⟨_, htemp, hcaller⟩ := hok
    have hd : ∀ d, (m.kern.proc.pcb l.currPid).prev.caller = some d → l.pidTemp = some d := by
      intro d hd
      rw [hcaller] at hd
      rw [htemp, hd]
    exact ⟨fun d h' => hesp rfl d (hd d h'), fun d h' => hpage rfl d (hd d h'), trivial⟩

/-- The saved values after a step that sets up no process of a stack. -/
theorem ContextInv.saved_kept (h : ContextInv m A) {A' : Term → List Pid}
    (hA : ∀ t q, q ∈ A' t → q ∈ A t)
    (hk : ∀ q, (∃ u, q ∈ A u) → KeptPcb (m.kern.proc.pcb q) (m'.kern.proc.pcb q)) (t : Term)
    (q d : Pid) (hq : q ∈ A' t) (h3 : 3 ≤ q.val) (hd : m'.kern.proc.parentOf q = some d) :
    (m'.kern.proc.pcb q).tssPrevEsp0 = esp0Of d := by
  have hk := hk q ⟨t, hA t q hq⟩
  rw [Proc.parentOf, hk.parentid] at hd
  rw [hk.tssPrevEsp0]
  exact h.saved t q d (hA t q hq) h3 hd

theorem mem_goOp_apply (img : Image) (hq : q ∈ m.goOp.apply A t) : q ∈ A t :=
  mem_apply_stackOp (show ¬ SetsUp img m .go q from not_false) hq

theorem eq_of_kern_ctl (h : some (m.kern, m.ctl) = some (m'.kern, m'.ctl)) : m' = m := by
  obtain ⟨k, c⟩ := m
  obtain ⟨k', c'⟩ := m'
  cases h
  rfl

/-- All statements of `halt` that are left. -/
theorem ContextInv.runHalt : ∀ {n : Nat} {m m' : Machine} {A A' : Term → List Pid},
    StackInv m A → ContextInv m A → UserPage m.kern.proc m.ctl →
      runHalt n m.kern m.ctl = some (m'.kern, m'.ctl) → StackInv m' A' →
      ContextInv m' A' ∧ UserPage m'.kern.proc m'.ctl := by
  intro n
  induction n with
  | zero =>
    intro m m' A A' hi h hu hr hi'
    obtain rfl := eq_of_kern_ctl hr
    have hA : A' = A := hi'.stackOf.symm.trans hi.stackOf
    exact ⟨hA ▸ h, hu⟩
  | succ n ih =>
    intro m m' A A' hi h hu hr hi'
    cases hc : m.ctl with
    | halting pc l =>
      simp only [hc, DeviceOS.runHalt, Option.bind_eq_some_iff] at hr
      obtain ⟨⟨k1, c1⟩, hx, hr⟩ := hr
      obtain ⟨hesp, hpage, huser⟩ := h.exec hi hc hx
      refine ih (m := ⟨k1, c1⟩) (hi.exec hc hx).1.inv ⟨?_, hesp, hpage⟩ huser hr hi'
      exact h.saved_kept (fun t q => mem_goOp_apply disk) fun q _ => HaltPc.exec_kept hx q
    | finishing fr l =>
      simp only [hc, DeviceOS.runHalt, Option.bind_eq_some_iff] at hr
      obtain ⟨⟨k1, c1⟩, hx, hr⟩ := hr
      have hstep := (hi.finish hc hx).2.1.inv
      obtain ⟨p, hp, heq⟩ := Option.map_eq_some_iff.mp hx
      cases heq
      have hesp := h.esp
      have hpage := h.page
      rw [hc] at hesp hpage
      exact ih (m := ⟨m.kern, .user p⟩) hstep ⟨h.saved, hesp p hp, trivial⟩ (hpage p hp) hr hi'
    | _ =>
      simp only [hc, DeviceOS.runHalt] at hr
      rw [← hc] at hr
      obtain rfl := eq_of_kern_ctl hr
      have hA : A' = A := hi'.stackOf.symm.trans hi.stackOf
      exact ⟨hA ▸ h, hu⟩

theorem SameThread.context {c c' : Ctl} {p p' : Proc} (h : SameThread c c')
    (ht : p'.tss = p.tss) (hp : p'.pageDirectory32 = p.pageDirectory32) :
    (EspOk p c → EspOk p' c') ∧ (PageOk p c → PageOk p' c') ∧ (UserPage p c → UserPage p' c') := by
  rcases h with rfl | ⟨r, hc, hc'⟩
  · refine ⟨fun h => ?_, fun h => ?_, fun h => ?_⟩ <;> cases c' <;>
      simp only [EspOk, PageOk, UserPage, ht, hp] at h ⊢ <;> exact h
  · have hserves : ∀ (d : Ctl) (P : Proc), d.Serves r → (EspOk P d ↔ P.tss.esp0 = esp0Of r) ∧
        PageOk P d ∧ (UserPage P d ↔ P.pageDirectory32 = pdeOf r) := by
      intro d P hd
      cases d with
      | user x => cases hd; exact ⟨Iff.rfl, trivial, Iff.rfl⟩
      | reading x y => cases hd; exact ⟨Iff.rfl, trivial, Iff.rfl⟩
      | waiting x => cases hd; exact ⟨Iff.rfl, trivial, Iff.rfl⟩
      | _ => exact hd.elim
    obtain ⟨h1, _, h3⟩ := hserves c p hc
    obtain ⟨h1', h2', h3'⟩ := hserves c' p' hc'
    rw [h1, h1', h3, h3', ht, hp]
    exact ⟨id, fun _ => h2', id⟩

/-- The thread that `schedule` resumes finds the page and the stack of the process on top. -/
theorem ThreadOk.resumed {p p' : Proc} {q : Pid} {c : Ctl} (hok : ThreadOk p q c)
    (ht : p'.tss = ⟨esp0Of q, kernelDs⟩) (hp : p'.pageDirectory32 = pdeOf q)
    (hw : ∀ pc l, c = .halting pc l → pc.mapped = true → pc.popped = true) :
    EspOk p' c ∧ PageOk p' c ∧ UserPage p' c := by
  cases c with
  | idle => exact hok.elim
  | user r =>
    obtain rfl := (show r = q from hok)
    exact ⟨by simp only [EspOk, ht], trivial, hp⟩
  | reading r x =>
    obtain rfl := (show r = q from hok)
    exact ⟨by simp only [EspOk, ht], trivial, hp⟩
  | waiting r =>
    obtain rfl := (show r = q from hok)
    exact ⟨by simp only [EspOk, ht], trivial, hp⟩
  | halting pc l =>
    obtain ⟨_, hok⟩ := hok
    refine ⟨fun hr d hd => ?_, fun hm d hd => ?_, trivial⟩
    · have hm : pc.mapped = true := by cases pc <;> first | rfl | exact absurd hr (by decide)
      rw [hw pc l rfl hm, if_pos rfl, hd] at hok
      cases hok.1
      rw [ht]
    · rw [hw pc l rfl hm, if_pos rfl, hd] at hok
      cases hok.1
      exact hp
  | finishing fr l =>
    have hok : fr.caller = some q := hok
    refine ⟨fun d hd => ?_, fun d hd => ?_, trivial⟩
    · rw [hok] at hd
      cases hd
      rw [ht]
    · rw [hok] at hd
      cases hd
      exact hp

/-- The stack top that `halt` restores is that of the parent, also for a process that has just been
started: the one that called `execute` was running on it. -/
theorem ContextInv.saved_next (h : ContextInv m A) (hi : StackInv m A) (ho : Orderly img m e)
    (hr : ¬ Reuse img m e) (hs : step img m e = some m') :
    ∀ u q d, q ∈ (stackOp img m e).apply A u → 3 ≤ q.val →
      m'.kern.proc.parentOf q = some d → (m'.kern.proc.pcb q).tssPrevEsp0 = esp0Of d := by
  have hkind := hi.kind ho hs
  intro u q d hq h3 hd
  by_cases hset : SetsUp img m e q
  · obtain ⟨command, esp, ebp, p, rfl, hc, _, hp, _, hl⟩ := hkind.setsUp_spawn hi hr hset hq h3
    have hesp := h.esp
    rw [hc] at hesp
    rw [Proc.parentOf, hl.parentid, if_neg (by omega), hp] at hd
    cases hd
    rw [hl.tssPrevEsp0]
    exact hesp
  · have hk := hkind.kept hset
    have hmem := mem_apply_stackOp hset hq
    rw [Proc.parentOf, hk.parentid] at hd
    rw [hk.tssPrevEsp0]
    exact h.saved u q d hmem h3 hd

theorem ContextInv.next (h : ContextInv m A) (hi : StackInv m A) (ho : Orderly img m e)
    (hr : ¬ Reuse img m e) (hw : ¬ InWindow m e) (hs : step img m e = some m') :
    ContextInv m' ((stackOp img m e).apply A) ∧
      (¬ CopyFails img m e → UserPage m.kern.proc m.ctl → UserPage m'.kern.proc m'.ctl) := by
  have hkind := hi.kind ho hs
  have hnext := hi.next ho hr hs
  have hall := h.saved_next hi ho hr hs
  cases hkind with
  | quiet _ hp hc =>
    obtain ⟨h1, h2, h3⟩ := hc.context hp.tss hp.pageDirectory32
    exact ⟨⟨hall, h1 h.esp, h2 h.page⟩, fun _ => h3⟩
  | still _ heq =>
    subst heq
    exact ⟨⟨hall, h.esp, h.page⟩, fun _ => id⟩
  | start _ _ hl hc =>
    refine ⟨⟨hall, ?_, ?_⟩, fun _ _ => ?_⟩
    · rw [hc, EspOk, hl.tss]
    · rw [hc]
      trivial
    · rw [hc]
      exact hl.pageDirectory32
  | @resume esp ebp t q hn hq hp hth =>
    have hok := hi.table.threads t q _ hq hth
    have hout : ∀ pc l, m'.ctl = .halting pc l → pc.mapped = true → pc.popped = true := by
      intro pc l heq hm
      by_contra hpop
      exact hw ⟨t, pc, l, hn, heq ▸ hth, hm, by simpa using hpop⟩
    obtain ⟨h1, h2, h3⟩ : EspOk m'.kern.proc m'.ctl ∧ PageOk m'.kern.proc m'.ctl ∧
        UserPage m'.kern.proc m'.ctl :=
      ThreadOk.resumed hok (by rw [hp]; rfl) (by rw [hp]; rfl) hout
    exact ⟨⟨hall, h1, h2⟩, fun _ _ => h3⟩
  | spawn hc _ _ _ _ hl hc' =>
    refine ⟨⟨hall, ?_, ?_⟩, fun _ _ => ?_⟩
    · rw [hc', EspOk, hl.tss]
    · rw [hc']
      trivial
    · rw [hc']
      exact hl.pageDirectory32
  | rejected _ _ hp hc =>
    rw [hp, hc]
    exact ⟨⟨hp ▸ hall, hp ▸ hc ▸ h.esp, hp ▸ hc ▸ h.page⟩, fun _ => id⟩
  | @failed command esp ebp p q prog hc _ hf hb hst hc' =>
    obtain ⟨_, _, _, _, htss, _⟩ := prepared_other hst
    have hesp := h.esp
    rw [hc] at hesp
    refine ⟨⟨hall, ?_, ?_⟩, fun hcopy => absurd ⟨q, prog, hf, hb⟩ hcopy⟩
    · rw [hc', EspOk, htss]
      exact hesp
    · rw [hc']
      trivial
  | restart _ _ heq =>
    subst heq
    exact ⟨⟨hall, h.esp, h.page⟩, fun _ => id⟩
  | enter _ _ hk hc =>
    refine ⟨⟨hall, ?_, ?_⟩, fun _ _ => ?_⟩
    · rw [hc]
      exact fun hr' => absurd hr' (by decide)
    · rw [hc]
      exact fun hm => absurd hm (by decide)
    · rw [hc]
      trivial
  | exec hc hx =>
    obtain ⟨h1, h2, h3⟩ := h.exec hi hc hx
    exact ⟨⟨hall, h1, h2⟩, fun _ _ => h3⟩
  | @finish fr l p hc hp hk hc' =>
    have hesp := h.esp
    have hpage := h.page
    rw [hc] at hesp hpage
    refine ⟨⟨hall, ?_, ?_⟩, fun _ _ => ?_⟩
    · rw [hc', hk]
      exact hesp p hp
    · rw [hc']
      trivial
    · rw [hc', hk]
      exact hpage p hp
  | @whole status p hc hx =>
    simp only [DeviceOS.halt, Option.bind_eq_some_iff] at hx
    obtain ⟨⟨k1, c1⟩, he, hrun⟩ := hx
    obtain ⟨rfl, h1, hcase⟩ := hi.haltCall hc he
    have hesp := h.esp
    rw [hc] at hesp
    rcases hcase with ⟨_, rfl⟩ | ⟨_, rfl⟩
    · simp only [runHalt_user_self] at hrun
      have hk : m'.kern = m.kern ∧ m'.ctl = .user p := by
        simp only [Option.some.injEq, Prod.mk.injEq] at hrun
        exact ⟨hrun.1.symm, hrun.2.symm⟩
      refine ⟨⟨hall, ?_, ?_⟩, fun _ => ?_⟩
      · rw [hk.1, hk.2]
        exact hesp
      · rw [hk.2]
        trivial
      · rw [hk.1, hk.2, hc]
        exact id
    · obtain ⟨h2, h3⟩ := ContextInv.runHalt (m := ⟨m.kern, .halting .mapParent _⟩) h1.inv
        ⟨h.saved, fun hr' => absurd hr' (by decide), fun hm => absurd hm (by decide)⟩ trivial hrun
        hnext.inv
      exact ⟨h2, fun _ _ => h3⟩

/-! ## Runs of whole calls -/

/-- The machine context is that of the process of the running terminal. -/
def UserContext (m : Machine) : Prop :=
  ∀ p, m.ctl = .user p → ∃ t, m.kern.proc.terminalProcessIndex = some t ∧
    m.kern.proc.pidArr t = some p ∧ m.kern.proc.pidMask p = true ∧
    m.kern.proc.pageDirectory32 = ⟨2 + p.val, true, true⟩ ∧
    m.kern.proc.tss.esp0 = 0x800000 - 0x2000 * p.val - 4

theorem Calm.not_inWindow (hc : Calm m) (e : Event) : ¬ InWindow m e := by
  cases e with
  | tick esp ebp =>
    rintro ⟨t, pc, l, _, hth, _⟩
    exact hc t _ hth trivial
  | _ => exact not_false

theorem Boot.contextInv (h : Boot m) :
    ContextInv m (fun _ => []) ∧ UserPage m.kern.proc m.ctl := by
  rw [h.idle]
  refine ⟨⟨fun _ _ _ hq => absurd hq (by simp), ?_, ?_⟩, trivial⟩
  · rw [h.idle]
    trivial
  · rw [h.idle]
    trivial

/-- The steps of a run in which, moreover, the copy of a program that was found never fails. -/
def InOrderLoading (img : Image) (m : Machine) (e : Event) : Prop :=
  InOrder img m e ∧ ¬ CopyFails img m e

/-- In every run in which programs are started on the displayed terminal after the three base
shells, and no copy of a program fails, a user program runs in its own page and on its own kernel
stack. -/
theorem user_context (img : Image) (m : Machine)
    (h : Reach (step img) Boot (InOrderLoading img) m) : UserContext m := by
  obtain ⟨A, hi, hx, hu⟩ : ∃ A, StackInv m A ∧ ContextInv m A ∧ UserPage m.kern.proc m.ctl ∧
      Calm m := by
    refine h.inv (I := fun m => ∃ A, StackInv m A ∧ ContextInv m A ∧
      UserPage m.kern.proc m.ctl ∧ Calm m) (fun m hb => ?_) ?_
    · exact ⟨_, hb.stackInv, hb.contextInv.1, hb.contextInv.2, hb.calm⟩
    · rintro m e m' ⟨A, hi, hx, hu, hc⟩ ⟨⟨hw, ho⟩, hcopy⟩ hs
      have hr := hc.not_reuse img e
      obtain ⟨hx', hu'⟩ := hx.next hi ho hr (hc.not_inWindow e) hs
      exact ⟨_, (hi.next ho hr hs).inv, hx', hu' hcopy hu, hi.calm hc hw ho hs⟩
  intro p hp
  obtain ⟨t, ht, htop⟩ := hi.user hp
  refine ⟨t, ht, htop, ?_, ?_, ?_⟩
  · rw [hi.table.mask]
    refine ⟨⟨t, hi.table.linked.top_mem htop⟩, fun u c hth hrel => ?_⟩
    obtain ⟨pc, l, rfl, _⟩ := Ctl.releases_eq_some hrel
    exact hu.2 u _ hth trivial
  · have := hu.1
    rw [hp] at this
    exact this
  · have := hx.esp
    rw [hp] at this
    exact this

theorem user_context_child : ∃ m : Machine, m.ctl = .user 3 ∧ UserContext m := by
  obtain ⟨m, hreach, hprog, _⟩ := reach_child
  exact ⟨m, program_eq_some.mp hprog, user_context disk m (hreach.mono fun _ _ h => h)⟩

/-- The first shell runs `bad`: the call fails, and the shell goes on in the page of process 1. -/
theorem failed_execute_changes_context :
    ¬ ∀ (img : Image) (m : Machine), Reach (step img) Boot (fun _ e => Whole e) m →
      UserContext m := by
  intro h
  obtain ⟨m, prog, hm, hprog, _, hfinds, hbad⟩ := shell_finds_bad
  have hctl := program_eq_some.mp hprog
  obtain ⟨p', hst, heq⟩ := Proc.execute_badBlock m.kern.con.curTerminal ⟨0, 0, some 0⟩
    hfinds hbad
  have hs : step disk m (.execute (some badName) 0 0) =
      some ⟨{ m.kern with proc := p' }, .user 0⟩ := by
    simp [step, call, hctl, syscall, execute, heq]
  have hreach : Reach (step disk) Boot (fun _ e => Whole e) m :=
    Reach.of_run (.init boot_booted) (EventSystem.Allowed.of_forall (by simp [Whole]) _) hm
  obtain ⟨t, _, _, _, hpage, _⟩ :=
    h disk _ (.step hreach (show Whole (.execute (some badName) 0 0) from trivial) hs) 0 rfl
  have hpage' : p'.pageDirectory32 = pdeOf 1 := hst.pageDirectory32
  rw [hpage'] at hpage
  exact absurd hpage (by decide)

end Machine
end DeviceOS
