import DeviceOS.StackHalt

/-!
# DeviceOS.ProcessStacks

The process table as three stacks of processes, one per terminal. `execute` attaches a child to the
displayed terminal, or to the terminal with the number of the child's pid; `halt` and all other
calls work on the terminal that the timer has selected. The table behaves as three stacks as long as
these are the same terminal.

* `processes_form_stacks`: runs in which every program is started on the displayed terminal, after
  the three base shells.
* `execute_attaches_to_displayed`: a run in which a display switch comes between a command and the
  call of `execute`.
-/

namespace DeviceOS

open EventSystem (Reach run)

/-- The process stack of terminal `t`, read from `pid_arr` and the parent links. -/
def Proc.stackOf (p : Proc) (t : Term) : List Pid :=
  match p.pidArr t with
  | none => []
  | some q => parentChain p.parentOf 6 q

namespace Machine

variable {img : Image} {m m' : Machine} {A : Term → List Pid}

theorem StackInv.stackOf (h : StackInv m A) : m.kern.proc.stackOf = A := by
  funext t
  cases ht : m.kern.proc.pidArr t with
  | none => simp [Proc.stackOf, ht, h.table.linked.eq_nil ht]
  | some q =>
    simp only [Proc.stackOf, ht]
    exact h.table.linked.parentChain_eq ht (by simp)

/-- What a successful `execute` by process `p` has to do to the stacks, on terminal `t`. -/
structure Pushes (m m' : Machine) (t : Term) (p c : Pid) : Prop where
  fresh : m.kern.proc.pidMask c = false
  parentid : (m'.kern.proc.pcb c).parentid = some p
  pidArr : m'.kern.proc.pidArr = Function.update m.kern.proc.pidArr t (some c)
  stackOf : m'.kern.proc.stackOf =
    Function.update m.kern.proc.stackOf t (c :: m.kern.proc.stackOf t)

/-- What each event has to do to the stacks. -/
def StackLaw (img : Image) (m m' : Machine) : Event → Prop
  | .tick _ _ =>
    match m.kern.nextTerminal with
    | some t =>
      if m.kern.proc.pidArr t = none then
        m'.kern.proc.stackOf = Function.update m.kern.proc.stackOf t [rootPid t]
      else m'.kern.proc.stackOf = m.kern.proc.stackOf
    | none => m'.kern.proc.stackOf = m.kern.proc.stackOf
  | .execute command esp ebp => ∀ p t, m.ctl = .user p →
    m.kern.proc.terminalProcessIndex = some t →
    match m.kern.proc.execute img m.kern.con.curTerminal command ⟨esp, ebp, some p⟩ with
    | .enter c _ => Pushes m m' t p c
    | _ => m'.kern.proc.stackOf = m.kern.proc.stackOf
  | .halt _ => ∀ p t, m.ctl = .user p → m.kern.proc.terminalProcessIndex = some t →
    m'.kern.proc.stackOf = if p.val < 3 then m.kern.proc.stackOf
      else Function.update m.kern.proc.stackOf t (m.kern.proc.stackOf t).tail
  | _ => m'.kern.proc.stackOf = m.kern.proc.stackOf

/-- The stacks are disjoint, and together they are the pids in use. -/
def Partition (p : Proc) : Prop :=
  (∀ t u q, q ∈ p.stackOf t → q ∈ p.stackOf u → t = u) ∧
    ∀ q, p.pidMask q = true ↔ ∃ t, q ∈ p.stackOf t

/-- The thread is between the entry of `halt` and the return of `execute`. -/
def InHalt : Ctl → Prop
  | .halting _ _ | .finishing _ _ => True
  | _ => False

/-- No `halt` is in progress. -/
def Calm (m : Machine) : Prop := ∀ u c, m.thread u = some c → ¬ InHalt c

theorem Boot.stackInv (h : Boot m) : StackInv m fun _ => [] := by
  have hnone : ∀ t, m.thread t = none := by
    intro t
    rw [thread_of_ne (by rw [h.tpi]; simp), h.pidArr t]
    rfl
  refine ⟨⟨⟨?_, ?_, ?_, ?_⟩, ?_, ?_, ?_, ?_, ?_, ?_⟩, Or.inl ⟨h.tpi, h.pidArr⟩, fun _ => h.idle⟩
  · exact fun t => (h.pidArr t).symm
  · exact fun _ => trivial
  · exact fun _ => List.nodup_nil
  · exact fun _ _ _ hq => absurd hq (by simp)
  · exact fun _ _ hq => absurd hq (by simp)
  · exact fun _ _ hq => absurd hq (by simp)
  · intro q
    simp [h.pidMask q]
  · exact fun _ _ _ hq => absurd hq (by simp)
  · intro t q c hq
    rw [h.pidArr t] at hq
    cases hq
  · intro t c hc
    rw [hnone t] at hc
    cases hc

theorem Boot.calm (h : Boot m) : Calm m := by
  intro t c hc
  rw [thread_of_ne (by rw [h.tpi]; simp), h.pidArr t] at hc
  cases hc

theorem Calm.not_reuse (hc : Calm m) (img : Image) (e : Event) : ¬ Reuse img m e := by
  cases e with
  | execute command esp ebp =>
    rintro ⟨q, prog, _, u, pc, l, hth, _⟩
    exact hc u _ hth trivial
  | _ => exact not_false

theorem serves_calm {c : Ctl} {p : Pid} (h : c.Serves p) : ¬ InHalt c := by
  cases c with
  | halting pc l => exact h.elim
  | finishing fr l => exact h.elim
  | _ => exact not_false

/-- After an event that is one step, the thread that runs is in no `halt`. -/
theorem StackInv.ctl_calm (h : StackInv m A) (hc : Calm m) {e : Event} (hw : Whole e)
    (ho : Orderly img m e) (hs : step img m e = some m') : ¬ InHalt m'.ctl := by
  have hctl : ¬ InHalt m.ctl := by
    by_cases hi : m.ctl = .idle
    · rw [hi]
      exact not_false
    · obtain ⟨t, _, _, _, hth, _⟩ := h.running hi
      exact hc t _ hth
  cases h.kind ho hs with
  | quiet _ _ hsame =>
    rcases hsame with heq | ⟨p, _, hserves⟩
    · rwa [heq]
    · exact serves_calm hserves
  | still _ heq => rwa [heq]
  | start _ _ _ hc' => rw [hc']; exact not_false
  | resume _ _ _ hth => exact hc _ _ hth
  | spawn _ _ _ _ _ _ hc' => rw [hc']; exact not_false
  | rejected _ _ _ hc' => rwa [hc']
  | failed _ _ _ _ _ hc' => rw [hc']; exact not_false
  | restart => exact hw.elim
  | enter => exact hw.elim
  | exec hm => rw [hm] at hctl; exact absurd trivial hctl
  | finish hm => rw [hm] at hctl; exact absurd trivial hctl
  | whole hp hx =>
    obtain ⟨t, ht, _⟩ := h.user hp
    obtain ⟨_, q, heq⟩ := h.halt hp hx ht
    rw [heq]
    exact not_false

theorem StackInv.calm (h : StackInv m A) (hc : Calm m) {e : Event} (hw : Whole e)
    (ho : Orderly img m e) (hs : step img m e = some m') : Calm m' := by
  intro u c hth
  by_cases hu : m'.kern.proc.terminalProcessIndex = some u
  · rw [thread_self hu] at hth
    cases hth
    exact h.ctl_calm hc hw ho hs
  · rw [(h.next ho (hc.not_reuse img e) hs).other u hu] at hth
    exact hc u c hth

/-- With no `halt` in progress, the pids in use are the processes on the stacks. -/
theorem StackInv.partition (h : StackInv m A) (hc : Calm m) : Partition m.kern.proc := by
  rw [Partition, h.stackOf]
  refine ⟨h.table.linked.disjoint, fun q => ?_⟩
  rw [h.table.mask q]
  refine and_iff_left fun t c hth hr => ?_
  obtain ⟨pc, l, rfl, _⟩ := Ctl.releases_eq_some hr
  exact hc t _ hth trivial

/-- The stacks of the machine after an `execute` that starts nothing. -/
theorem keep_of_none {p : Pid} {t : Term} {command : Option CString} {esp ebp : Nat}
    (hA : m.kern.proc.stackOf = A)
    (hA' : m'.kern.proc.stackOf = (stackOp img m (.execute command esp ebp)).apply A)
    (ht : m.kern.proc.terminalProcessIndex = some t)
    (hnone : m.kern.proc.newPid img command = none) :
    match m.kern.proc.execute img m.kern.con.curTerminal command ⟨esp, ebp, some p⟩ with
    | .enter c _ => Pushes m m' t p c
    | _ => m'.kern.proc.stackOf = m.kern.proc.stackOf := by
  simp only [stackOp, hnone, ht, StackOp.apply] at hA'
  split
  · rename_i c proc hx
    obtain ⟨prog, p1, hl, _⟩ := Proc.execute_enter hx
    rw [Proc.newPid_eq_some.mpr ⟨prog, hl⟩] at hnone
    cases hnone
  · rw [hA', hA]

theorem StackInv.stackLaw (h : StackInv m A) (hc : Calm m) {e : Event} (ho : Orderly img m e)
    (hs : step img m e = some m') : StackLaw img m m' e := by
  have h' := h.next ho (hc.not_reuse img e) hs
  have hA := h.stackOf
  have hA' := h'.inv.stackOf
  cases e with
  | tick esp ebp =>
    simp only [StackLaw, stackOp] at hA' ⊢
    split
    · rename_i t hn
      split
      · rename_i he
        simp only [hn, he, if_true, StackOp.apply] at hA'
        rw [hA', hA, h.table.linked.eq_nil he]
      · rename_i he
        simp only [hn, he, if_false, StackOp.apply] at hA'
        rw [hA', hA]
    · rename_i hn
      simp only [hn, StackOp.apply] at hA'
      rw [hA', hA]
  | execute command esp ebp =>
    intro p t hp ht
    obtain ⟨u, hu, htop⟩ := h.user hp
    have hut : u = t := Option.some.inj (hu.symm.trans ht)
    subst hut
    cases h.kind ho hs with
    | quiet hq => exact hq.elim
    | @spawn _ _ _ v p' q hp' hv htop' h3 hnew hl hc' =>
      have huv : v = u := Option.some.inj (hv.symm.trans ht)
      subst huv
      have hpp : p' = p := Ctl.user.inj (hp'.symm.trans hp)
      subst hpp
      obtain ⟨prog, hload⟩ := Proc.newPid_eq_some.mp hnew
      split
      · rename_i c proc hx
        obtain ⟨prog', p1, hload', _⟩ := Proc.execute_enter hx
        obtain rfl := (hload.1.unique hload'.1).1
        refine ⟨Proc.freePid_spec hload.1.freePid, ?_, hl.pidArr, ?_⟩
        · rw [hl.parentid, if_neg (by omega), htop]
        · simp only [stackOp, ht, hnew, StackOp.apply] at hA'
          rw [hA', hA]
      · rename_i hx
        exfalso
        cases step_cases hs with
        | returned _ hx' => exact hload.not_ret hx'
        | entered hp'' hx' =>
          cases Ctl.user.inj (hp''.symm.trans hp)
          exact hx _ _ hx'
    | rejected _ hnone => exact keep_of_none hA hA' ht hnone
    | failed _ hnone => exact keep_of_none hA hA' ht hnone
  | halt status =>
    intro p t hp ht
    obtain ⟨u, hu, hq⟩ := h.user hp
    have hut : u = t := Option.some.inj (hu.symm.trans ht)
    subst hut
    have hcur : m.kern.currPid = some p := by simp [Kernel.currPid, hu, hq]
    rw [hA', hA]
    simp only [stackOp, hu, hcur]
    split <;> rfl
  | go =>
    have hop : stackOp img m .go = .keep := by
      simp only [stackOp, goOp]
      split
      · rename_i l t hctl ht
        exact absurd trivial (hc t (.halting .popPid l) ((thread_self ht).trans (congrArg some hctl)))
      · rfl
    rw [hop] at hA'
    exact hA'.trans hA.symm
  | _ => exact hA'.trans hA.symm

/-- The steps of a run in which every `halt` is one uninterrupted step, and every program is started
by the process of the displayed terminal, under a pid that is not one of the base shells' (3 or
more). A tick that starts a base shell finds one that can be loaded. -/
def InOrder (img : Image) (m : Machine) (e : Event) : Prop := Whole e ∧ Orderly img m e

theorem reach_stackInv (h : Reach (step img) Boot (InOrder img) m) :
    (∃ A, StackInv m A) ∧ Calm m := by
  refine h.inv (I := fun m => (∃ A, StackInv m A) ∧ Calm m) (fun m hb => ?_) ?_
  · exact ⟨⟨_, hb.stackInv⟩, hb.calm⟩
  · rintro m e m' ⟨⟨A, hi⟩, hc⟩ ⟨hw, ho⟩ hs
    exact ⟨⟨_, (hi.next ho (hc.not_reuse img e) hs).inv⟩, hi.calm hc hw ho hs⟩

/-- In every run in which programs are started on the displayed terminal after the three base
shells, the process table is three disjoint stacks, and every step changes them as the law says. -/
theorem processes_form_stacks (img : Image) (m : Machine)
    (h : Reach (step img) Boot (InOrder img) m) :
    Partition m.kern.proc ∧
      ∀ e m', InOrder img m e → step img m e = some m' → StackLaw img m m' e := by
  obtain ⟨⟨A, hi⟩, hc⟩ := reach_stackInv h
  exact ⟨hi.partition hc, fun e m' ho hs => hi.stackLaw hc ho.2 hs⟩

theorem shellLoads_disk : ShellLoads disk := by
  have h : ((findProgram disk shellName).toOption.join.map fun prog =>
      disk.badBlock (disk.inodes prog.inode)) = some false := by
    decide +kernel
  obtain ⟨prog, hprog, hb⟩ := Option.map_eq_some_iff.mp h
  exact ⟨prog, Proc.eq_ok_of_join hprog, hb⟩

/-- The three base shells start, and the first one runs a program. -/
theorem reach_child : ∃ m, Reach (step disk) Boot
    (fun m e => InOrder disk m e ∧ ¬ CopyFails disk m e) m ∧ m.program = some 3 ∧
      m.kern.proc.stackOf 0 = [3, 0] := by
  have hrun : (run (step disk) booted (List.replicate 4 (.tick 0 0))).map (fun m =>
      (m.kern.proc.terminalProcessIndex, m.kern.con.curTerminal,
        m.kern.proc.newPid disk (some catName))) = some (some 0, 0, some 3) := by
    decide +kernel
  obtain ⟨m, hm, hp⟩ := Option.map_eq_some_iff.mp hrun
  simp only [Prod.mk.injEq] at hp
  obtain ⟨htpi, hcur, hnew⟩ := hp
  have hstep : (run (step disk) booted
      (List.replicate 4 (.tick 0 0) ++ [.execute (some catName) 0 0])).map
      (fun m => (m.program, m.kern.proc.stackOf 0)) = some (some 3, [3, 0]) := by
    decide +kernel
  obtain ⟨m', hm', hp⟩ := Option.map_eq_some_iff.mp hstep
  obtain ⟨m1, hm1, hm'⟩ := EventSystem.run_append.mp hm'
  rw [hm] at hm1
  cases hm1
  obtain ⟨m2, hs, hm'⟩ := EventSystem.run_cons.mp hm'
  cases hm'
  have hticks : Reach (step disk) Boot (fun m e => InOrder disk m e ∧ ¬ CopyFails disk m e) m := by
    refine Reach.of_run (.init boot_booted) (EventSystem.Allowed.of_forall ?_ _) hm
    intro e he s
    rw [List.eq_of_mem_replicate he]
    exact ⟨⟨trivial, fun _ _ _ => shellLoads_disk⟩, not_false⟩
  have horder : InOrder disk m (.execute (some catName) 0 0) := by
    refine ⟨trivial, fun q hq => ?_⟩
    rw [hnew] at hq
    cases hq
    exact ⟨by rw [htpi, hcur], by decide⟩
  have hcopy : ¬ CopyFails disk m (.execute (some catName) 0 0) := by
    rintro ⟨q, prog, hf, hb⟩
    obtain ⟨prog', hl⟩ := Proc.newPid_eq_some.mp hnew
    rw [(hf.unique hl.1).2, hl.2] at hb
    cases hb
  exact ⟨m', .step hticks ⟨horder, hcopy⟩ hs, Prod.mk.inj hp⟩

theorem processes_form_stacks_child :
    ∃ m : Machine, m.kern.proc.stackOf 0 = [3, 0] ∧ Partition m.kern.proc := by
  obtain ⟨m, hreach, _, hstack⟩ := reach_child
  exact ⟨m, hstack, (processes_form_stacks disk m (hreach.mono fun _ _ h => h.1)).1⟩

/-- Three base shells run; Alt-F2 is pressed before the shell of the first terminal calls
`execute`. -/
def switchedAway : List Event :=
  [.tick 0 0, .tick 0 0, .tick 0 0, .tick 0 0, .key 1 0x38, .key 1 0x3C]

/-- The child is attached to the second terminal, and its parent is the shell there. -/
theorem execute_attaches_to_displayed :
    ¬ ∀ (img : Image) (m : Machine), Reach (step img) Boot (fun _ e => Whole e) m →
      Partition m.kern.proc ∧
        ∀ e m', Whole e → step img m e = some m' → StackLaw img m m' e := by
  intro h
  have hrun : (run (step disk) booted switchedAway).map (fun m =>
      (m.program, m.kern.proc.terminalProcessIndex, m.kern.proc.newPid disk (some catName),
        m.kern.proc.pidArr 0)) = some (some 0, some 0, some 3, some 0) := by
    decide +kernel
  obtain ⟨m, hm, hp⟩ := Option.map_eq_some_iff.mp hrun
  simp only [Prod.mk.injEq, program_eq_some] at hp
  obtain ⟨hctl, htpi, hnew, harr⟩ := hp
  have hstep : (run (step disk) booted (switchedAway ++ [.execute (some catName) 0 0])).map
      (fun m => m.kern.proc.pidArr 0) = some (some 0) := by
    decide +kernel
  obtain ⟨m', hm', harr'⟩ := Option.map_eq_some_iff.mp hstep
  obtain ⟨m1, hm1, hm'⟩ := EventSystem.run_append.mp hm'
  rw [hm] at hm1
  cases hm1
  obtain ⟨m2, hs, hm'⟩ := EventSystem.run_cons.mp hm'
  cases hm'
  have hreach : Reach (step disk) Boot (fun _ e => Whole e) m := by
    refine Reach.of_run (.init boot_booted) (EventSystem.Allowed.of_forall ?_ _) hm
    intro e he s
    simp only [switchedAway, List.mem_cons, List.not_mem_nil, or_false] at he
    rcases he with rfl | rfl | rfl | rfl | rfl | rfl <;> trivial
  have hlaw := (h disk m hreach).2 (.execute (some catName) 0 0) m' trivial hs 0 0 hctl htpi
  obtain ⟨prog, hl⟩ := Proc.newPid_eq_some.mp hnew
  rcases Proc.execute_cases disk m.kern.con.curTerminal m.kern.proc (some catName)
    ⟨0, 0, some 0⟩ with ⟨h1, _⟩ | ⟨f, h1⟩ | ⟨_, _, _, _, _, _, h1⟩ | ⟨q, _, _, hl', _, h1⟩
  · exact hl.not_ret h1
  · simp [step, call, hctl, syscall, Machine.execute, h1] at hs
  · exact hl.not_ret h1
  · rw [h1] at hlaw
    have h0 := congrFun hlaw.pidArr 0
    rw [harr', Function.update_self, ← (hl.1.unique hl'.1).1] at h0
    exact absurd h0 (by decide)

end Machine
end DeviceOS
