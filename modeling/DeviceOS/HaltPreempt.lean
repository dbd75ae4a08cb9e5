import DeviceOS.ProcessContext

/-!
# DeviceOS.HaltPreempt

`halt` with the timer between its statements. Vector 0x80 is a trap gate and `halt` never disables
interrupts, so a tick can suspend it anywhere; `schedule` then switches by `pid_arr`, and the other
terminals run, halt and execute in between.

* `Trace`: what happened so far: for each process the call of `execute` that started it, and for each
  terminal the call that the `halt` in progress there returns from, with the status it was given.
* `PendingInv.next`: every event keeps the agreement of the trace with the PCBs and the threads.
* `halt_restores_parent`: the parent gets back its page, its kernel stack, its place in `pid_arr` and
  its frame, if no tick resumes `halt` in the window between mapping the parent and leaving the
  child's stack (`InWindow`).
-/

namespace DeviceOS

open EventSystem (Reach run withHistory)

/-- A call of `execute` that started a program: the terminal it was made on, ESP0 at that time, and
the registers it saved. -/
structure Call where
  term : Term
  esp0 : Nat
  frame : Frame

/-- `made q`: the call that started process `q`. `pending t`: the call that started the process whose
`halt` was last begun on terminal `t`, and the status passed to that `halt`. -/
structure Trace where
  made : Pid → Option Call
  pending : Term → Option (Call × UInt8)

namespace Trace

def empty : Trace := ⟨fun _ => none, fun _ => none⟩

def record (img : Image) (m : Machine) (e : Event) (tr : Trace) : Trace :=
  match e with
  | .execute command esp ebp =>
    match m.program, m.kern.proc.terminalProcessIndex, m.kern.proc.newPid img command with
    | some p, some t, some q =>
      let call : Call := ⟨t, m.kern.proc.tss.esp0, ⟨esp, ebp, some p⟩⟩
      { tr with made := Function.update tr.made q (some call) }
    | _, _, _ => tr
  | .haltCall status =>
    match m.kern.proc.terminalProcessIndex, m.kern.currPid with
    | some t, some q =>
      { tr with pending := Function.update tr.pending t ((tr.made q).map fun c => (c, status)) }
    | _, _ => tr
  | _ => tr

end Trace

/-- ESP0 of a call is that of the process that made it. -/
def Call.Saved (c : Call) : Prop := ∀ p, c.frame.caller = some p → c.esp0 = esp0Of p

structure Trace.Saved (tr : Trace) : Prop where
  made : ∀ q c, tr.made q = some c → c.Saved
  pending : ∀ t c status, tr.pending t = some (c, status) → c.Saved

/-- Only the jump to `finish_execute` leaves the statements of `halt` with a frame. -/
theorem HaltPc.exec_finishing {pc : HaltPc} {l l' : HaltLocals} {k k' : Kernel} {fr : Frame}
    (h : pc.exec l k = some (k', .finishing fr l')) :
    pc = .jump ∧ l' = l ∧ k' = k ∧ fr = (k.proc.pcb l.currPid).prev := by
  cases pc with
  | jump => cases h; exact ⟨rfl, rfl, rfl, rfl⟩
  | mapParent =>
    simp only [exec] at h
    split at h <;> cases h
  | closeFds i =>
    obtain ⟨r, _, heq⟩ := Option.map_eq_some_iff.mp h
    cases heq
  | typing =>
    obtain ⟨r, _, heq⟩ := Option.map_eq_some_iff.mp h
    cases heq
  | popPid =>
    obtain ⟨r, _, heq⟩ := Option.map_eq_some_iff.mp h
    cases heq
  | _ => cases h

namespace Machine

variable {img : Image} {m m' : Machine} {A : Term → List Pid} {t : Term} {q : Pid} {e : Event}
  {tr : Trace}

/-- The machine with its trace. -/
def tracedStep (img : Image) : Machine × Trace → Event → Option (Machine × Trace) :=
  withHistory (step img) (Trace.record img)

def TracedBoot (s : Machine × Trace) : Prop := Boot s.1 ∧ s.2 = .empty

/-- `halt` runs statement by statement. -/
def Split : Event → Prop
  | .halt _ => False
  | _ => True

/-! ## The calls that a `halt` returns from -/

/-- The trace knows the call that the thread `c` of terminal `u` is going to return from. -/
def PendingOk (tr : Trace) (p : Proc) (u : Term) : Ctl → Prop
  | .halting _ l => ∃ call, tr.pending u = some (call, l.status) ∧ call.term = u ∧
    call.frame = (p.pcb l.currPid).prev
  | .finishing fr l => ∃ call, tr.pending u = some (call, l.status) ∧ call.term = u ∧ call.frame = fr
  | _ => True

structure PendingInv (tr : Trace) (m : Machine) (A : Term → List Pid) : Prop where
  made : ∀ t q, q ∈ A t → 3 ≤ q.val →
    ∃ call, tr.made q = some call ∧ call.term = t ∧ call.frame = (m.kern.proc.pcb q).prev
  pending : ∀ u c, m.thread u = some c → PendingOk tr m.kern.proc u c

theorem PendingOk.of_calm {p : Proc} {u : Term} {c : Ctl} (h : ¬ InHalt c) : PendingOk tr p u c := by
  cases c with
  | halting pc l => exact absurd trivial h
  | finishing fr l => exact absurd trivial h
  | _ => trivial

theorem PendingOk.congr {tr' : Trace} {p p' : Proc} {u : Term} {c : Ctl} (h : PendingOk tr p u c)
    (ht : tr'.pending u = tr.pending u)
    (hp : ∀ pc l, c = .halting pc l → (p'.pcb l.currPid).prev = (p.pcb l.currPid).prev) :
    PendingOk tr' p' u c := by
  cases c with
  | halting pc l =>
    obtain ⟨call, h1, h2, h3⟩ := h
    exact ⟨call, ht.trans h1, h2, h3.trans (hp pc l rfl).symm⟩
  | finishing fr l =>
    obtain ⟨call, h1, h2, h3⟩ := h
    exact ⟨call, ht.trans h1, h2, h3⟩
  | _ => trivial

theorem Trace.record_made (hq : ¬ SetsUp img m e q) : (tr.record img m e).made q = tr.made q := by
  cases e with
  | execute command esp ebp =>
    simp only [Trace.record]
    split
    · rename_i p t r _ _ hr
      have hne : q ≠ r := by
        rintro rfl
        obtain ⟨prog, hl⟩ := Proc.newPid_eq_some.mp hr
        exact hq ⟨prog, hl.1⟩
      exact Function.update_of_ne hne ..
    · rfl
  | haltCall status =>
    simp only [Trace.record]
    split <;> rfl
  | _ => rfl

theorem Trace.record_pending {u : Term} (h : ∀ status, e ≠ .haltCall status) :
    (tr.record img m e).pending u = tr.pending u := by
  cases e with
  | execute command esp ebp =>
    simp only [Trace.record]
    split <;> rfl
  | haltCall status => exact absurd rfl (h status)
  | _ => rfl

theorem Trace.record_pending_of_ne {u : Term}
    (h : m.kern.proc.terminalProcessIndex ≠ some u) :
    (tr.record img m e).pending u = tr.pending u := by
  cases e with
  | execute command esp ebp =>
    simp only [Trace.record]
    split <;> rfl
  | haltCall status =>
    simp only [Trace.record]
    split
    · rename_i t q ht _
      have hne : u ≠ t := by
        rintro rfl
        exact h ht
      exact Function.update_of_ne hne ..
    · rfl
  | _ => rfl

/-- A `halt` in progress keeps its PCB. -/
theorem StackInv.halting_not_setsUp (h : StackInv m A) (hr : ¬ Reuse img m e) {pc : HaltPc}
    {l : HaltLocals} (hc : m.thread t = some (.halting pc l)) : ¬ SetsUp img m e l.currPid := by
  intro hset
  cases e with
  | tick esp ebp =>
    obtain ⟨u, _, _, heq⟩ := hset
    have h3 := h.halting_pid hc
    rw [heq] at h3
    simp only [rootPid] at h3
    omega
  | execute command esp ebp =>
    obtain ⟨prog, hf⟩ := hset
    exact hr ⟨_, prog, hf, t, pc, l, hc, rfl⟩
  | _ => exact hset.elim

/-- A step switches terminals only when it is a tick. -/
theorem StepKind.tpi (h : StepKind img m m' e) (hsplit : Split e) :
    m'.kern.proc.terminalProcessIndex = m.kern.proc.terminalProcessIndex ∨
      ∃ esp ebp, e = .tick esp ebp := by
  cases h with
  | quiet _ hp => exact Or.inl hp.terminalProcessIndex
  | still | start | resume => exact Or.inr ⟨_, _, rfl⟩
  | spawn _ _ _ _ _ hl => exact Or.inl hl.terminalProcessIndex
  | rejected _ _ hp => exact Or.inl (by rw [hp])
  | failed _ _ _ _ hst =>
    obtain ⟨_, _, _, _, _, htpi, _⟩ := prepared_other hst
    exact Or.inl htpi
  | restart _ _ heq => exact Or.inl (by rw [heq])
  | enter _ _ hk => exact Or.inl (by rw [hk])
  | exec _ hx => exact Or.inl (HaltPc.exec_con hx).2
  | finish _ _ hk => exact Or.inl (by rw [hk])
  | whole => exact hsplit.elim

/-- The thread that runs after a step: it was there before, it has just entered `halt`, it is in the
same `halt` one statement further, or it is in a program. -/
theorem StepKind.thread_cases (h : StepKind img m m' e) (hi : StackInv m A) (hsplit : Split e)
    (ht : m'.kern.proc.terminalProcessIndex = some t) :
    m.thread t = some m'.ctl ∨
    (∃ status p, e = .haltCall status ∧ m.ctl = .user p ∧ 3 ≤ p.val ∧ m'.kern = m.kern ∧
      m'.ctl = .halting .mapParent ⟨p, m.kern.proc.parentOf p, status⟩) ∨
    (∃ pc l, e = .go ∧ m.ctl = .halting pc l ∧ m.thread t = some (.halting pc l) ∧
      pc.exec l m.kern = some (m'.kern, m'.ctl)) ∨
    ∃ p, m'.ctl.Serves p := by
  cases h with
  | quiet _ hp hc =>
    rcases hc with hc | ⟨p, _, hc⟩
    · rw [hp.terminalProcessIndex] at ht
      exact Or.inl ((thread_self ht).trans (by rw [hc]))
    · exact Or.inr (Or.inr (Or.inr ⟨p, hc⟩))
  | still _ heq =>
    subst heq
    exact Or.inl (thread_self ht)
  | start _ _ _ hc => exact Or.inr (Or.inr (Or.inr ⟨_, by rw [hc]; rfl⟩))
  | resume _ _ hp hth =>
    rw [hp] at ht
    cases ht
    exact Or.inl hth
  | spawn _ _ _ _ _ _ hc => exact Or.inr (Or.inr (Or.inr ⟨_, by rw [hc]; rfl⟩))
  | rejected _ _ hp hc =>
    rw [hp] at ht
    exact Or.inl ((thread_self ht).trans (by rw [hc]))
  | failed _ _ _ _ _ hc => exact Or.inr (Or.inr (Or.inr ⟨_, by rw [hc]; rfl⟩))
  | restart _ _ heq =>
    subst heq
    exact Or.inl (thread_self ht)
  | enter hc h3 hk hc' => exact Or.inr (Or.inl ⟨_, _, rfl, hc, h3, hk, hc'⟩)
  | exec hc hx =>
    rw [(HaltPc.exec_con hx).2] at ht
    exact Or.inr (Or.inr (Or.inl ⟨_, _, rfl, hc, (thread_self ht).trans (by rw [hc]), hx⟩))
  | finish _ _ _ hc => exact Or.inr (Or.inr (Or.inr ⟨_, by rw [hc]; rfl⟩))
  | whole => exact hsplit.elim

theorem PendingInv.next (h : PendingInv tr m A) (hi : StackInv m A) (hsplit : Split e)
    (ho : Orderly img m e) (hr : ¬ Reuse img m e) (hs : step img m e = some m') :
    PendingInv (tr.record img m e) m' ((stackOp img m e).apply A) := by
  have hkind := hi.kind ho hs
  have hnext := hi.next ho hr hs
  have hprev : ∀ {u : Term} {pc : HaltPc} {l : HaltLocals}, m.thread u = some (.halting pc l) →
      (m'.kern.proc.pcb l.currPid).prev = (m.kern.proc.pcb l.currPid).prev := fun hth =>
    (hkind.kept (hi.halting_not_setsUp hr hth)).prev
  have hold : ∀ u c, m.thread u = some c → (∀ status, e ≠ .haltCall status) ∨
      m.kern.proc.terminalProcessIndex ≠ some u →
      PendingOk (tr.record img m e) m'.kern.proc u c := by
    rintro u c hth hcase
    refine (h.pending u c hth).congr ?_ fun pc l heq => hprev (heq ▸ hth)
    rcases hcase with hne | hne
    · exact Trace.record_pending hne
    · exact Trace.record_pending_of_ne hne
  refine ⟨fun u q hq h3 => ?_, fun u c hth => ?_⟩
  · by_cases hset : SetsUp img m e q
    · obtain ⟨command, esp, ebp, p, rfl, hc, ht, _, hnew, hl⟩ :=
        hkind.setsUp_spawn hi hr hset hq h3
      have hrec : (tr.record img m (.execute command esp ebp)).made =
          Function.update tr.made q (some ⟨u, m.kern.proc.tss.esp0, ⟨esp, ebp, some p⟩⟩) := by
        simp only [Trace.record, program_eq_some.mpr hc, ht, hnew]
      exact ⟨_, by rw [hrec, Function.update_self], rfl, hl.prev.symm⟩
    · obtain ⟨call, h1, h2, h3⟩ := h.made u q (mem_apply_stackOp hset hq) h3
      exact ⟨call, (Trace.record_made hset).trans h1, h2, h3.trans (hkind.kept hset).prev.symm⟩
  · by_cases hu : m'.kern.proc.terminalProcessIndex = some u
    · have hctl : c = m'.ctl := Option.some.inj (hth.symm.trans (thread_self hu))
      subst hctl
      rcases hkind.thread_cases hi hsplit hu with hth' | ⟨status, p, rfl, hc, h3, hk, hc'⟩ |
        ⟨pc, l, rfl, _, hth', hx⟩ | ⟨p, hp⟩
      · by_cases hcall : ∃ status, e = .haltCall status
        · -- an old thread that has just called `halt` is a base shell, which starts again
          obtain ⟨status, rfl⟩ := hcall
          cases hkind with
          | quiet hq => exact hq.elim
          | restart hc _ heq =>
            rw [heq, hc]
            trivial
          | enter hc _ hk hc' =>
            rw [hk] at hu
            rw [thread_self hu, hc, hc'] at hth'
            cases hth'
        · exact hold u _ hth' (Or.inl fun status heq => hcall ⟨status, heq⟩)
      · -- entering `halt`: the trace knows the call that started this process
        rw [hk] at hu
        obtain ⟨v, hv, htop⟩ := hi.user hc
        have huv : v = u := Option.some.inj (hv.symm.trans hu)
        subst huv
        obtain ⟨call, h1, h2, h3⟩ := h.made v p (hi.table.linked.top_mem htop) h3
        have hcur : m.kern.currPid = some p := by simp [Kernel.currPid, hv, htop]
        rw [hc', hk]
        refine ⟨call, ?_, h2, h3⟩
        simp only [Trace.record, hv, hcur, Function.update_self, h1, Option.map_some]
      · obtain ⟨call, h1, h2, h3⟩ := hold u _ hth' (Or.inl (by simp))
        rcases HaltPc.exec_next hx with ⟨p, hp⟩ | ⟨fr, hp⟩ | ⟨pc', hp, _⟩
        · rw [hp]
          trivial
        · have hjump := (HaltPc.exec_finishing (hp ▸ hx)).2.2.2
          rw [hp]
          exact ⟨call, h1, h2, by rw [h3, hjump, hprev hth']⟩
        · rw [hp]
          exact ⟨call, h1, h2, h3⟩
      · exact PendingOk.of_calm (serves_calm hp)
    · rw [hnext.other u hu] at hth
      refine hold u c hth ?_
      rcases hkind.tpi hsplit with heq | ⟨esp, ebp, rfl⟩
      · exact Or.inr (heq ▸ hu)
      · exact Or.inl (by simp)

theorem TracedBoot.pendingInv {s : Machine × Trace} (h : TracedBoot s) :
    PendingInv s.2 s.1 (fun _ => []) := by
  refine ⟨fun _ _ hq => absurd hq (by simp), fun u c hth => ?_⟩
  rw [thread_of_ne (by rw [h.1.tpi]; simp), h.1.pidArr u] at hth
  cases hth

theorem Trace.saved_empty : Trace.empty.Saved := by
  refine ⟨fun q c h => ?_, fun t c status h => ?_⟩
  · cases h
  · cases h

theorem Trace.Saved.record (h : tr.Saved) (hesp : EspOk m.kern.proc m.ctl) :
    (tr.record img m e).Saved := by
  cases e with
  | execute command esp ebp =>
    simp only [Trace.record]
    split
    · rename_i p t q hp _ _
      refine ⟨fun r c hc => ?_, h.pending⟩
      by_cases hr : r = q
      · subst hr
        simp only [Function.update_self] at hc
        cases hc
        intro d hd
        cases hd
        rw [program_eq_some.mp hp] at hesp
        exact hesp
      · simp only [Function.update_of_ne hr] at hc
        exact h.made r c hc
    · exact h
  | haltCall status =>
    simp only [Trace.record]
    split
    · rename_i t q _ _
      refine ⟨h.made, fun u c status' hc => ?_⟩
      by_cases hu : u = t
      · subst hu
        simp only [Function.update_self] at hc
        obtain ⟨c', hc', heq⟩ := Option.map_eq_some_iff.mp hc
        cases heq
        exact h.made q c hc'
      · simp only [Function.update_of_ne hu] at hc
        exact h.pending u c status' hc
    · exact h
  | _ => exact h

/-! ## Runs with `halt` in statements -/

/-- Control is back in the process that made the call of `execute`. -/
def ParentRestored (s : Machine × Trace) (fr : Frame) (m' : Machine) : Prop :=
  ∃ t p call status, s.1.kern.proc.terminalProcessIndex = some t ∧
    s.2.pending t = some (call, status) ∧ call.term = t ∧ call.frame.caller = some p ∧
    m'.ctl = .user p ∧ m'.kern.proc.pageDirectory32 = ⟨2 + p.val, true, true⟩ ∧
    m'.kern.proc.tss.esp0 = call.esp0 ∧ m'.kern.proc.pidArr t = some p ∧ fr = call.frame

/-- The steps of a run in which `halt` runs statement by statement. Programs are started on the
displayed terminal, and not under the pid of a process that is still in `halt`. -/
structure Preemptible (img : Image) (m : Machine) (e : Event) : Prop where
  split : Split e
  orderly : Orderly img m e
  not_reuse : ¬ Reuse img m e

/-- A run of such steps keeps the stacks and the trace in agreement. -/
theorem reach_pending {s : Machine × Trace}
    (h : Reach (tracedStep img) TracedBoot (fun s e => Preemptible img s.1 e) s) :
    ∃ A, StackInv s.1 A ∧ PendingInv s.2 s.1 A := by
  refine h.inv (I := fun s => ∃ A, StackInv s.1 A ∧ PendingInv s.2 s.1 A) (fun s hb => ?_) ?_
  · exact ⟨_, hb.1.stackInv, hb.pendingInv⟩
  · rintro s e s' ⟨A, hi, hp⟩ hok hs
    obtain ⟨hs, htr⟩ := EventSystem.withHistory_eq_some.mp hs
    exact ⟨_, (hi.next hok.orderly hok.not_reuse hs).inv,
      htr ▸ hp.next hi hok.split hok.orderly hok.not_reuse hs⟩

theorem reach_context {s : Machine × Trace} (h : Reach (tracedStep img) TracedBoot
    (fun s e => Preemptible img s.1 e ∧ ¬ InWindow s.1 e) s) :
    (∃ A, StackInv s.1 A ∧ ContextInv s.1 A) ∧ s.2.Saved := by
  refine h.inv (I := fun s => (∃ A, StackInv s.1 A ∧ ContextInv s.1 A) ∧ s.2.Saved)
    (fun s hb => ?_) ?_
  · exact ⟨⟨_, hb.1.stackInv, hb.1.contextInv.1⟩, hb.2 ▸ Trace.saved_empty⟩
  · rintro s e s' ⟨⟨A, hi, hx⟩, hsaved⟩ ⟨hok, hw⟩ hs
    obtain ⟨hs, htr⟩ := EventSystem.withHistory_eq_some.mp hs
    exact ⟨⟨_, (hi.next hok.orderly hok.not_reuse hs).inv,
      (hx.next hi hok.orderly hok.not_reuse hw hs).1⟩, htr ▸ Trace.Saved.record hsaved hx.esp⟩

/-- In every run in which no tick resumes a `halt` inside the window, `halt` gives the parent back
what it had when it called `execute`. -/
theorem halt_restores_parent (img : Image) (s : Machine × Trace)
    (h : Reach (tracedStep img) TracedBoot
      (fun s e => Preemptible img s.1 e ∧ ¬ InWindow s.1 e) s)
    {fr : Frame} {l : HaltLocals} {m' : Machine} (hc : s.1.ctl = .finishing fr l)
    (hs : step img s.1 .go = some m') : ParentRestored s fr m' := by
  obtain ⟨A, hi, hpend⟩ := reach_pending (h.mono fun _ _ h => h.1)
  obtain ⟨⟨A', hi', hx⟩, hsaved⟩ := reach_context h
  obtain ⟨t, q, ht, hq, hth, hok⟩ := hi.running (by rw [hc]; simp)
  rw [hc] at hok hth
  have hcaller : fr.caller = some q := hok
  obtain ⟨call, h1, h2, h3⟩ := hpend.pending t _ hth
  have hesp := hx.esp
  have hpage := hx.page
  rw [hc] at hesp hpage
  cases hi.kind (show Orderly img s.1 .go from trivial) hs with
  | quiet hquiet =>
    obtain ⟨p, hctl⟩ := hquiet
    rw [hc] at hctl
    exact hctl.elim
  | exec hctl =>
    rw [hc] at hctl
    cases hctl
  | finish hctl hp hk hc' =>
    rw [hc] at hctl
    cases hctl
    obtain rfl := Option.some.inj (hp.symm.trans hcaller)
    refine ⟨t, _, call, l.status, ht, h1, h2, h3 ▸ hp, hc', ?_, ?_, ?_, h3.symm⟩
    · rw [hk]
      exact hpage _ hp
    · rw [hk, hesp _ hp]
      exact (hsaved.pending t call _ h1 _ (h3 ▸ hp)).symm
    · rw [hk]
      exact hq

instance : DecidablePred InHalt
  | .idle => inferInstanceAs (Decidable False)
  | .user _ => inferInstanceAs (Decidable False)
  | .halting _ _ => inferInstanceAs (Decidable True)
  | .finishing _ _ => inferInstanceAs (Decidable True)
  | .reading _ _ => inferInstanceAs (Decidable False)
  | .waiting _ => inferInstanceAs (Decidable False)

instance (m : Machine) : Decidable (Calm m) :=
  inferInstanceAs (Decidable (∀ u, ∀ c ∈ m.thread u, ¬ InHalt c))

/-- A test for events of a run on `disk`: programs start on the displayed terminal, while no `halt`
is in progress. -/
def startsInOrder (m : Machine) : Event → Bool
  | .execute command _ _ => decide (Calm m) && match m.kern.proc.newPid disk command with
    | some q => decide (m.kern.proc.terminalProcessIndex = some m.kern.con.curTerminal ∧ 3 ≤ q.val)
    | none => true
  | .halt _ => false
  | _ => true

theorem preemptible_of_startsInOrder (h : startsInOrder m e = true) : Preemptible disk m e := by
  cases e with
  | execute command esp ebp =>
    simp only [startsInOrder, Bool.and_eq_true, decide_eq_true_eq] at h
    refine ⟨trivial, fun q hq => ?_, h.1.not_reuse disk _⟩
    simpa [hq] using h.2
  | tick esp ebp => exact ⟨trivial, fun _ _ _ => shellLoads_disk, not_false⟩
  | halt status => cases h
  | _ => exact ⟨trivial, trivial, not_false⟩

/-- The run of a list of events on `disk`, if it passes a test. -/
def testRun (test : Machine → Event → Bool) (es : List Event) : Option (Machine × Trace) :=
  run (fun s e => if test s.1 e then tracedStep disk s e else none) (booted, .empty) es

/-- Every tick comes while no `halt` is in progress. -/
def calmTicks (m : Machine) (e : Event) : Bool :=
  startsInOrder m e && match e with
    | .tick _ _ => decide (Calm m)
    | _ => true

/-- Three base shells start, and the shells of the first two terminals run `cat`. -/
def twoPrograms : List Event :=
  [.tick 0 0, .tick 0 0, .tick 0 0, .key 1 0x38, .key 1 0x3C, .tick 0 0,
    .execute (some catName) 0 0, .key 1 0x3B, .tick 0 0, .execute (some catName) 0 0]

/-- Where a run that ends at `finish_execute` returns to. -/
def finishingAt (s : Machine × Trace) : Option (Frame × HaltLocals) :=
  match s.1.ctl with
  | .finishing fr l => some (fr, l)
  | _ => none

theorem ctl_of_finishingAt {s : Machine × Trace} {fr : Frame} {l : HaltLocals}
    (h : finishingAt s = some (fr, l)) : s.1.ctl = .finishing fr l := by
  simp only [finishingAt] at h
  split at h
  · rename_i fr' l' hc
    cases h
    exact hc
  · cases h

theorem halt_restores_parent_cat : ∃ s m', s.1.ctl = .finishing ⟨0, 0, some 0⟩ ⟨4, some 0, 7⟩ ∧
    step disk s.1 .go = some m' ∧ ParentRestored s ⟨0, 0, some 0⟩ m' := by
  have hrun : (testRun calmTicks (twoPrograms ++ .haltCall 7 :: List.replicate 15 .go)).map
      finishingAt = some (some (⟨0, 0, some 0⟩, ⟨4, some 0, 7⟩)) := by
    decide +kernel
  obtain ⟨s, hs, hf⟩ := Option.map_eq_some_iff.mp hrun
  have hc := ctl_of_finishingAt hf
  refine ⟨s, ⟨s.1.kern, .user 0⟩, hc, by simp [step, call, hc, go, finishExecute], ?_⟩
  refine halt_restores_parent disk s ?_ hc (by simp [step, call, hc, go, finishExecute])
  refine Reach.of_checked (fun s e h => ?_) (.init ⟨boot_booted, rfl⟩) hs
  simp only [calmTicks, Bool.and_eq_true] at h
  refine ⟨preemptible_of_startsInOrder h.1, ?_⟩
  cases e with
  | tick esp ebp =>
    exact Calm.not_inWindow (of_decide_eq_true h.2) (.tick esp ebp)
  | _ => exact not_false

/-- The tick comes right after `map_program_mem(pid_temp)`. When `halt` goes on, the page of the
halted process is mapped again, and the parent keeps it. -/
theorem tick_in_halt_remaps_child :
    ¬ ∀ (img : Image) (s : Machine × Trace),
      Reach (tracedStep img) TracedBoot (fun s e => Preemptible img s.1 e) s →
      ∀ fr l m', s.1.ctl = .finishing fr l → step img s.1 .go = some m' →
        ParentRestored s fr m' := by
  intro h
  have hrun : (testRun startsInOrder (twoPrograms ++
      [.haltCall 7, .go, .tick 0 0, .tick 0 0] ++ List.replicate 14 .go)).map
      (fun s => (finishingAt s, s.1.kern.proc.pageDirectory32)) =
        some (some (⟨0, 0, some 0⟩, ⟨4, some 0, 7⟩), pdeOf 4) := by
    decide +kernel
  obtain ⟨s, hs, hf⟩ := Option.map_eq_some_iff.mp hrun
  simp only [Prod.mk.injEq] at hf
  have hc := ctl_of_finishingAt hf.1
  obtain ⟨t, p, call, status, _, _, _, _, hp, hpage, _⟩ := h disk s
    (Reach.of_checked (fun _ _ => preemptible_of_startsInOrder) (.init ⟨boot_booted, rfl⟩) hs)
    _ _ ⟨s.1.kern, .user 0⟩ hc (by simp [step, call, hc, go, finishExecute])
  cases hp
  rw [hf.2] at hpage
  exact absurd hpage (by decide)

end Machine
end DeviceOS
