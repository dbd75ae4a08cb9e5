import DeviceOS.Lib.LinkedStacks
import DeviceOS.ProcessTables

/-!
# DeviceOS.StackInvariant

The invariant of the process tables: three stacks of processes, one per terminal, linked by
`parentid`, with `pid_arr` naming the tops; and one kernel thread per started terminal, which runs
or is stored in the PCB of the top process.

* `TableInv p th A`: the tables `p` store the stacks `A`, and each thread of `th` fits the top of
  its stack.
* `TableInv.congr`, `setThread`, `spoil`, `launch`, `clearMask`, `popPid`: what keeps the invariant,
  one lemma for each kind of change that `execute`, `halt` and `schedule` make.
-/

namespace DeviceOS

/-- The base shell of terminal `t`. -/
def rootPid (t : Term) : Pid := ⟨t.val, by omega⟩

theorem rootPid_injective : Function.Injective rootPid := by
  intro t u h
  exact Fin.ext (Fin.mk.inj h)

def Proc.parentOf (p : Proc) (q : Pid) : Option Pid := (p.pcb q).parentid

/-- `pid_arr[terminal_process_index] = pid_temp` has been executed. -/
def HaltPc.popped : HaltPc → Bool
  | .setValue | .jump => true
  | _ => false

/-- The pid whose `pid_mask` a thread has cleared while `pid_arr` still names it. -/
def Ctl.releases : Ctl → Option Pid
  | .halting .typing l | .halting .popPid l => some l.currPid
  | _ => none

theorem Ctl.releases_eq_some {c : Ctl} {q : Pid} (h : c.releases = some q) :
    ∃ pc l, c = .halting pc l ∧ pc.popped = false ∧ l.currPid = q := by
  cases c with
  | halting pc l =>
    refine ⟨pc, l, rfl, ?_⟩
    cases pc <;> simp_all [Ctl.releases, HaltPc.popped]
  | _ => simp [Ctl.releases] at h

/-- What a thread of a terminal whose top process is `q` can be. -/
def ThreadOk (p : Proc) (q : Pid) : Ctl → Prop
  | .idle => False
  | .user r => r = q
  | .reading r _ => r = q
  | .waiting r => r = q
  | .halting pc l =>
    3 ≤ l.currPid.val ∧
      if pc.popped then l.pidTemp = some q ∧ (p.pcb l.currPid).prev.caller = some q
      else l.currPid = q ∧ l.pidTemp = p.parentOf q
  | .finishing fr _ => fr.caller = some q

/-- The processes of `p` and the saved contexts that lead back to them are the same in `p'`. -/
structure SameShape (p p' : Proc) : Prop where
  pidArr : p'.pidArr = p.pidArr
  pidMask : p'.pidMask = p.pidMask
  pcbArray : p'.pcbArray = p.pcbArray
  pcb : ∀ q, (p'.pcb q).parentid = (p.pcb q).parentid ∧ (p'.pcb q).prev = (p.pcb q).prev

theorem SameTables.sameShape {p p' : Proc} (h : SameTables p p') : SameShape p p' :=
  ⟨h.pidArr, h.pidMask, h.pcbArray, fun q => ⟨(h.pcb q).parentid, (h.pcb q).prev⟩⟩

theorem SameShape.parentOf {p p' : Proc} (h : SameShape p p') : p'.parentOf = p.parentOf :=
  funext fun q => (h.pcb q).1

theorem SameShape.threadOk {p p' : Proc} (h : SameShape p p') {q : Pid} {c : Ctl}
    (hc : ThreadOk p q c) : ThreadOk p' q c := by
  cases c with
  | halting pc l =>
    simp only [ThreadOk, h.parentOf, (h.pcb l.currPid).2] at hc ⊢
    exact hc
  | _ => exact hc

/-- A thread after that of terminal `t` is replaced: it is the new one, or was there before. -/
theorem thread_update {th : Term → Option Ctl} {t u : Term} {c d : Ctl}
    (h : Function.update th t (some c) u = some d) : (u = t ∧ d = c) ∨ (u ≠ t ∧ th u = some d) := by
  by_cases hu : u = t
  · subst hu
    rw [Function.update_self] at h
    exact Or.inl ⟨rfl, (Option.some.inj h).symm⟩
  · rw [Function.update_of_ne hu] at h
    exact Or.inr ⟨hu, h⟩

/-- No thread has released `q`, before and after the thread of `t` is replaced by one that has
released the same. -/
theorem released_congr {th : Term → Option Ctl} {t : Term} {c : Ctl} {q : Pid}
    (h : (∃ d, th t = some d ∧ d.releases = some q) ↔ c.releases = some q) :
    (∀ u d, Function.update th t (some c) u = some d → d.releases ≠ some q) ↔
      ∀ u d, th u = some d → d.releases ≠ some q := by
  constructor
  · intro hall u d hd hr
    by_cases hu : u = t
    · subst hu
      exact hall u c (Function.update_self ..) (h.mp ⟨d, hd, hr⟩)
    · exact hall u d (by rw [Function.update_of_ne hu]; exact hd) hr
  · intro hall u d hd hr
    rcases thread_update hd with ⟨rfl, rfl⟩ | ⟨_, hd⟩
    · obtain ⟨d0, h0, hr0⟩ := h.mpr hr
      exact hall u d0 h0 hr0
    · exact hall u d hd hr

structure TableInv (p : Proc) (th : Term → Option Ctl) (A : Term → List Pid) : Prop where
  linked : LinkedStacks p.parentOf rootPid p.pidArr A
  base : ∀ t q, q ∈ A t → q.val < 3 → q = rootPid t
  pcbArray : ∀ t q, q ∈ A t → p.pcbArray q = true
  mask : ∀ q, p.pidMask q = true ↔
    (∃ t, q ∈ A t) ∧ ∀ t c, th t = some c → c.releases ≠ some q
  caller : ∀ t q d, q ∈ A t → 3 ≤ q.val → p.parentOf q = some d → (p.pcb q).prev.caller = some d
  threads : ∀ t q c, p.pidArr t = some q → th t = some c → ThreadOk p q c
  live : ∀ t c, th t = some c → c.releases ≠ none → p.pidArr t ≠ none

namespace TableInv

variable {p p' : Proc} {th th' : Term → Option Ctl} {A : Term → List Pid} {t : Term} {q : Pid}

theorem congr (h : TableInv p th A) (hs : SameShape p p') (ht : th' = th) : TableInv p' th' A := by
  subst ht
  refine ⟨?_, h.base, ?_, ?_, ?_, ?_, ?_⟩
  · rw [hs.parentOf, hs.pidArr]
    exact h.linked
  · intro u r hr
    rw [hs.pcbArray]
    exact h.pcbArray u r hr
  · intro r
    rw [hs.pidMask]
    exact h.mask r
  · intro u r d hr h3 hd
    rw [(hs.pcb r).2]
    exact h.caller u r d hr h3 (by rwa [hs.parentOf] at hd)
  · intro u r c hr hc
    rw [hs.pidArr] at hr
    exact hs.threadOk (h.threads u r c hr hc)
  · intro u c hc hr
    rw [hs.pidArr]
    exact h.live u c hc hr

/-- A thread moves on without a change to the stacks or the masks. -/
theorem setThread (h : TableInv p th A) (hs : SameShape p p') (hq : p.pidArr t = some q) {c c' : Ctl}
    (hc : th t = some c) (hrel : c'.releases = c.releases) (hok : ThreadOk p' q c') :
    TableInv p' (Function.update th t (some c')) A := by
  have h' := h.congr hs rfl
  refine ⟨h'.linked, h'.base, h'.pcbArray, ?_, h'.caller, ?_, ?_⟩
  · intro r
    rw [h'.mask r, released_congr ⟨?_, fun hr => ⟨c, hc, hrel ▸ hr⟩⟩]
    rintro ⟨d, hd, hr⟩
    rw [hc] at hd
    cases hd
    rw [hrel]
    exact hr
  · intro u r d hr hd
    rcases thread_update hd with ⟨rfl, rfl⟩ | ⟨_, hd⟩
    · rw [hs.pidArr, hq] at hr
      cases hr
      exact hok
    · exact h'.threads u r d hr hd
  · intro u d hd hr
    rcases thread_update hd with ⟨rfl, rfl⟩ | ⟨_, hd⟩
    · rw [hs.pidArr, hq]
      simp
    · exact h'.live u d hd hr

/-- A PCB that belongs to no process of a stack and to no `halt` in progress does not matter. -/
theorem spoil (h : TableInv p th A) (hfresh : ∀ u, q ∉ A u)
    (hfree : ∀ u pc l, th u = some (.halting pc l) → l.currPid ≠ q)
    (harr : p'.pidArr = p.pidArr) (hmask : p'.pidMask = p.pidMask)
    (hother : ∀ r, r ≠ q → p'.pcbArray r = p.pcbArray r ∧ p'.pcb r = p.pcb r) :
    TableInv p' th A := by
  have hne : ∀ u, ∀ r ∈ A u, r ≠ q := by
    rintro u r hr rfl
    exact hfresh u hr
  have hparent : ∀ u, ∀ r ∈ A u, p'.parentOf r = p.parentOf r := fun u r hr => by
    rw [Proc.parentOf, (hother r (hne u r hr)).2, Proc.parentOf]
  refine ⟨?_, h.base, ?_, ?_, ?_, ?_, ?_⟩
  · rw [harr]
    exact h.linked.congr hparent
  · intro u r hr
    rw [(hother r (hne u r hr)).1]
    exact h.pcbArray u r hr
  · intro r
    rw [hmask]
    exact h.mask r
  · intro u r d hr h3 hd
    rw [(hother r (hne u r hr)).2]
    exact h.caller u r d hr h3 (by rwa [hparent u r hr] at hd)
  · intro u r c hr hc
    rw [harr] at hr
    have hok := h.threads u r c hr hc
    cases c with
    | halting pc l =>
      have hl := (hother _ (hfree u pc l hc)).2
      simp only [ThreadOk, hparent u r (h.linked.top_mem hr), hl] at hok ⊢
      exact hok
    | _ => exact hok
  · intro u c hc hr
    rw [harr]
    exact h.live u c hc hr

/-- A released pid is the top of the stack of the thread that released it, and no base shell. -/
theorem releases_top (h : TableInv p th A) {c : Ctl} (hc : th t = some c)
    (hr : c.releases = some q) : p.pidArr t = some q ∧ 3 ≤ q.val := by
  obtain ⟨r, hr'⟩ := Option.ne_none_iff_exists'.mp (h.live t c hc (by simp [hr]))
  obtain ⟨pc, l, rfl, hpc, hl⟩ := Ctl.releases_eq_some hr
  obtain ⟨h3, hok⟩ := h.threads t r _ hr' hc
  simp only [hpc] at hok
  obtain ⟨rfl, _⟩ := hok
  subst hl
  exact ⟨hr', h3⟩

/-- A process on a stack has its `pid_mask` set, unless it is being released. -/
theorem mem_mask (h : TableInv p th A) (hq : q ∈ A t) (h3 : q.val < 3) : p.pidMask q = true := by
  rw [h.mask q]
  refine ⟨⟨t, hq⟩, fun u c hc hr => ?_⟩
  have := (h.releases_top hc hr).2
  omega

/-- A free pid is on no stack, unless its `halt` is in progress. -/
theorem fresh (h : TableInv p th A) (hq : p.pidMask q = false)
    (hr : ∀ u c, th u = some c → c.releases ≠ some q) : ∀ u, q ∉ A u := by
  intro u hu
  have := (h.mask q).mpr ⟨⟨u, hu⟩, hr⟩
  rw [hq] at this
  cases this

/-- The top of a stack that is not a base shell has a parent, the next process of the stack. -/
theorem parent_exists (h : TableInv p th A) (hq : p.pidArr t = some q) (h3 : 3 ≤ q.val) :
    ∃ d l, p.parentOf q = some d ∧ d ≠ q ∧ A t = q :: d :: l := by
  rcases h.linked.top_cases hq with ⟨hr, _, _⟩ | h
  · rw [hr] at h3
    simp only [rootPid] at h3
    omega
  · exact h

end TableInv

/-- What `execute` does to the tables when it starts process `q` on terminal `t`. -/
structure Launched (p p' : Proc) (t cur : Term) (q : Pid) (regs : Frame) : Prop where
  pidArr : p'.pidArr = Function.update p.pidArr t (some q)
  pidMask : p'.pidMask = Function.update p.pidMask q true
  pcbArray : p'.pcbArray = Function.update p.pcbArray q true
  parentid : (p'.pcb q).parentid = if q.val < 3 then some q else p.pidArr cur
  prev : (p'.pcb q).prev = regs
  tssPrevEsp0 : (p'.pcb q).tssPrevEsp0 = p.tss.esp0
  other : ∀ r, r ≠ q → p'.pcb r = p.pcb r
  tss : p'.tss = ⟨esp0Of q, kernelDs⟩
  pageDirectory32 : p'.pageDirectory32 = pdeOf q
  terminalProcessIndex : p'.terminalProcessIndex = p.terminalProcessIndex
  haltValue : p'.haltValue = p.haltValue

theorem Proc.launch_launched {p p1 : Proc} {cur : Term} {q : Pid} (prog : Program) (regs : Frame)
    (h : (p.prepared cur q).Stored p1) :
    Launched p (p1.launch cur q prog regs) (pidSlot cur q) cur q regs := by
  obtain ⟨mem, rfl, _⟩ := h
  refine ⟨rfl, rfl, rfl, ?_, ?_, ?_, ?_, rfl, rfl, rfl, rfl⟩
  · simp [launch, prepared, createPcb, mapProgramMem]
  · simp [launch]
  · simp [launch, prepared, createPcb, mapProgramMem]
  · intro r hr
    simp [launch, prepared, createPcb, mapProgramMem, Function.update_of_ne hr]

theorem Proc.popPid_of_ne (p : Proc) {t u : Term} (parent : Option Pid) (hu : u ≠ t) :
    (p.popPid t parent).pidArr u = p.pidArr u :=
  Function.update_of_ne hu ..

namespace TableInv

variable {p p' : Proc} {th : Term → Option Ctl} {A : Term → List Pid} {t cur : Term} {q : Pid}
  {regs : Frame}

/-- Process `q` starts on terminal `t`, as the base shell or as a child of the top process. -/
theorem launch (h : TableInv p th A) (hl : Launched p p' t cur q regs)
    (hfresh : ∀ u, q ∉ A u)
    (hfree : ∀ u pc l, th u = some (.halting pc l) → l.currPid ≠ q)
    (hrun : ∀ c, th t = some c → c.releases = none)
    (hcase : (q = rootPid t ∧ A t = []) ∨
      (3 ≤ q.val ∧ ∃ c, p.pidArr cur = some c ∧ p.pidArr t = some c ∧ regs.caller = some c)) :
    TableInv p' (Function.update th t (some (.user q))) (Function.update A t (q :: A t)) := by
  have hother : ∀ u, ∀ r ∈ A u, r ≠ q := by
    rintro u r hr rfl
    exact hfresh u hr
  have hparent : ∀ u, ∀ r ∈ A u, p'.parentOf r = p.parentOf r := fun u r hr => by
    rw [Proc.parentOf, hl.other r (hother u r hr), Proc.parentOf]
  have hpid : ∀ u r, p.pidArr u = some r → r ∈ A u := fun u r hr => h.linked.top_mem hr
  constructor
  case linked =>
    rw [hl.pidArr]
    rcases hcase with ⟨hq, hnil⟩ | ⟨h3, c, hcur, htop, _⟩
    · have htop : p.pidArr t = none := by rw [← h.linked.top_eq, hnil]; rfl
      subst hq
      refine h.linked.start htop hfresh hparent ?_
      rw [Proc.parentOf, hl.parentid, if_pos (by simp only [rootPid]; omega)]
    · refine h.linked.push htop hfresh hparent ?_
      rw [Proc.parentOf, hl.parentid, if_neg (by omega), hcur]
  case base =>
    intro u r hr h3
    rcases LinkedStacks.mem_push.mp hr with ⟨rfl, rfl⟩ | hr
    · rcases hcase with ⟨hq, _⟩ | ⟨h3', _⟩
      · exact hq
      · omega
    · exact h.base u r hr h3
  case pcbArray =>
    intro u r hr
    rw [hl.pcbArray]
    rcases LinkedStacks.mem_push.mp hr with ⟨_, rfl⟩ | hr
    · exact Function.update_self ..
    · rw [Function.update_of_ne (hother u r hr)]
      exact h.pcbArray u r hr
  case mask =>
    intro r
    rw [hl.pidMask]
    rw [released_congr]
    swap
    · -- neither the thread that was there nor the new program releases a pid
      refine ⟨?_, ?_⟩
      · rintro ⟨d, hd, hrel⟩
        rw [hrun d hd] at hrel
        cases hrel
      · intro hrel
        cases hrel
    by_cases hr : r = q
    · subst hr
      rw [Function.update_self]
      refine ⟨fun _ => ⟨⟨t, LinkedStacks.mem_push.mpr (Or.inl ⟨rfl, rfl⟩)⟩, ?_⟩, fun _ => rfl⟩
      intro u c hc hrel
      exact hfresh u (hpid u r (h.releases_top hc hrel).1)
    · rw [Function.update_of_ne hr, h.mask r]
      refine and_congr_left fun _ => exists_congr fun u => ?_
      rw [LinkedStacks.mem_push]
      simp [hr]
  case caller =>
    intro u r d hr h3 hd
    rcases LinkedStacks.mem_push.mp hr with ⟨_, rfl⟩ | hr
    · rcases hcase with ⟨hq, _⟩ | ⟨_, c, hcur, _, hcall⟩
      · rw [hq] at h3
        simp only [rootPid] at h3
        omega
      · rw [Proc.parentOf, hl.parentid, if_neg (by omega), hcur] at hd
        cases hd
        rw [hl.prev]
        exact hcall
    · rw [hl.other r (hother u r hr)]
      exact h.caller u r d hr h3 (by rwa [hparent u r hr] at hd)
  case threads =>
    intro u r c hr hc
    rw [hl.pidArr] at hr
    rcases thread_update hc with ⟨rfl, rfl⟩ | ⟨hu, hc⟩
    · rw [Function.update_self] at hr
      cases hr
      rfl
    · rw [Function.update_of_ne hu] at hr
      have hok := h.threads u r c hr hc
      cases c with
      | halting pc l =>
        have hne := hfree u pc l hc
        simp only [ThreadOk, hparent u r (hpid u r hr), hl.other _ hne] at hok ⊢
        exact hok
      | _ => exact hok
  case live =>
    intro u c hc hr
    rw [hl.pidArr]
    rcases thread_update hc with ⟨rfl, rfl⟩ | ⟨hu, hc⟩
    · simp
    · rw [Function.update_of_ne hu]
      exact h.live u c hc hr

/-- `pid_mask[curr_pid] = 0`. -/
theorem clearMask (h : TableInv p th A) (hq : p.pidArr t = some q) {l : HaltLocals}
    (hc : th t = some (.halting .clearMask l)) :
    TableInv (p.clearMask l.currPid) (Function.update th t (some (.halting .typing l))) A := by
  have hok := h.threads t q _ hq hc
  simp only [ThreadOk, HaltPc.popped] at hok
  obtain ⟨h3, hcur, hpar⟩ := hok
  refine ⟨h.linked, h.base, h.pcbArray, ?_, h.caller, ?_, ?_⟩
  · intro r
    have hmask : (p.clearMask l.currPid).pidMask r = if r = q then false else p.pidMask r := by
      rw [Proc.clearMask, hcur]
      exact Function.update_apply ..
    rw [hmask]
    by_cases hr : r = q
    · subst hr
      rw [if_pos rfl]
      refine iff_of_false (by simp) ?_
      rintro ⟨_, hall⟩
      exact hall t _ (Function.update_self ..) (by rw [Ctl.releases, hcur])
    · rw [if_neg hr, h.mask r, released_congr ⟨?_, ?_⟩]
      · rintro ⟨d, hd, hrel⟩
        rw [hc] at hd
        cases hd
        cases hrel
      · intro hrel
        simp only [Ctl.releases, hcur, Option.some.injEq] at hrel
        exact absurd hrel.symm hr
  · intro u r c hr hc'
    rcases thread_update hc' with ⟨rfl, rfl⟩ | ⟨_, hc'⟩
    · have : r = q := Option.some.inj (hr.symm.trans hq)
      subst this
      exact ⟨h3, hcur, hpar⟩
    · have hok := h.threads u r c hr hc'
      cases c <;> exact hok
  · intro u c hc' hr
    rcases thread_update hc' with ⟨rfl, rfl⟩ | ⟨_, hc'⟩
    · have : (p.clearMask l.currPid).pidArr u = some q := hq
      rw [this]
      simp
    · exact h.live u c hc' hr

/-- `pid_arr[terminal_process_index] = pid_temp`: the stack loses its top. -/
theorem popPid (h : TableInv p th A) (hq : p.pidArr t = some q) {l : HaltLocals}
    (hc : th t = some (.halting .popPid l)) :
    TableInv (p.popPid t l.pidTemp) (Function.update th t (some (.halting .setValue l)))
      (Function.update A t (A t).tail) := by
  have hok := h.threads t q _ hq hc
  simp only [ThreadOk, HaltPc.popped] at hok
  obtain ⟨h3, hcur, hpar⟩ := hok
  rw [hcur] at h3
  obtain ⟨d, l', hd, hdq, hA⟩ := h.parent_exists hq h3
  rw [hd] at hpar
  constructor
  case linked =>
    rw [Proc.popPid, hpar]
    exact h.linked.pop hA
  case base =>
    exact fun u r hr => h.base u r (LinkedStacks.mem_of_pop hr)
  case pcbArray =>
    exact fun u r hr => h.pcbArray u r (LinkedStacks.mem_of_pop hr)
  case mask =>
    intro r
    have hrel : ∀ u c, Function.update th t (some (.halting .setValue l)) u = some c →
        c.releases = some r → u ≠ t ∧ th u = some c := by
      intro u c hc' hr
      rcases thread_update hc' with ⟨rfl, rfl⟩ | h
      · cases hr
      · exact h
    have hm : (p.popPid t l.pidTemp).pidMask r = p.pidMask r := rfl
    have hpop : (∃ u, r ∈ Function.update A t (A t).tail u) ↔ (∃ u, r ∈ A u) ∧ r ≠ q := by
      rw [← exists_and_right]
      exact exists_congr fun u => h.linked.mem_pop_iff hA
    rw [hm, h.mask r, hpop, and_assoc]
    refine and_congr_right fun _ => ⟨fun hall => ⟨?_, fun v c hv hr => ?_⟩, ?_⟩
    · rintro rfl
      exact hall t _ hc (by rw [Ctl.releases, hcur])
    · exact hall v c (hrel v c hv hr).2 hr
    · rintro ⟨hrq, hall⟩ v c hv hr
      by_cases hvt : v = t
      · -- the thread at the statement itself releases `q`, which leaves its stack
        subst hvt
        rw [hc] at hv
        cases hv
        simp only [Ctl.releases, hcur, Option.some.injEq] at hr
        exact hrq hr.symm
      · exact hall v c (by rw [Function.update_of_ne hvt]; exact hv) hr
  case caller =>
    exact fun u r e hr => h.caller u r e (LinkedStacks.mem_of_pop hr)
  case threads =>
    intro u r c hr hc'
    rcases thread_update hc' with ⟨rfl, rfl⟩ | ⟨hu, hc'⟩
    · have hr' : (p.popPid u l.pidTemp).pidArr u = some d := by
        rw [Proc.popPid, hpar]
        exact Function.update_self ..
      rw [hr'] at hr
      cases hr
      have hcaller := h.caller u q d (h.linked.top_mem hq) h3 hd
      simp only [ThreadOk, HaltPc.popped, if_true]
      exact ⟨by rw [hcur]; exact h3, hpar, by rw [hcur]; exact hcaller⟩
    · rw [p.popPid_of_ne _ hu] at hr
      have hok := h.threads u r c hr hc'
      cases c <;> exact hok
  case live =>
    intro u c hc' hr
    rcases thread_update hc' with ⟨rfl, rfl⟩ | ⟨hu, hc'⟩
    · exact absurd rfl hr
    · rw [p.popPid_of_ne _ hu]
      exact h.live u c hc' hr

end TableInv
end DeviceOS
