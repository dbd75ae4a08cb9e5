import DeviceOS.OwnTables

/-!
# DeviceOS.Programs

User programs over the machine. A program is known by the system calls it makes and by what it does
with their results; everything else may be any program.

* `UserProgram`: the calls of a program. `UserProgram.step`: the machine with the states of the
  programs, as they follow from the calls and their results. `Follows`: a program makes only its own
  calls.
* `Top`: the process is on top of its stack. `StackInv.top_next`: what the others do does not change
  it. `StackInv.not_top_of_halt`: the parent of a process that halts was not on top.
* `call_reply`, `late_reply`: to whom a call returns, at once or later.
* `Kernel.Enters`: a program has just been entered.
-/

namespace DeviceOS

open EventSystem (Reach run withHistory withHistory_eq_some)

/-- `start cmd`: the state of the program that `execute` enters for this command (`none`: nothing is
known about it). `makes s e`: the program makes the call `e`. `next s r`: a call has returned. -/
structure UserProgram (σ : Type) where
  start : CString → Option σ
  makes : σ → Event → Prop
  next : σ → Reply → σ

/-- The states of the programs that are known. -/
abbrev Programs (σ : Type) := Pid → Option σ

namespace UserProgram

variable {σ : Type} (P : UserProgram σ)

/-- A call has returned to the program that runs. -/
def answer (m : Machine) (r : Reply) (st : Programs σ) : Programs σ :=
  match m.program with
  | some p => Function.update st p ((st p).map fun s => P.next s r)
  | none => st

/-- A call of `halt` by process `p` that was one step. A base shell starts again, with the
descriptors it had; otherwise `execute` returns to the parent. -/
def exited (m' : Machine) (p : Pid) (st : Programs σ) : Programs σ :=
  if m'.program = some p then Function.update st p none
  else P.answer m' ⟨m'.kern.proc.haltValue, []⟩ (Function.update st p none)

/-- The programs after an event that returns from no call. -/
def silent (img : Image) (m m' : Machine) (st : Programs σ) : Event → Programs σ
  | .halt _ => m.program.elim st fun p => P.exited m' p st
  | .haltCall _ => m.program.elim st fun p => Function.update st p none
  | .execute (some cmd) _ _ => m'.program.elim st fun c => Function.update st c (P.start cmd)
  | .tick esp ebp =>
    (Machine.started img m (.tick esp ebp)).elim st fun c =>
      if m'.program = some c then Function.update st c (P.start shellName) else st
  | _ => st

def record (img : Image) (m : Machine) (e : Event) (st : Programs σ) : Programs σ :=
  match Machine.call img m e with
  | some (m', some r) => P.answer m' r st
  | some (m', none) => P.silent img m m' st e
  | none => st

/-- The machine with the states of the programs. -/
def step (img : Image) : Machine × Programs σ → Event → Option (Machine × Programs σ) :=
  withHistory (Machine.step img) (P.record img)

def Boot (s : Machine × Programs σ) : Prop := Machine.Boot s.1 ∧ ∀ p, s.2 p = none

/-- A known program makes only its own calls. -/
def Follows (s : Machine × Programs σ) (e : Event) : Prop :=
  ∀ p x, s.1.ctl = .user p → s.2 p = some x → Machine.IsSyscall e → P.makes x e

/-- A step of a run in order, in which a program that is found can be copied. -/
structure Ok (img : Image) (s : Machine × Programs σ) (e : Event) : Prop where
  order : Machine.InOrder img s.1 e
  copies : ¬ Machine.CopyFails img s.1 e
  follows : P.Follows s e

/-- `Ok`, for an image that holds a shell. -/
def check (img : Image) [∀ x e, Decidable (P.makes x e)] (s : Machine × Programs σ) (e : Event) :
    Bool :=
  let started := match e with
    | .haltCall _ => false
    | .execute command _ _ => (s.1.kern.proc.newPid img command).all fun q =>
      s.1.kern.proc.terminalProcessIndex = some s.1.kern.con.curTerminal ∧ 3 ≤ q.val
    | _ => true
  let copies := match e with
    | .execute (some cmd) _ _ =>
      match findProgram img cmd with
      | .ok (some prog) => !img.badBlock (img.inodes prog.inode)
      | _ => true
    | _ => true
  let follows := match s.1.program.bind s.2, e with
    | none, _ | _, .tick _ _ | _, .key _ _ | _, .mouse _ | _, .rtc | _, .go => true
    | some x, e => decide (P.makes x e)
  started && copies && follows

theorem Ok.of_check {img : Image} [∀ x e, Decidable (P.makes x e)] (hl : Machine.ShellLoads img)
    (s : Machine × Programs σ) (e : Event) (h : P.check img s e = true) : P.Ok img s e := by
  simp only [check, Bool.and_eq_true] at h
  obtain ⟨⟨hstarted, hcopies⟩, hfollows⟩ := h
  refine ⟨⟨?_, ?_⟩, ?_, fun p x hc hp he => ?_⟩
  · cases e with
    | haltCall status => cases hstarted
    | _ => trivial
  · cases e with
    | tick esp ebp => exact fun _ _ _ => hl
    | execute command esp ebp =>
      intro q hq
      simpa [hq] using hstarted
    | _ => trivial
  · cases e with
    | execute command esp ebp =>
      rintro ⟨q, prog, ⟨_, cmd, rfl, hf⟩, hb⟩
      simp only [hf, hb, Bool.not_true] at hcopies
      cases hcopies
    | _ => exact not_false
  · have hprog : s.1.program.bind s.2 = some x := by
      rw [Machine.program_eq_some.mpr hc]
      exact hp
    rw [hprog] at hfollows
    cases e <;> first
      | exact he.elim
      | exact of_decide_eq_true hfollows

end UserProgram

/-- A `read` of process `p` is in progress. -/
def Ctl.Reads (p : Pid) : Ctl → Prop
  | .reading r _ | .waiting r => r = p
  | _ => False

/-- What a `read` in progress can return: a line with its newline, or 0 from the clock. -/
def Ctl.Replies : Ctl → Reply → Prop
  | .reading _ _, r => ∃ line : List UInt8, r = ⟨(line ++ [10]).length, line ++ [10]⟩
  | .waiting _, r => r = ⟨0, []⟩
  | _, _ => False

theorem Reader.done_line {s : Terminal} {r : Reader} {buf : Nat → UInt8} {ret : Nat}
    (h : r.step s = .done buf ret) :
    ∃ line : List UInt8, ret = (line ++ [10]).length ∧ (List.range ret).map buf = line ++ [10] := by
  simp only [Reader.step] at h
  split at h
  · split at h
    · split at h
      · cases h
      · rename_i i _
        cases h
        refine ⟨(List.range i).map (Function.update r.buf i 10), by simp, ?_⟩
        rw [List.range_succ, List.map_append, List.map_singleton, Function.update_self]
    · cases h
  · cases h
  · split at h <;> cases h
  · split at h <;> cases h

theorem Ctl.Reads.serves {p : Pid} {c : Ctl} (h : c.Reads p) : c.Serves p := by
  cases c with
  | reading r x => exact h
  | waiting r => exact h
  | _ => exact h.elim

namespace Machine

variable {img : Image} {m m' : Machine} {e : Event} {p q : Pid} {A : Term → List Pid}

/-- A thread that serves a process runs its program or reads for it. -/
theorem serves_cases {c : Ctl} (h : c.Serves p) : c = .user p ∨ c.Reads p := by
  cases c with
  | user r => cases h; exact Or.inl rfl
  | reading r x => exact Or.inr h
  | waiting r => exact Or.inr h
  | _ => exact h.elim

/-- The process is on top of the stack of a terminal. -/
def Top (m : Machine) (p : Pid) : Prop := ∃ t, m.kern.proc.pidArr t = some p

/-- No `read` of the process is in progress. -/
def Free (m : Machine) (p : Pid) : Prop := ∀ t c, m.thread t = some c → ¬ c.Reads p

theorem StackInv.pidMask (h : StackInv m A) (hc : Calm m) (hp : Top m p) :
    m.kern.proc.pidMask p = true := by
  obtain ⟨t, ht⟩ := hp
  refine ((h.partition hc).2 p).mpr ⟨t, ?_⟩
  rw [h.stackOf]
  exact h.table.linked.top_mem ht

theorem StackInv.topPcb (h : StackInv m A) (hp : Top m p) : m.kern.proc.pcbArray p = true := by
  obtain ⟨t, ht⟩ := hp
  exact h.table.pcbArray t p (h.table.linked.top_mem ht)

/-- The process whose program runs is on top of its stack, and has no `read` in progress. -/
theorem StackInv.user_top (h : StackInv m A) (hc : m.ctl = .user p) : Top m p ∧ Free m p := by
  obtain ⟨t, ht, hp⟩ := h.user hc
  refine ⟨⟨t, hp⟩, fun u c hth hr => ?_⟩
  obtain ⟨q, hq⟩ := h.thread_live hth
  have hok := h.table.threads u q c hq hth
  obtain rfl : p = q := ((serves_threadOk (Ctl.Reads.serves hr)).2 _ _).mp hok
  obtain rfl : u = t := h.table.linked.top_inj hq hp
  rw [thread_self ht, hc] at hth
  cases hth
  exact hr

/-- An event that is no call of process `p` leaves it on top of its stack. -/
theorem StackInv.top_next (h : StackInv m A) (hc : Calm m) (ho : InOrder img m e)
    (hs : step img m e = some m') (hp : Top m p) (hother : m.ctl = .user p → ¬ IsSyscall e) :
    Top m' p := by
  obtain ⟨t, ht⟩ := hp
  have hne : ∀ {u : Term} {q : Pid}, m.ctl = .user q → IsSyscall e →
      m.kern.proc.pidArr u = some q → t ≠ u := by
    rintro u q hq he hu rfl
    obtain rfl : p = q := Option.some.inj (ht.symm.trans hu)
    exact hother hq he
  cases h.kind ho.2 hs with
  | quiet _ hsame =>
    exact ⟨t, by rw [hsame.pidArr]; exact ht⟩
  | still _ heq =>
    rw [heq]
    exact ⟨t, ht⟩
  | @start _ _ u _ he hl _ =>
    have htu : t ≠ u := by
      rintro rfl
      rw [he] at ht
      cases ht
    exact ⟨t, by rw [hl.pidArr, Function.update_of_ne htu]; exact ht⟩
  | resume _ _ hk =>
    rw [Top, hk]
    exact ⟨t, ht⟩
  | spawn hq _ hu _ _ hl =>
    exact ⟨t, by rw [hl.pidArr, Function.update_of_ne (hne hq trivial hu)]; exact ht⟩
  | rejected _ _ hk =>
    rw [Top, hk]
    exact ⟨t, ht⟩
  | failed _ _ _ _ hst =>
    rw [Top, hst.sameTables.pidArr]
    exact ⟨t, ht⟩
  | restart => exact ho.1.elim
  | enter => exact ho.1.elim
  | exec hctl =>
    have := not_inHalt h hc
    rw [hctl] at this
    exact absurd trivial this
  | finish hctl =>
    have := not_inHalt h hc
    rw [hctl] at this
    exact absurd trivial this
  | @whole _ q hq hx =>
    obtain ⟨u, hu, htop⟩ := h.user hq
    obtain ⟨hst, _⟩ := h.halt hq hx hu
    refine ⟨t, ?_⟩
    have heq := hst.inv.table.linked.top_eq t
    split at heq
    · rw [← heq, h.table.linked.top_eq]
      exact ht
    · rw [Function.update_of_ne (hne hq trivial htop)] at heq
      rw [← heq, h.table.linked.top_eq]
      exact ht

/-- A `read` that starts is a call of its process. -/
theorem reads_of_user (hs : step img m e = some m') (hc : m.ctl = .user p) (hr : m'.ctl.Reads p)
    (ht : ∀ esp ebp, e ≠ .tick esp ebp) : IsSyscall e := by
  cases e with
  | tick esp ebp => exact absurd rfl (ht esp ebp)
  | key status code =>
    cases hs
    rw [show (⟨key m.kern status code, m.ctl⟩ : Machine).ctl = m.ctl from rfl, hc] at hr
    exact hr.elim
  | mouse x =>
    cases step_cases hs with
    | mouse _ hc' =>
      rw [hc', hc] at hr
      exact hr.elim
  | rtc =>
    cases step_cases hs with
    | rtc heq =>
      rw [heq] at hr
      rw [show (⟨_, m.ctl⟩ : Machine).ctl = m.ctl from rfl, hc] at hr
      exact hr.elim
  | go =>
    obtain ⟨x, hcall, _⟩ := Option.map_eq_some_iff.mp hs
    rw [call, hc] at hcall
    cases hcall
  | _ => trivial

/-- A system call that returns at once returns to the program that made it. -/
theorem call_reply {r : Reply} (hcall : call img m e = some (m', some r)) (he : IsSyscall e)
    (hc : m.ctl = .user p) : m'.ctl = .user p := by
  obtain ⟨q, hq, hsys⟩ := call_user hcall he
  obtain rfl : q = p := Ctl.user.inj (hq.symm.trans hc)
  cases e with
  | execute command esp ebp =>
    simp only [syscall, execute] at hsys
    split at hsys <;> cases hsys
    rfl
  | halt status =>
    obtain ⟨_, _, heq⟩ := Option.map_eq_some_iff.mp hsys
    cases heq
  | haltCall status =>
    obtain ⟨_, _, heq⟩ := Option.map_eq_some_iff.mp hsys
    cases heq
  | read fd buf nbytes =>
    obtain ⟨x, _, heq⟩ := Option.map_eq_some_iff.mp hsys
    cases x <;> cases heq
    rfl
  | setHandler => cases hsys; rfl
  | sigreturn => cases hsys; rfl
  | tick | key | mouse | rtc | go => exact he.elim
  | _ =>
    obtain ⟨_, _, heq⟩ := Option.map_eq_some_iff.mp hsys
    cases heq
    rfl

/-- Any other call that returns in an event is a `read` that was in progress. -/
theorem late_reply {r : Reply} (hcall : call img m e = some (m', some r)) (he : ¬ IsSyscall e)
    (hcalm : ¬ InHalt m.ctl) : ∃ q, m.ctl.Reads q ∧ m.ctl.Replies r ∧ m'.ctl = .user q := by
  cases e with
  | tick esp ebp =>
    obtain ⟨_, _, heq⟩ := Option.map_eq_some_iff.mp hcall
    cases heq
  | key status code => cases hcall
  | mouse x =>
    obtain ⟨_, _, heq⟩ := Option.map_eq_some_iff.mp hcall
    cases heq
  | rtc => cases hcall
  | go =>
    simp only [call] at hcall
    cases hc : m.ctl with
    | halting pc l =>
      rw [hc] at hcalm
      exact absurd trivial hcalm
    | finishing fr l =>
      rw [hc] at hcalm
      exact absurd trivial hcalm
    | reading q x =>
      rw [hc] at hcall
      obtain ⟨⟨k', c', y⟩, hx, heq⟩ := Option.map_eq_some_iff.mp hcall
      cases heq
      simp only [Kernel.readStep] at hx
      split at hx
      · cases hx
      · rename_i hdone
        obtain ⟨line, hret, hline⟩ := Reader.done_line hdone
        obtain ⟨_, _, heq⟩ := Option.map_eq_some_iff.mp hx
        cases heq
        exact ⟨q, rfl, ⟨line, by rw [hline, hret]⟩, rfl⟩
      · cases hx
    | waiting q =>
      rw [hc] at hcall
      simp only [go, Option.some.injEq, Prod.mk.injEq] at hcall
      obtain ⟨hm, hr⟩ := hcall
      rw [← hm]
      simp only [Kernel.rtcStep] at hr ⊢
      split at hr
      · rename_i hint
        cases hr
        exact ⟨q, rfl, rfl, by rw [if_pos hint]⟩
      · cases hr
    | _ =>
      rw [hc] at hcall
      cases hcall
  | _ => exact absurd trivial he

end Machine

/-- The program of process `p` has just been entered with the command `cmd`. -/
def Kernel.Enters (img : Image) (k : Kernel) (p : Pid) (cmd : CString) : Prop :=
  ∃ P0 cur regs, Proc.execute img cur P0 (some cmd) regs = .enter p k.proc

namespace Machine

variable {img : Image} {m m' : Machine} {A : Term → List Pid}

/-- A tick has started a shell. -/
theorem started_enters {esp ebp : Nat} {c : Pid} (hs : step img m (.tick esp ebp) = some m')
    (hstart : started img m (.tick esp ebp) = some c) (hc : m'.ctl = .user c) :
    m'.kern.Enters img c shellName := by
  simp only [started, Option.bind_eq_some_iff] at hstart
  obtain ⟨t, ht, hnew⟩ := hstart
  split at hnew
  · rename_i hempty
    obtain ⟨prog, hl⟩ := Proc.newPid_eq_some.mp hnew
    have hl' : (m.kern.suspended m.ctl t).proc.Loads img (some shellName) c prog :=
      ⟨⟨hl.1.freePid, hl.1.found⟩, hl.2⟩
    cases step_cases hs with
    | tick hpit =>
      rcases Kernel.pitHandler_cases hpit with ⟨hn, _, _⟩ | ⟨t', ht', _, hcase⟩
      · rw [hn] at ht
        cases ht
      · obtain rfl : t = t' := Option.some.inj (ht.symm.trans ht')
        rcases hcase with ⟨_, p', hx, _⟩ | ⟨_, q, p', hx, hk, hq⟩ | ⟨q, hq, _⟩
        · exact absurd hx hl'.not_ret
        · obtain rfl : c = q := Ctl.user.inj (hc.symm.trans hq)
          exact ⟨_, _, _, by rw [hk]; exact hx⟩
        · rw [hempty] at hq
          cases hq
  · cases hnew

/-- The process that goes on after a `halt` was not on top of a stack. -/
theorem StackInv.not_top_of_halt (h : StackInv m A) {q c : Pid} {status : UInt8}
    (hq : m.ctl = .user q) (hx : DeviceOS.halt m.kern status = some (m'.kern, m'.ctl))
    (hc : m'.ctl = .user c) (hne : c ≠ q) : ¬ Top m c := by
  rintro ⟨u, hu⟩
  obtain ⟨t, ht, htop⟩ := h.user hq
  obtain ⟨hst, _⟩ := h.halt hq hx ht
  obtain ⟨t', ht', htop'⟩ := hst.inv.user hc
  obtain rfl : t = t' := Option.some.inj ((ht.symm.trans (halt_con hx).2.symm).trans ht')
  have hhead := hst.inv.table.linked.top_eq t
  rw [htop'] at hhead
  obtain ⟨l, hl⟩ := h.table.linked.eq_cons htop
  split at hhead
  · rw [hl] at hhead
    cases hhead
    exact hne rfl
  · rw [Function.update_self, hl] at hhead
    have hmem : c ∈ A t := by
      rw [hl]
      exact List.mem_cons_of_mem _ (List.mem_of_head? hhead)
    obtain rfl : u = t := h.table.linked.disjoint u t c (h.table.linked.top_mem hu) hmem
    exact hne (Option.some.inj (hu.symm.trans htop))

end Machine
end DeviceOS
