import DeviceOS.PrivateCalls

/-!
# DeviceOS.Isolation

Every process runs as if it were alone.

* `UserProgram.Alone`: the states in which a program can be when it runs by itself, over its own
  descriptors and arguments. Lines that are typed, and exit statuses of children, may be anything.
* `At`: what holds of a process in the machine. The program is in such a state, and a call that has
  not returned yet is one for which it waits there too.
* `at_next`: what any other process or a device does keeps this. `inv_next`: so does one event.
* `Isolated`: besides, the machine does with its calls what they do there.
* `processes_isolated`: every run in order in which the copy of no program fails.
-/

namespace DeviceOS

open EventSystem (Reach run withHistory withHistory_eq_some)

/-- What a call may return, and what it leaves to the process. -/
inductive OwnResult.Returns (o : Own) : OwnResult → Reply → Own → Prop
  | ret {r : Reply} {o' : Own} : Returns o (.ret r o') r o'
  | terminal {line : List UInt8} :
      Returns o .terminal ⟨(line ++ [10]).length, line ++ [10]⟩ o
  | rtc : Returns o .rtc ⟨0, []⟩ o
  | child {v : Int} : Returns o .child ⟨v, []⟩ o

/-- The states of a program that runs by itself, after any number of calls. -/
inductive UserProgram.Alone {σ : Type} (P : UserProgram σ) (img : Image) : σ → Own → Prop
  | enter {cmd : CString} {x : σ} {o : Own} : P.start cmd = some x → o.Fresh cmd.text.kept →
      Alone P img x o
  | call {x : σ} {o o' : Own} {e : Event} {res : OwnResult} {r : Reply} : Alone P img x o →
      P.makes x e → o.syscall img e = some res → res.Returns o r o' → Alone P img (P.next x r) o'

/-- A call of process `p` with this result is in progress. -/
def Ctl.Pends (p : Pid) : Ctl → OwnResult → Prop
  | .reading q _, .terminal | .waiting q, .rtc => q = p
  | _, _ => False

theorem Ctl.Pends.reads {p : Pid} {c : Ctl} {w : OwnResult} (h : c.Pends p w) : c.Reads p := by
  cases c with
  | reading q x => cases w <;> first | exact h | exact h.elim
  | waiting q => cases w <;> first | exact h | exact h.elim
  | _ => exact h.elim

/-- A call in progress returns what it may return. -/
theorem Ctl.Reads.returns {p : Pid} {c : Ctl} {r : Reply} (h : c.Reads p) (hr : c.Replies r) :
    ∃ w, c.Pends p w ∧ ∀ o, w.Returns o r o := by
  cases c with
  | reading q x =>
    refine ⟨.terminal, h, fun o => ?_⟩
    obtain ⟨line, rfl⟩ := hr
    exact .terminal
  | waiting q =>
    refine ⟨.rtc, h, fun o => ?_⟩
    obtain rfl : r = ⟨0, []⟩ := hr
    exact .rtc
  | _ => exact h.elim

namespace Machine

variable {img : Image} {m m' : Machine} {e : Event} {p : Pid} {A : Term → List Pid}

/-- A process whose `read` is in progress is the one that runs, if its thread is that of the
terminal that runs. -/
theorem StackInv.pends_running (h : StackInv m A) (hc : m.ctl.Serves p) {t : Term} {c : Ctl}
    (hth : m.thread t = some c) (hr : c.Reads p) : c = m.ctl := by
  have hidle : m.ctl ≠ .idle := by
    intro hi
    rw [hi] at hc
    exact hc
  obtain ⟨u, q, hu, hq, hth', hok⟩ := h.running hidle
  obtain rfl : p = q := ((serves_threadOk hc).2 _ _).mp hok
  obtain ⟨q', hq'⟩ := h.thread_live hth
  have hok' := h.table.threads t q' c hq' hth
  obtain rfl : p = q' := ((serves_threadOk hr.serves).2 _ _).mp hok'
  obtain rfl : t = u := h.table.linked.top_inj hq' hq
  exact Option.some.inj (hth.symm.trans hth')

/-- A `read` in progress that goes on is the same. -/
theorem pends_kept {w : OwnResult} (hs : step img m e = some m') (hc : m.ctl.Reads p)
    (hw : m'.ctl.Pends p w) (ht : ∀ esp ebp, e ≠ .tick esp ebp) : m.ctl.Pends p w := by
  have hcall : ∀ q, m.ctl ≠ .user q := by
    intro q hq
    rw [hq] at hc
    exact hc
  cases step_cases hs with
  | tick => exact absurd rfl (ht _ _)
  | key heq => rwa [heq] at hw
  | mouse _ hctl => rwa [hctl] at hw
  | rtc heq => rwa [heq] at hw
  | statement hctl =>
    rw [hctl] at hc
    exact hc.elim
  | finish hctl =>
    rw [hctl] at hc
    exact hc.elim
  | poll hctl hx =>
    rw [hctl] at hc ⊢
    simp only [Kernel.readStep] at hx
    split at hx
    · simp only [Option.some.injEq, Prod.mk.injEq] at hx
      rw [← hx.2.1] at hw
      cases w <;> exact hw
    · obtain ⟨_, _, heq⟩ := Option.map_eq_some_iff.mp hx
      simp only [Prod.mk.injEq] at heq
      rw [← heq.2.1] at hw
      exact hw.elim
    · cases hx
  | rtcPoll hctl heq =>
    rw [hctl] at hc ⊢
    rw [heq] at hw
    simp only [Kernel.rtcStep] at hw
    split at hw
    · exact hw.elim
    · cases w <;> exact hw
  | returned hq | entered hq | halt hq | haltCall hq | read hq | readTerminal hq | readRtc hq
  | write hq | open' hq | close hq | getargs hq | vidmap hq | setHandler hq | sigreturn hq =>
    exact absurd hq (hcall _)

/-- An event that is no call of process `p` starts no `read` for it. -/
theorem StackInv.pends_back (h : StackInv m A) (hc : Calm m) (ho : InOrder img m e)
    (hs : step img m e = some m') (hother : m.ctl = .user p → ¬ IsSyscall e) {t : Term} {c : Ctl}
    {w : OwnResult} (hth : m'.thread t = some c) (hw : c.Pends p w) :
    ∃ u c', m.thread u = some c' ∧ c'.Pends p w := by
  have hrunning : m.ctl.Pends p w → ∃ u c', m.thread u = some c' ∧ c'.Pends p w := by
    intro hp
    have hidle : m.ctl ≠ .idle := by
      intro hi
      rw [hi] at hp
      exact hp
    obtain ⟨u, _, _, _, hthu, _⟩ := h.running hidle
    exact ⟨u, _, hthu, hp⟩
  by_cases ht : m'.kern.proc.terminalProcessIndex = some t
  · rw [thread_self ht] at hth
    cases hth
    cases h.kind ho.2 hs with
    | quiet hq _ hsame =>
      rcases hsame with heq | ⟨q, hq1, hq2⟩
      · rw [heq] at hw
        exact hrunning hw
      · have htick : ∀ esp ebp, e ≠ .tick esp ebp := by
          rintro esp ebp rfl
          exact hq
        obtain rfl : q = p := by
          have h1 := (serves_threadOk hq2).2 m.kern.proc p
          have h2 := (serves_threadOk hw.reads.serves).2 m.kern.proc p
          exact h1.mp (h2.mpr rfl)
        rcases serves_cases hq1 with hu | hu
        · exact absurd (reads_of_user hs hu hw.reads htick) (hother hu)
        · exact hrunning (pends_kept hs hu hw htick)
    | still _ heq =>
      rw [heq] at hw
      exact hrunning hw
    | start _ _ _ hc' =>
      rw [hc'] at hw
      exact hw.elim
    | resume _ _ _ hth' => exact ⟨_, _, hth', hw⟩
    | spawn _ _ _ _ _ _ hc' =>
      rw [hc'] at hw
      exact hw.elim
    | rejected _ _ _ hc' =>
      rw [hc'] at hw
      exact hrunning hw
    | failed _ _ _ _ _ hc' =>
      rw [hc'] at hw
      exact hw.elim
    | restart => exact ho.1.elim
    | enter => exact ho.1.elim
    | exec hctl =>
      have := not_inHalt h hc
      rw [hctl] at this
      exact absurd trivial this
    | finish hctl =>
      have := not_inHalt h hc
      rw [hctl] at this
      exact absurd trivial this
    | whole hq hx =>
      obtain ⟨u, hu, _⟩ := h.user hq
      obtain ⟨_, r, heq⟩ := h.halt hq hx hu
      rw [heq] at hw
      exact hw.elim
  · exact ⟨t, c, ((h.next ho.2 (hc.not_reuse img e) hs).other t ht).symm.trans hth, hw⟩

end Machine

namespace UserProgram

open Machine

variable {σ : Type} {img : Image} {P : UserProgram σ} {m m' : Machine} {e : Event}
  {st : Programs σ} {p : Pid} {x : σ} {A : Term → List Pid}

/-- By itself, the program waits for the result `w` of a call. -/
def Waits (P : UserProgram σ) (img : Image) (m : Machine) (p : Pid) (x : σ) (w : OwnResult) :
    Prop :=
  ∃ e, P.makes x e ∧ (m.kern.proc.own p).syscall img e = some w

/-- Process `p`, whose program was in state `x` when its last call returned. A process that is not
on top of its stack is in `execute`. -/
structure At (P : UserProgram σ) (img : Image) (m : Machine) (p : Pid) (x : σ) : Prop where
  live : m.kern.proc.pidMask p = true
  alone : P.Alone img x (m.kern.proc.own p)
  reads : ∀ t c w, m.thread t = some c → c.Pends p w → P.Waits img m p x w
  child : ¬ Top m p → P.Waits img m p x .child

structure Inv (P : UserProgram σ) (img : Image) (m : Machine) (st : Programs σ) : Prop where
  tables : ∃ A, StackInv m A
  calm : Calm m
  programs : ∀ p x, st p = some x → P.At img m p x

theorem own_eq {k k' : Kernel} (hu : Undisturbed p k.proc k'.proc) :
    k'.proc.own p = k.proc.own p := by
  simp only [Proc.own, hu.fdarray, hu.argsArray]

/-- An event that is no call of the process leaves its own alone. -/
theorem undisturbed (h : StackInv m A) (hc : Calm m) (hs : Machine.step img m e = some m')
    (hlive : m.kern.proc.pidMask p = true) (hother : m.ctl = .user p → ¬ IsSyscall e) :
    Undisturbed p m.kern.proc m'.kern.proc := by
  refine step_undisturbed hs hlive (fun he hcur => ?_) (not_inHalt h hc)
  obtain ⟨y, hcall, _⟩ := Option.map_eq_some_iff.mp hs
  obtain ⟨q, hq, _⟩ := call_user hcall he
  obtain rfl : q = p := Option.some.inj ((h.currPid hq).symm.trans hcur)
  exact hother hq he

theorem at_next (h : StackInv m A) (hc : Calm m) (ho : InOrder img m e)
    (hs : Machine.step img m e = some m') (hp : P.At img m p x)
    (hother : m.ctl = .user p → ¬ IsSyscall e) : P.At img m' p x := by
  have hu := undisturbed h hc hs hp.live hother
  have hown := own_eq hu
  have hwaits : ∀ w, P.Waits img m p x w → P.Waits img m' p x w := by
    rintro w ⟨e', hm, hw⟩
    exact ⟨e', hm, by rw [hown]; exact hw⟩
  refine ⟨hu.pidMask.trans hp.live, by rw [hown]; exact hp.alone, fun t c w hth hw => ?_,
    fun htop => ?_⟩
  · obtain ⟨u, c', hth', hw'⟩ := h.pends_back hc ho hs hother hth hw
    exact hwaits w (hp.reads u c' w hth' hw')
  · exact hwaits _ (hp.child fun ht => htop (h.top_next hc ho hs ht hother))

/-- The program that runs. -/
theorem at_user (h : StackInv m A) (hcalm : Calm m) (hc : m.ctl = .user p)
    (ha : P.Alone img x (m.kern.proc.own p)) : P.At img m p x := by
  obtain ⟨htop, hfree⟩ := h.user_top hc
  exact ⟨h.pidMask hcalm htop, ha, fun t c w hth hw => absurd hw.reads (hfree t c hth),
    fun hn => absurd htop hn⟩

/-- The process whose `read` has just begun. -/
theorem at_pending (h : StackInv m A) (hcalm : Calm m) {w : OwnResult} (hc : m.ctl.Pends p w)
    (ha : P.Alone img x (m.kern.proc.own p)) (hw : P.Waits img m p x w) : P.At img m p x := by
  have hidle : m.ctl ≠ .idle := by
    intro hi
    rw [hi] at hc
    exact hc
  obtain ⟨u, q, hu, hq, _, hok⟩ := h.running hidle
  obtain rfl : p = q := ((serves_threadOk hc.reads.serves).2 _ _).mp hok
  refine ⟨h.pidMask hcalm ⟨u, hq⟩, ha, fun t c w' hth hw' => ?_, fun hn => absurd ⟨u, hq⟩ hn⟩
  obtain rfl := h.pends_running hc.reads.serves hth hw'.reads
  have hsame : w' = w := by
    cases hctl : m.ctl <;> rw [hctl] at hc hw' <;> cases w <;> cases w' <;>
      first | rfl | exact hc.elim | exact hw'.elim
  rw [hsame]
  exact hw

section Next

variable (hi : P.Inv img m st) (ho : P.Ok img (m, st) e)
include hi ho

/-- A call of a known program, other than `halt`. -/
theorem own_call {y : Option Reply} (hcall : Machine.call img m e = some (m', y))
    (hp : st p = some x) (hc : m.ctl = .user p) (he : IsSyscall e) (hh : ∀ s, e ≠ .halt s) :
    P.makes x e ∧ ∃ res, (m.kern.proc.own p).syscall img e = some res ∧
      res.Goes p (m.kern.proc.own p) m' y := by
  obtain ⟨A, h⟩ := hi.tables
  obtain ⟨q, hq, hsys⟩ := call_user hcall he
  obtain rfl : q = p := Ctl.user.inj (hq.symm.trans hc)
  obtain ⟨htop, _⟩ := h.user_top hq
  refine ⟨ho.follows q x hq hp he, goes_of_syscall ⟨h.currPid hq, h.topPcb htop⟩ (hi.programs q x hp).live
    hsys fun s => ⟨hh s, ?_⟩⟩
  rintro rfl
  exact ho.order.1

theorem answered (hs : Machine.step img m e = some m') {A' : Term → List Pid}
    (h' : StackInv m' A') (hcalm' : Calm m') {r : Reply}
    (hcall : Machine.call img m e = some (m', some r)) (hp : P.answer m' r st p = some x) :
    P.At img m' p x := by
  obtain ⟨A, h⟩ := hi.tables
  have hothers : ∀ {q : Pid}, m'.ctl = .user q → p ≠ q → st p = some x := by
    intro q hq hne
    simp only [answer, program_eq_some.mpr hq, Function.update_of_ne hne] at hp
    exact hp
  have hself : m'.ctl = .user p → ∃ x0, st p = some x0 ∧ P.next x0 r = x := by
    intro hq
    simp only [answer, program_eq_some.mpr hq, Function.update_self] at hp
    exact Option.map_eq_some_iff.mp hp
  by_cases he : IsSyscall e
  · obtain ⟨q, hq, hsys⟩ := call_user hcall he
    have hq' := call_reply hcall he hq
    by_cases hpq : p = q
    · subst hpq
      obtain ⟨x0, hx0, rfl⟩ := hself hq'
      have hh : ∀ s, e ≠ .halt s := by
        rintro s rfl
        obtain ⟨_, _, heq⟩ := Option.map_eq_some_iff.mp hsys
        cases heq
      obtain ⟨hm, res, hres, hgoes⟩ := own_call hi ho hcall hx0 hq he hh
      have halone := (hi.programs p x0 hx0).alone
      cases hgoes with
      | ret _ hown =>
        refine at_user h' hcalm' hq' (.call halone hm hres ?_)
        rw [hown]
        exact .ret
      | failed _ hown =>
        refine at_user h' hcalm' hq' (.call halone hm hres ?_)
        rw [hown]
        exact .child
    · refine at_next h hi.calm ho.order hs (hi.programs p x (hothers hq' hpq)) fun hp' _ => ?_
      exact hpq (Ctl.user.inj (hp'.symm.trans hq))
  · obtain ⟨q, hq, hr, hq'⟩ := late_reply hcall he (not_inHalt h hi.calm)
    by_cases hpq : p = q
    · subst hpq
      obtain ⟨x0, hx0, rfl⟩ := hself hq'
      have hat := hi.programs p x0 hx0
      obtain ⟨w, hw, hreturns⟩ := hq.returns hr
      have hidle : m.ctl ≠ .idle := by
        intro hidle
        rw [hidle] at hq
        exact hq
      obtain ⟨t, _, _, _, hth, _⟩ := h.running hidle
      obtain ⟨e', hm, hres⟩ := hat.reads t _ w hth hw
      refine at_user h' hcalm' hq' (.call hat.alone hm hres ?_)
      rw [own_eq (undisturbed h hi.calm hs hat.live fun _ => he)]
      exact hreturns _
    · exact at_next h hi.calm ho.order hs (hi.programs p x (hothers hq' hpq)) fun _ => he

/-- An event that returns from no call and leaves the program as it is. -/
theorem kept (hs : Machine.step img m e = some m') {A' : Term → List Pid} (h' : StackInv m' A')
    (hcalm' : Calm m') (hcall : Machine.call img m e = some (m', none)) (hh : ∀ s, e ≠ .halt s)
    (hp : st p = some x) : P.At img m' p x := by
  obtain ⟨A, h⟩ := hi.tables
  by_cases hown : m.ctl = .user p ∧ IsSyscall e
  · obtain ⟨hc, he⟩ := hown
    obtain ⟨hm, res, hres, hgoes⟩ := own_call hi ho hcall hp hc he hh
    have halone := (hi.programs p x hp).alone
    have hwaits : m'.kern.proc.own p = m.kern.proc.own p → P.Waits img m' p x res := fun heq =>
      ⟨e, hm, by rw [heq]; exact hres⟩
    cases hgoes with
    | terminal hctl heq =>
      refine at_pending h' hcalm' ?_ (by rw [heq]; exact halone) (hwaits heq)
      rw [hctl]
      rfl
    | rtc hctl heq =>
      refine at_pending h' hcalm' ?_ (by rw [heq]; exact halone) (hwaits heq)
      rw [hctl]
      rfl
    | child hctl hne hlive heq =>
      refine ⟨hlive, by rw [heq]; exact halone, fun t c w hth hw => ?_, fun _ => hwaits heq⟩
      -- the thread of the child is another one, and all others are as they were
      exfalso
      by_cases ht : m'.kern.proc.terminalProcessIndex = some t
      · rw [thread_self ht, hctl] at hth
        cases hth
        exact hw
      · rw [(h.next ho.order.2 (hi.calm.not_reuse img e) hs).other t ht] at hth
        exact (h.user_top hc).2 t c hth hw.reads
  · exact at_next h hi.calm ho.order hs (hi.programs p x hp) fun hc he => hown ⟨hc, he⟩

/-- `halt`: the parent goes on behind its call of `execute`. -/
theorem halted {status : UInt8} (he : e = .halt status) (hs : Machine.step img m e = some m')
    {A' : Term → List Pid} (h' : StackInv m' A') (hcalm' : Calm m')
    (hcall : Machine.call img m e = some (m', none)) (hp : P.silent img m m' st e p = some x) :
    P.At img m' p x := by
  obtain ⟨A, h⟩ := hi.tables
  subst he
  obtain ⟨q, hq, hsys⟩ := call_user hcall trivial
  obtain ⟨⟨k', c'⟩, hx, heq⟩ := Option.map_eq_some_iff.mp hsys
  cases heq
  simp only [silent, program_eq_some.mpr hq, Option.elim_some, exited] at hp
  have hold : p ≠ q → st p = some x → P.At img ⟨k', c'⟩ p x := fun hpq hx =>
    at_next h hi.calm ho.order hs (hi.programs p x hx) fun hp' _ =>
      hpq (Ctl.user.inj (hp'.symm.trans hq))
  by_cases hpq : p = q
  · -- nothing is known of the shell that starts again
    exfalso
    subst hpq
    split at hp
    · rw [Function.update_self] at hp
      cases hp
    · rename_i hne
      cases hc : (⟨k', c'⟩ : Machine).program with
      | none =>
        simp only [answer, hc, Function.update_self] at hp
        cases hp
      | some c =>
        have hcp : p ≠ c := by
          rintro rfl
          exact hne hc
        simp only [answer, hc, Function.update_of_ne hcp, Function.update_self] at hp
        cases hp
  · split at hp
    · rw [Function.update_of_ne hpq] at hp
      exact hold hpq hp
    · cases hc : (⟨k', c'⟩ : Machine).program with
      | none =>
        simp only [answer, hc, Function.update_of_ne hpq] at hp
        exact hold hpq hp
      | some c =>
        by_cases hpc : p = c
        · subst hpc
          simp only [answer, hc, Function.update_self, Function.update_of_ne hpq] at hp
          obtain ⟨x0, hx0, rfl⟩ := Option.map_eq_some_iff.mp hp
          have hat := hi.programs p x0 hx0
          have hctl := program_eq_some.mp hc
          obtain ⟨e', hm, hres⟩ := hat.child (h.not_top_of_halt hq hx hctl hpq)
          have hu := undisturbed h hi.calm hs hat.live fun hp' _ =>
            hpq (Ctl.user.inj (hp'.symm.trans hq))
          refine at_user h' hcalm' hctl (.call hat.alone hm hres ?_)
          rw [own_eq hu]
          exact .child
        · simp only [answer, hc, Function.update_of_ne hpc, Function.update_of_ne hpq] at hp
          exact hold hpq hp

theorem spawned {command : Option CString} {esp ebp : Nat} (he : e = .execute command esp ebp)
    (hs : Machine.step img m e = some m') {A' : Term → List Pid} (h' : StackInv m' A')
    (hcalm' : Calm m') (hcall : Machine.call img m e = some (m', none))
    (hp : P.silent img m m' st e p = some x) : P.At img m' p x := by
  have hkept : st p = some x → P.At img m' p x :=
    kept hi ho hs h' hcalm' hcall (by rw [he]; simp)
  subst he
  obtain ⟨q, hq, hsys⟩ := call_user hcall trivial
  simp only [syscall, execute] at hsys
  split at hsys
  · cases hsys
  · rename_i c proc hx
    cases hsys
    cases command with
    | none => exact hkept hp
    | some cmd =>
      have hprog : (⟨{ m.kern with proc := proc }, .user c⟩ : Machine).program = some c := rfl
      simp only [silent, hprog, Option.elim_some] at hp
      by_cases hpc : p = c
      · subst hpc
        rw [Function.update_self] at hp
        exact at_user h' hcalm' rfl (.enter hp (Kernel.Enters.own_fresh ⟨_, _, _, hx⟩))
      · rw [Function.update_of_ne hpc] at hp
        exact hkept hp
  · cases hsys

theorem ticked {esp ebp : Nat} (he : e = .tick esp ebp) (hs : Machine.step img m e = some m')
    {A' : Term → List Pid} (h' : StackInv m' A') (hcalm' : Calm m')
    (hcall : Machine.call img m e = some (m', none)) (hp : P.silent img m m' st e p = some x) :
    P.At img m' p x := by
  have hkept : st p = some x → P.At img m' p x :=
    kept hi ho hs h' hcalm' hcall (by rw [he]; simp)
  subst he
  cases hstart : Machine.started img m (.tick esp ebp) with
  | none =>
    simp only [silent, hstart, Option.elim_none] at hp
    exact hkept hp
  | some c =>
    simp only [silent, hstart, Option.elim_some] at hp
    split at hp
    · rename_i hprog
      by_cases hpc : p = c
      · subst hpc
        rw [Function.update_self] at hp
        have hctl := program_eq_some.mp hprog
        exact at_user h' hcalm' hctl (.enter hp (started_enters hs hstart hctl).own_fresh)
      · rw [Function.update_of_ne hpc] at hp
        exact hkept hp
    · exact hkept hp

/-- One event. -/
theorem inv_next (hs : Machine.step img m e = some m') : P.Inv img m' (P.record img m e st) := by
  obtain ⟨A, h⟩ := hi.tables
  have h' := (h.next ho.order.2 (hi.calm.not_reuse img e) hs).inv
  have hcalm' := h.calm hi.calm ho.order.1 ho.order.2 hs
  obtain ⟨⟨m1, y⟩, hcall, rfl⟩ := Option.map_eq_some_iff.mp hs
  refine ⟨⟨_, h'⟩, hcalm', fun p x hp => ?_⟩
  simp only [record, hcall] at hp
  cases y with
  | some r => exact answered hi ho hs h' hcalm' hcall hp
  | none =>
    cases e with
    | halt status => exact halted hi ho rfl hs h' hcalm' hcall hp
    | haltCall status => exact ho.order.1.elim
    | execute command esp ebp => exact spawned hi ho rfl hs h' hcalm' hcall hp
    | tick esp ebp => exact ticked hi ho rfl hs h' hcalm' hcall hp
    | _ => exact kept hi ho hs h' hcalm' hcall (by simp) hp

end Next

theorem reach_inv {s : Machine × Programs σ} (h : Reach (P.step img) Boot (P.Ok img) s) :
    P.Inv img s.1 s.2 := by
  refine h.inv (I := fun s => P.Inv img s.1 s.2) ?_ ?_
  · rintro s ⟨hb, hnone⟩
    refine ⟨⟨_, hb.stackInv⟩, hb.calm, fun p x hp => ?_⟩
    rw [hnone p] at hp
    cases hp
  · rintro ⟨m, st⟩ e ⟨m', st'⟩ hi hok hs
    obtain ⟨hs, rfl⟩ := withHistory_eq_some.mp hs
    exact inv_next hi hok hs

/-- Process `p` is as the program by itself could have left it. When it runs, its calls do in the
machine what they do over its own descriptors and arguments, and the machine takes those that are
settled there. -/
structure Isolated (P : UserProgram σ) (img : Image) (m : Machine) (p : Pid) (x : σ) : Prop where
  alone : P.Alone img x (m.kern.proc.own p)
  goes : ∀ e m' y, m.ctl = .user p → IsSyscall e → (∀ s, e ≠ .halt s ∧ e ≠ .haltCall s) →
    Machine.call img m e = some (m', y) → ∃ res, (m.kern.proc.own p).syscall img e = some res ∧
      res.Goes p (m.kern.proc.own p) m' y
  takes : ∀ e res, m.ctl = .user p → OwnCall e → (m.kern.proc.own p).syscall img e = some res →
    ∃ m' y, Machine.call img m e = some (m', y) ∧ res.Goes p (m.kern.proc.own p) m' y

theorem Inv.isolated (hi : P.Inv img m st) (hp : st p = some x) : P.Isolated img m p x := by
  obtain ⟨A, h⟩ := hi.tables
  have hat := hi.programs p x hp
  have hruns : m.ctl = .user p → m.kern.Runs p := fun hc =>
    ⟨h.currPid hc, h.topPcb (h.user_top hc).1⟩
  refine ⟨hat.alone, fun e m' y hc he hh hcall => ?_, fun e res hc he hres => ?_⟩
  · obtain ⟨q, hq, hsys⟩ := call_user hcall he
    obtain rfl : q = p := Ctl.user.inj (hq.symm.trans hc)
    exact goes_of_syscall (hruns hq) hat.live hsys hh
  · obtain ⟨m', y, hsys, hgoes⟩ := syscall_of_own (hruns hc) hat.live he hres
    exact ⟨m', y, (call_of_user img hc he.isSyscall).trans hsys, hgoes⟩

end UserProgram

/-- In every run in order in which the copy of no program fails, each process is as if it were alone
with its descriptors and its arguments, and its system calls do with them what they do there. -/
theorem processes_isolated {σ : Type} (P : UserProgram σ) (img : Image) (s : Machine × Programs σ)
    (h : Reach (P.step img) UserProgram.Boot (P.Ok img) s) (p : Pid) (x : σ) (hp : s.2 p = some x) :
    P.Isolated img s.1 p x :=
  (UserProgram.reach_inv h).isolated hp

/-- A program that makes any calls and counts the bytes it gets. -/
def countBytes : UserProgram Nat where
  start _ := some 0
  makes _ _ := True
  next n r := n + r.out.length

instance (x : Nat) (e : Event) : Decidable (countBytes.makes x e) :=
  inferInstanceAs (Decidable True)

/-- Two programs on two terminals have the same file open, and read it in turns. -/
theorem processes_isolated_turns : ∃ s : Machine × Programs Nat, s.2 3 = some 20 ∧ s.2 4 = some 8 ∧
    countBytes.Isolated Machine.disk s.1 3 20 ∧ countBytes.Isolated Machine.disk s.1 4 8 := by
  have hrun : (run (fun s e => if countBytes.check Machine.disk s e then
      countBytes.step Machine.disk s e else none) (Machine.booted, fun _ => none)
      [.tick 0 0, .tick 0 0, .tick 0 0, .tick 0 0, .execute (some Machine.catName) 0 0,
        .open' (some shellName), .read 2 (some fun _ => 0) 10, .key 1 0x38, .key 1 0x3C, .tick 0 0,
        .execute (some Machine.catName) 0 0, .open' (some shellName), .read 2 (some fun _ => 0) 8,
        .tick 0 0, .read 2 (some fun _ => 0) 10]).map (fun s => (s.2 3, s.2 4)) =
          some (some 20, some 8) := by
    decide +kernel
  obtain ⟨s, hs, heq⟩ := Option.map_eq_some_iff.mp hrun
  simp only [Prod.mk.injEq] at heq
  obtain ⟨h3, h4⟩ := heq
  have hreach : Reach (countBytes.step Machine.disk) UserProgram.Boot
      (countBytes.Ok Machine.disk) s :=
    Reach.of_checked (UserProgram.Ok.of_check _ Machine.shellLoads_disk)
      (.init ⟨Machine.boot_booted, fun _ => rfl⟩) hs
  exact ⟨s, h3, h4, processes_isolated countBytes Machine.disk s hreach 3 20 h3,
    processes_isolated countBytes Machine.disk s hreach 4 8 h4⟩

end DeviceOS
