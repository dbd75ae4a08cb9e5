import DeviceOS.StackInvariant

/-!
# DeviceOS.StackSteps

The invariant of the process tables for a whole machine, through the timer and `execute`.

* `Machine.StackInv m A`: the invariant of a machine whose process stacks are `A`.
* `Machine.StackStep m m' A`: a step to such a machine, in which no suspended thread changes.
* `StackInv.quiet`: events that leave the process tables alone.
* `StackInv.resume`, `StackInv.startShell`: the timer switches to a process, or starts a base shell,
  whose pid is the number of its terminal.
* `StackInv.spawn`, `StackInv.failedExecute`: `execute` by the process of the displayed terminal.
-/

namespace DeviceOS

theorem Proc.freePid_lt {p : Proc} {q r : Pid} (h : p.freePid = some q) (hr : r < q) :
    p.pidMask r = true := by
  obtain ⟨i, hi, hq, hj⟩ := List.find?_eq_some_iff_getElem.mp h |>.2
  have hi' : i < 6 := by simpa using hi
  have hqi : q.val = i := by
    rw [List.getElem_finRange] at hq
    rw [← hq]
    rfl
  have hlt : r.val < q.val := hr
  have := hj r.val (by omega)
  rw [List.getElem_finRange] at this
  simpa using this

/-- The terminals that have been started, in the order in which the timer starts them. Until all
three run, the one that runs is the last one. -/
def Proc.Progress (p : Proc) : Prop :=
  (p.terminalProcessIndex = none ∧ ∀ t, p.pidArr t = none) ∨
  (∃ s, p.terminalProcessIndex = some s ∧ ∀ t, p.pidArr t ≠ none ↔ t.val ≤ s.val) ∨
  (p.terminalProcessIndex ≠ none ∧ ∀ t, p.pidArr t ≠ none)

theorem Proc.Progress.congr {p p' : Proc} (h : p.Progress)
    (ht : p'.terminalProcessIndex = p.terminalProcessIndex)
    (ha : ∀ t, p'.pidArr t = none ↔ p.pidArr t = none) : p'.Progress := by
  simp only [Progress, ne_eq, ht, ha] at h ⊢
  exact h

theorem Proc.Progress.live {p : Proc} (h : p.Progress) {t : Term}
    (ht : p.terminalProcessIndex = some t) : ∃ q, p.pidArr t = some q := by
  rw [← Option.ne_none_iff_exists']
  rcases h with ⟨hn, _⟩ | ⟨s, hs, hall⟩ | ⟨_, hall⟩
  · rw [hn] at ht; cases ht
  · rw [hs] at ht
    cases ht
    exact (hall _).mpr le_rfl
  · exact hall t

theorem Kernel.search_empty {k : Kernel} {start : Option Term} {n : Nat} {t : Term}
    (ht : k.proc.pidArr t = none) (hs : some t ≠ start) : k.search start (n + 1) t = some t := by
  simp [search, hs, passedOver, ht]

/-- While a terminal is missing, the next tick moves to the first missing one. -/
theorem Kernel.nextTerminal_missing {k : Kernel} {s : Term}
    (hs : k.proc.terminalProcessIndex = some s)
    (hall : ∀ t, k.proc.pidArr t ≠ none ↔ t.val ≤ s.val) (hlt : s.val < 2) :
    k.nextTerminal = some (s + 1) ∧ (s + 1).val = s.val + 1 ∧ k.proc.pidArr (s + 1) = none := by
  have hnext : (s + 1).val = s.val + 1 := by
    have : ∀ s : Fin 3, s.val < 2 → (s + 1).val = s.val + 1 := by decide
    exact this s hlt
  have hempty : k.proc.pidArr (s + 1) = none := by
    by_contra hne
    have := (hall (s + 1)).mp hne
    omega
  have hne : some (s + 1) ≠ some s := by
    intro heq
    have := congrArg (Option.map Fin.val) heq
    simp only [Option.map_some, Option.some.injEq] at this
    omega
  refine ⟨?_, hnext, hempty⟩
  rw [nextTerminal, hs, nextTerm, search_empty hempty hne]

/-- A tick that finds an empty terminal is at the first one that has not been started. -/
theorem Proc.Progress.next {k : Kernel} (h : k.proc.Progress) {t : Term}
    (ht : k.nextTerminal = some t) (he : k.proc.pidArr t = none) :
    ∀ u, k.proc.pidArr u ≠ none ↔ u.val < t.val := by
  rcases h with ⟨hn, hall⟩ | ⟨s, hs, hall⟩ | ⟨_, hall⟩
  · rw [Kernel.nextTerminal, hn, Kernel.nextTerm,
      Kernel.search_empty (hall 0) (by simp)] at ht
    cases ht
    intro u
    simp [hall u]
  · have hlt : s.val < 2 := by
      by_contra hge
      exact (hall t).mpr (by omega) he
    obtain ⟨hnext, hval, _⟩ := Kernel.nextTerminal_missing hs hall hlt
    rw [hnext] at ht
    cases ht
    intro u
    rw [hall u, hval]
    omega
  · exact absurd he (hall t)

namespace Machine

/-- The context of terminal `t`: it runs, or it is stored in the PCB of the process on top. -/
def thread (m : Machine) (t : Term) : Option Ctl :=
  if m.kern.proc.terminalProcessIndex = some t then some m.ctl
  else (m.kern.proc.pidArr t).map fun q => (m.kern.proc.pcb q).program

structure StackInv (m : Machine) (A : Term → List Pid) : Prop where
  table : TableInv m.kern.proc m.thread A
  progress : m.kern.proc.Progress
  idle : m.kern.proc.terminalProcessIndex = none → m.ctl = .idle

variable {img : Image} {m m' : Machine} {A : Term → List Pid} {t : Term} {q : Pid}

theorem thread_self (ht : m.kern.proc.terminalProcessIndex = some t) :
    m.thread t = some m.ctl := by
  simp [thread, ht]

theorem thread_of_ne (ht : m.kern.proc.terminalProcessIndex ≠ some t) :
    m.thread t = (m.kern.proc.pidArr t).map fun q => (m.kern.proc.pcb q).program := by
  simp [thread, ht]

/-- A thread that is not in the idle loop is the one of the running terminal. -/
theorem StackInv.running (h : StackInv m A) (hc : m.ctl ≠ .idle) :
    ∃ t q, m.kern.proc.terminalProcessIndex = some t ∧ m.kern.proc.pidArr t = some q ∧
      m.thread t = some m.ctl ∧ ThreadOk m.kern.proc q m.ctl := by
  obtain ⟨t, ht⟩ := Option.ne_none_iff_exists'.mp fun hn => hc (h.idle hn)
  obtain ⟨q, hq⟩ := h.progress.live ht
  have hth := thread_self ht
  exact ⟨t, q, ht, hq, hth, h.table.threads t q _ hq hth⟩

/-- A step to a machine whose stacks are `A`. Only the thread that runs after the step can differ
from what it was. -/
structure StackStep (m m' : Machine) (A : Term → List Pid) : Prop where
  inv : StackInv m' A
  other : ∀ u, m'.kern.proc.terminalProcessIndex ≠ some u → m'.thread u = m.thread u

/-- A change at the running terminal only. -/
theorem StackInv.of_update (h : StackInv m A) {A' : Term → List Pid}
    (ht : m.kern.proc.terminalProcessIndex = some t)
    (htable : TableInv m'.kern.proc (Function.update m.thread t (some m'.ctl)) A')
    (htpi : m'.kern.proc.terminalProcessIndex = m.kern.proc.terminalProcessIndex)
    (harr : ∀ u, u ≠ t → m'.kern.proc.pidArr u = m.kern.proc.pidArr u)
    (hlive : m'.kern.proc.pidArr t ≠ none)
    (hprog : ∀ u q, u ≠ t → m.kern.proc.pidArr u = some q →
      (m'.kern.proc.pcb q).program = (m.kern.proc.pcb q).program) : StackStep m m' A' := by
  have hthread : m'.thread = Function.update m.thread t (some m'.ctl) := by
    funext u
    by_cases hu : u = t
    · subst hu
      rw [Function.update_self, thread_self (htpi.trans ht)]
    · have hne : m.kern.proc.terminalProcessIndex ≠ some u := by
        rw [ht]
        exact fun heq => hu (Option.some.inj heq).symm
      rw [Function.update_of_ne hu, thread_of_ne hne, thread_of_ne (by rwa [htpi]), harr u hu]
      cases hq : m.kern.proc.pidArr u with
      | none => rfl
      | some q => rw [Option.map_some, Option.map_some, hprog u q hu hq]
  refine ⟨⟨hthread ▸ htable, h.progress.congr htpi fun u => ?_, fun hn => ?_⟩, fun u hu => ?_⟩
  · by_cases hu : u = t
    · subst hu
      obtain ⟨q, hq⟩ := h.progress.live ht
      simp [hlive, hq]
    · rw [harr u hu]
  · rw [htpi, ht] at hn
    cases hn
  · rw [hthread, Function.update_of_ne]
    rintro rfl
    exact hu (htpi.trans ht)

/-- The thread that runs moves on; nothing else changes. -/
theorem StackInv.move (h : StackInv m A) (hs : SameShape m.kern.proc m'.kern.proc)
    (hprog : ∀ q, (m'.kern.proc.pcb q).program = (m.kern.proc.pcb q).program)
    (htpi : m'.kern.proc.terminalProcessIndex = m.kern.proc.terminalProcessIndex)
    (ht : m.kern.proc.terminalProcessIndex = some t) (hq : m.kern.proc.pidArr t = some q)
    (hrel : m'.ctl.releases = m.ctl.releases) (hok : ThreadOk m'.kern.proc q m'.ctl) :
    StackStep m m' A :=
  h.of_update ht (h.table.setThread hs hq (thread_self ht) hrel hok) htpi
    (fun u _ => by rw [hs.pidArr]) (by rw [hs.pidArr, hq]; simp) fun _ q _ _ => hprog q

theorem serves_threadOk {c : Ctl} {p : Pid} (h : c.Serves p) :
    c.releases = none ∧ ∀ P q, ThreadOk P q c ↔ p = q := by
  cases c with
  | user r => cases h; exact ⟨rfl, fun _ _ => Iff.rfl⟩
  | reading r x => cases h; exact ⟨rfl, fun _ _ => Iff.rfl⟩
  | waiting r => cases h; exact ⟨rfl, fun _ _ => Iff.rfl⟩
  | _ => exact h.elim

/-- Events that leave the process tables alone keep the invariant. -/
theorem StackInv.quiet (h : StackInv m A) (hs : SameTables m.kern.proc m'.kern.proc)
    (hc : SameThread m.ctl m'.ctl) : StackStep m m' A := by
  cases ht : m.kern.proc.terminalProcessIndex with
  | none =>
    have hidle := h.idle ht
    have hctl : m'.ctl = m.ctl := by
      rcases hc with hc | ⟨p, hp, _⟩
      · exact hc
      · rw [hidle] at hp
        exact hp.elim
    have hthread : m'.thread = m.thread := by
      funext u
      rw [thread_of_ne (by rw [hs.terminalProcessIndex, ht]; simp), thread_of_ne (by simp [ht]),
        hs.pidArr]
      simp only [(hs.pcb _).program]
    exact ⟨⟨h.table.congr hs.sameShape hthread,
      h.progress.congr hs.terminalProcessIndex fun u => by rw [hs.pidArr],
      fun _ => by rw [hctl]; exact hidle⟩, fun u _ => by rw [hthread]⟩
  | some t =>
    obtain ⟨q, hq⟩ := h.progress.live ht
    have hok := h.table.threads t q _ hq (thread_self ht)
    have hkeep : m'.ctl.releases = m.ctl.releases ∧ ThreadOk m'.kern.proc q m'.ctl := by
      rcases hc with hc | ⟨p, hp, hp'⟩
      · rw [hc]
        exact ⟨rfl, hs.sameShape.threadOk hok⟩
      · obtain ⟨h1, h2⟩ := serves_threadOk hp
        obtain ⟨h1', h2'⟩ := serves_threadOk hp'
        exact ⟨h1'.trans h1.symm, (h2' _ _).mpr ((h2 _ _).mp hok)⟩
    exact h.move hs.sameShape (fun q => (hs.pcb q).program) hs.terminalProcessIndex ht hq
      hkeep.1 hkeep.2

/-! ## The timer -/

theorem suspended_sameShape (k : Kernel) (ctl : Ctl) (t : Term) :
    SameShape k.proc (k.suspended ctl t).proc := by
  refine ⟨rfl, rfl, rfl, fun q => ?_⟩
  rcases k.suspended_pcb ctl t q with h | h
  · rw [h]
    exact ⟨rfl, rfl⟩
  · rw [h]
    exact ⟨rfl, rfl⟩

/-- After the context is stored, every thread is in the PCB of the process on top of its stack. -/
theorem StackInv.saved (h : StackInv m A) (t : Term) (u : Term) :
    (m.kern.proc.pidArr u).map (fun q => ((m.kern.suspended m.ctl t).proc.pcb q).program) =
      m.thread u := by
  simp only [Kernel.suspended, Kernel.onProc]
  cases hs : m.kern.proc.terminalProcessIndex with
  | none =>
    rw [thread_of_ne (by simp [hs])]
    simp
  | some s =>
    obtain ⟨q0, hq0⟩ := h.progress.live hs
    simp only [Option.bind_some, hq0]
    by_cases hu : u = s
    · subst hu
      rw [thread_self hs, hq0]
      simp
    · rw [thread_of_ne (by rw [hs]; exact fun heq => hu (Option.some.inj heq).symm)]
      cases hq : m.kern.proc.pidArr u with
      | none => rfl
      | some q =>
        have hne : q ≠ q0 := by
          rintro rfl
          exact hu (h.table.linked.top_inj hq hq0)
        simp [Function.update_of_ne hne]

theorem StackInv.resume (h : StackInv m A) (ht : m.kern.nextTerminal = some t)
    (hq : m.kern.proc.pidArr t = some q)
    (hp : m'.kern.proc = (m.kern.resumed m.ctl t q).proc) (hc : m.thread t = some m'.ctl) :
    StackStep m m' A := by
  have hthread : m'.thread = m.thread := by
    funext u
    by_cases hu : u = t
    · subst hu
      rw [hc]
      exact thread_self (by rw [hp]; rfl)
    · rw [← h.saved t u, thread_of_ne, hp]
      · rfl
      · rw [hp]
        exact fun heq => hu (Option.some.inj heq).symm
  have hshape : SameShape m.kern.proc m'.kern.proc := by
    obtain ⟨h1, h2, h3, h4⟩ := suspended_sameShape m.kern m.ctl t
    rw [hp]
    exact ⟨h1, h2, h3, h4⟩
  have htpi : m'.kern.proc.terminalProcessIndex = some t := by rw [hp]; rfl
  have hall' : (∀ u, m.kern.proc.pidArr u ≠ none) → m'.kern.proc.Progress := fun hall =>
    Or.inr (Or.inr ⟨by rw [htpi]; simp, fun u => by rw [hshape.pidArr]; exact hall u⟩)
  refine ⟨⟨h.table.congr hshape hthread, ?_, fun hn => by rw [htpi] at hn; cases hn⟩,
    fun u _ => by rw [hthread]⟩
  rcases h.progress with ⟨hn, hall⟩ | ⟨s, hs, hall⟩ | ⟨_, hall⟩
  · rw [hall t] at hq
    cases hq
  · by_cases hlast : s.val = 2
    · exact hall' fun u => (hall u).mpr (by omega)
    · -- until all three run, the next terminal is an empty one
      obtain ⟨hnext, _, hempty⟩ := Kernel.nextTerminal_missing hs hall (by omega)
      rw [hnext] at ht
      cases ht
      rw [hempty] at hq
      cases hq
  · exact hall' hall

/-- A thread belongs to a terminal with a process. -/
theorem StackInv.thread_live (h : StackInv m A) {c : Ctl} (hc : m.thread t = some c) :
    ∃ q, m.kern.proc.pidArr t = some q := by
  by_cases ht : m.kern.proc.terminalProcessIndex = some t
  · exact h.progress.live ht
  · rw [thread_of_ne ht] at hc
    obtain ⟨q, hq, _⟩ := Option.map_eq_some_iff.mp hc
    exact ⟨q, hq⟩

/-- A `halt` in progress is the `halt` of a process that is no base shell. -/
theorem StackInv.halting_pid (h : StackInv m A) {pc : HaltPc} {l : HaltLocals}
    (hc : m.thread t = some (.halting pc l)) : 3 ≤ l.currPid.val := by
  obtain ⟨q, hq⟩ := h.thread_live hc
  exact (h.table.threads t q _ hq hc).1

/-- When the timer starts a shell, the lowest free pid is the one of its terminal. -/
theorem StackInv.freePid_eq (h : StackInv m A) (ht : m.kern.nextTerminal = some t)
    (he : m.kern.proc.pidArr t = none) : m.kern.proc.freePid = some (rootPid t) := by
  have hstarted := h.progress.next ht he
  have hlow : ∀ u : Term, u.val < t.val → m.kern.proc.pidMask (rootPid u) = true := by
    intro u hu
    have hne : A u ≠ [] := by
      intro hnil
      apply (hstarted u).mpr hu
      rw [← h.table.linked.top_eq, hnil]
      rfl
    exact h.table.mem_mask ((h.table.linked.linked u).root_mem hne) u.isLt
  have hfree : m.kern.proc.pidMask (rootPid t) = false := by
    by_contra hm
    obtain ⟨⟨u, hu⟩, _⟩ := (h.table.mask _).mp (by simpa using hm)
    have hut : t = u := rootPid_injective (h.table.base u _ hu t.isLt)
    subst hut
    rw [h.table.linked.eq_nil he] at hu
    cases hu
  cases hq : m.kern.proc.freePid with
  | none =>
    have := List.find?_eq_none.mp hq (rootPid t) (List.mem_finRange _)
    simp [hfree] at this
  | some q =>
    rcases lt_trichotomy q (rootPid t) with hlt | heq | hgt
    · have hlt' : q.val < t.val := hlt
      have := hlow ⟨q.val, by omega⟩ hlt'
      rw [show rootPid ⟨q.val, _⟩ = q from rfl, Proc.freePid_spec hq] at this
      cases this
    · rw [heq]
    · rw [Proc.freePid_lt hq hgt] at hfree
      cases hfree

/-- The shell that the timer starts is the base shell of terminal `t`. -/
theorem StackInv.shell_launched (h : StackInv m A) (ht : m.kern.nextTerminal = some t)
    (he : m.kern.proc.pidArr t = none) {regs : Frame} {p' : Proc}
    (hx : (m.kern.suspended m.ctl t).proc.execute img m.kern.con.curTerminal (some shellName) regs =
      .enter q p') :
    q = rootPid t ∧
      Launched (m.kern.suspended m.ctl t).proc p' t m.kern.con.curTerminal q regs := by
  obtain ⟨prog, p1, hl, hst, rfl⟩ := Proc.execute_enter hx
  have hq : q = rootPid t := Option.some.inj (hl.1.freePid.symm.trans (h.freePid_eq ht he))
  have hslot : Proc.pidSlot m.kern.con.curTerminal q = t := by
    have h3 : q.val < 3 := by rw [hq]; exact t.isLt
    rw [Proc.pidSlot, dif_pos h3]
    subst hq
    rfl
  have hlaunch := Proc.launch_launched prog regs hst
  rw [hslot] at hlaunch
  exact ⟨hq, hlaunch⟩

theorem StackInv.startShell (h : StackInv m A) (ht : m.kern.nextTerminal = some t)
    (he : m.kern.proc.pidArr t = none) {cur : Term} {regs : Frame}
    (hl : Launched (m.kern.suspended m.ctl t).proc m'.kern.proc t cur (rootPid t) regs)
    (hc : m'.ctl = .user (rootPid t)) :
    StackStep m m' (Function.update A t (rootPid t :: A t)) := by
  have hnil := h.table.linked.eq_nil he
  have hnothread : m.thread t = none := by
    by_contra hne
    obtain ⟨c, hc⟩ := Option.ne_none_iff_exists'.mp hne
    obtain ⟨r, hr⟩ := h.thread_live hc
    rw [he] at hr
    cases hr
  have hsmall : (rootPid t).val < 3 := t.isLt
  have hfresh : ∀ u, rootPid t ∉ A u := by
    refine h.table.fresh (Proc.freePid_spec (h.freePid_eq ht he)) fun u c hc hr => ?_
    have := (h.table.releases_top hc hr).2
    omega
  have htable := (h.table.congr (suspended_sameShape m.kern m.ctl t) rfl).launch hl hfresh
    (by
      intro u pc l hth heq
      have := h.halting_pid hth
      rw [heq] at this
      omega)
    (by rw [hnothread]; simp) (Or.inl ⟨rfl, hnil⟩)
  have htpi : m'.kern.proc.terminalProcessIndex = some t := hl.terminalProcessIndex
  have hthread : m'.thread = Function.update m.thread t (some (.user (rootPid t))) := by
    funext u
    by_cases hu : u = t
    · subst hu
      rw [Function.update_self, thread_self htpi, hc]
    · rw [Function.update_of_ne hu, ← h.saved t u, thread_of_ne]
      · rw [hl.pidArr, Function.update_of_ne hu]
        cases hr : m.kern.proc.pidArr u with
        | none =>
          rw [show (m.kern.suspended m.ctl t).proc.pidArr u = none from hr]
          rfl
        | some r =>
          have hne : r ≠ rootPid t := by
            rintro rfl
            exact hfresh u (h.table.linked.top_mem hr)
          rw [show (m.kern.suspended m.ctl t).proc.pidArr u = some r from hr]
          simp only [Option.map_some, hl.other r hne]
      · rw [htpi]
        exact fun heq => hu (Option.some.inj heq).symm
  refine ⟨⟨hthread ▸ htable, ?_, fun hn => ?_⟩, fun u hu => ?_⟩
  · refine Or.inr (Or.inl ⟨t, htpi, fun u => ?_⟩)
    rw [hl.pidArr]
    by_cases hu : u = t
    · subst hu
      simp
    · rw [Function.update_of_ne hu]
      have hval : u.val ≠ t.val := fun heq => hu (Fin.ext heq)
      exact (h.progress.next ht he u).trans (by omega)
  · rw [htpi] at hn
    cases hn
  · rw [hthread, Function.update_of_ne]
    rintro rfl
    exact hu htpi

/-! ## `execute` -/

/-- A pid that `execute` sets up is on no stack. -/
theorem StackInv.fresh (h : StackInv m A) (hq : m.kern.proc.freePid = some q)
    (hfree : ∀ u pc l, m.thread u = some (.halting pc l) → l.currPid ≠ q) : ∀ u, q ∉ A u := by
  refine h.table.fresh (Proc.freePid_spec hq) fun u c hc hrel => ?_
  obtain ⟨pc, l, rfl, _, hl⟩ := Ctl.releases_eq_some hrel
  exact hfree u pc l hc hl

/-- The process of the running terminal starts a program on its own terminal. -/
theorem StackInv.spawn (h : StackInv m A) {p : Pid} (hc : m.ctl = .user p)
    (ht : m.kern.proc.terminalProcessIndex = some t) (hp : m.kern.proc.pidArr t = some p)
    (h3 : 3 ≤ q.val) (hq : m.kern.proc.freePid = some q) {esp ebp : Nat}
    (hfree : ∀ u pc l, m.thread u = some (.halting pc l) → l.currPid ≠ q)
    (hl : Launched m.kern.proc m'.kern.proc t t q ⟨esp, ebp, some p⟩) (hc' : m'.ctl = .user q) :
    StackStep m m' (Function.update A t (q :: A t)) := by
  have hfresh := h.fresh hq hfree
  refine h.of_update ht ?_ hl.terminalProcessIndex ?_ ?_ ?_
  · rw [hc']
    refine h.table.launch hl hfresh hfree ?_ (Or.inr ⟨h3, p, hp, hp, rfl⟩)
    intro c hth
    rw [thread_self ht, hc] at hth
    cases hth
    rfl
  · intro u hu
    rw [hl.pidArr, Function.update_of_ne hu]
  · rw [hl.pidArr, Function.update_self]
    simp
  · intro u r hu hr
    have hne : r ≠ q := by
      rintro rfl
      exact hfresh u (h.table.linked.top_mem hr)
    rw [hl.other r hne]

/-- What a failing `execute` can have done to the tables: set up a PCB that is not in use. -/
theorem prepared_other {p p' : Proc} {cur : Term} {q : Pid} (h : (p.prepared cur q).Stored p') :
    (∀ r, r ≠ q → p'.pcbArray r = p.pcbArray r ∧ p'.pcb r = p.pcb r) ∧
      (p'.pcb q).program = (p.pcb q).program ∧ p'.pidArr = p.pidArr ∧ p'.pidMask = p.pidMask ∧
      p'.tss = p.tss ∧ p'.terminalProcessIndex = p.terminalProcessIndex ∧
      p'.haltValue = p.haltValue ∧ p'.pageDirectory32 = pdeOf q := by
  obtain ⟨mem, rfl, _⟩ := h
  refine ⟨fun r hr => ?_, ?_, rfl, rfl, rfl, rfl, rfl, rfl⟩
  · simp [Proc.prepared, Proc.createPcb, Proc.mapProgramMem, Function.update_of_ne hr]
  · simp [Proc.prepared, Proc.createPcb, Proc.mapProgramMem]

/-- An `execute` that returns leaves the stacks as they were. -/
theorem StackInv.failedExecute (h : StackInv m A) {p : Pid} (hc : m.ctl = .user p) {cur : Term}
    (hq : m.kern.proc.freePid = some q)
    (hfree : ∀ u pc l, m.thread u = some (.halting pc l) → l.currPid ≠ q)
    (hst : (m.kern.proc.prepared cur q).Stored m'.kern.proc) (hc' : m'.ctl = .user p) :
    StackStep m m' A := by
  obtain ⟨t, r, ht, hr, hth, hok⟩ := h.running (by rw [hc]; simp)
  obtain ⟨hother, hprog, harr, hmask, _, htpi, _, _⟩ := prepared_other hst
  have hfresh := h.fresh hq hfree
  refine h.of_update ht ?_ htpi (fun u _ => by rw [harr]) (by rw [harr, hr]; simp) ?_
  · have hsame : Function.update m.thread t (some m'.ctl) = m.thread := by
      rw [hc', ← hc, ← hth, Function.update_eq_self]
    rw [hsame]
    exact h.table.spoil hfresh hfree harr hmask hother
  · intro u r' _ hr'
    have hne : r' ≠ q := by
      rintro rfl
      exact hfresh u (h.table.linked.top_mem hr')
    rw [(hother r' hne).2]

end Machine
end DeviceOS
