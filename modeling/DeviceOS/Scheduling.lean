import DeviceOS.Lib.RoundRobin
import DeviceOS.VideoMapping

/-!
# DeviceOS.Scheduling

The choice that `pit_handler` makes. It is a round robin that passes over the shells that are not
displayed (`Kernel.search_eq`), so the library's rules apply to it.

* `eligible`: the terminals that should run. `ShellsStarted`: every terminal has a process.
* `tick_leaves_eligible`: once the base shells have started, a tick ends at such a terminal.
* `HaltsHaveParent`: no `halt` takes a terminal its last process, so `ShellsStarted` lasts.
* `Closer`: since `u` was selected, the selections have come closer to `t`.
* `scheduler_never_passes_over`: both laws, over every run.
-/

namespace DeviceOS

open EventSystem (Reach run Allowed)

namespace Kernel

variable {k k' : Kernel} {t : Term}

/-- `t == cur_terminal || shell_mask[pid_arr[t]] == 0`. -/
def eligible (k : Kernel) (t : Term) : Bool :=
  t = k.con.curTerminal || (k.proc.pidArr t).any fun q => !k.proc.shellMask q

/-- The three base shells have started: every terminal has a process. -/
def ShellsStarted (k : Kernel) : Prop := ∀ t, k.proc.pidArr t ≠ none

theorem passedOver_of_eligible (h : k.eligible t = true) : k.passedOver t = false := by
  simp only [eligible, Bool.or_eq_true, decide_eq_true_eq, Option.any_eq_true] at h
  simp only [passedOver]
  split
  · rfl
  · rename_i q hq
    rcases h with rfl | ⟨q', hq', hshell⟩
    · simp
    · rw [hq] at hq'
      cases hq'
      simp only [Bool.not_eq_true'] at hshell
      simp [hshell]

theorem eligible_of_not_passedOver (hs : k.proc.pidArr t ≠ none) (h : k.passedOver t = false) :
    k.eligible t = true := by
  obtain ⟨q, hq⟩ := Option.ne_none_iff_exists'.mp hs
  simp only [passedOver, hq, Bool.and_eq_false_iff, decide_eq_false_iff_not, not_not] at h
  simp only [eligible, hq, Option.any_some, Bool.or_eq_true, decide_eq_true_eq, Bool.not_eq_true']
  exact h.symm.imp Eq.symm id

/-- The displayed terminal is never passed over. -/
theorem displayed_eligible (k : Kernel) : k.eligible k.con.curTerminal = true := by
  simp [eligible]

theorem search_eq (k : Kernel) (start : Option Term) : ∀ (fuel : Nat) (t : Term),
    k.search start fuel t = RoundRobin.search k.passedOver start fuel t := by
  intro fuel
  induction fuel with
  | zero => intro t; rfl
  | succ fuel ih =>
    intro t
    simp only [search, RoundRobin.search, ih]

theorem nextTerminal_eq (k : Kernel) {s : Term} (hs : k.proc.terminalProcessIndex = some s) :
    k.nextTerminal = RoundRobin.search k.passedOver (some s) 3 (s + 1) := by
  rw [nextTerminal, hs, search_eq]
  rfl

/-- When the search gives up, the terminal that runs is the displayed one. -/
theorem nextTerminal_eq_none (h : k.nextTerminal = none) :
    k.proc.terminalProcessIndex = some k.con.curTerminal := by
  have hcur := passedOver_of_eligible k.displayed_eligible
  cases hs : k.proc.terminalProcessIndex with
  | none =>
    rw [nextTerminal, hs, search_eq] at h
    obtain ⟨u, hu, _⟩ := RoundRobin.search_none h hcur (RoundRobin.dist_lt _ _)
    cases hu
  | some s =>
    rw [nextTerminal_eq k hs] at h
    by_contra hne
    exact RoundRobin.next_found (fun heq => hne (congrArg some heq)) hcur h

theorem nextTerminal_not_passedOver (h : k.nextTerminal = some t) : k.passedOver t = false := by
  rw [nextTerminal, search_eq] at h
  exact (RoundRobin.search_some h).1

end Kernel

namespace Machine

variable {img : Image} {m m' : Machine} {e : Event} {t u : Term}

/-- What a tick does to the terminal that runs. -/
theorem tick_terminal {esp ebp : Nat} (h : step img m (.tick esp ebp) = some m') :
    m'.kern.proc.terminalProcessIndex =
      (m.kern.nextTerminal <|> m.kern.proc.terminalProcessIndex) := by
  cases step_console h with
  | same hspare => exact hspare.elim
  | still hn heq => rw [heq, hn]; rfl
  | start hn _ _ htpi => rw [htpi, hn]; rfl
  | resume hn _ _ htpi => rw [htpi, hn]; rfl

/-- A tick that starts no base shell leaves what decides who is eligible alone. -/
theorem tick_eligible {esp ebp : Nat} (h : step img m (.tick esp ebp) = some m')
    (hs : m.kern.ShellsStarted) : m'.kern.eligible = m.kern.eligible := by
  cases step_cases h with
  | tick hp =>
    rcases Kernel.pitHandler_cases hp with ⟨_, hk, _⟩ | ⟨t, _, _, ⟨hn, _⟩ | ⟨hn, _⟩ |
      ⟨q, _, hk, _⟩⟩
    · rw [hk]
    · exact absurd hn (hs t)
    · exact absurd hn (hs t)
    · rw [hk]
      rfl

theorem tick_leaves_eligible {esp ebp : Nat} (h : step img m (.tick esp ebp) = some m')
    (hs : m.kern.ShellsStarted) :
    ∃ t, m'.kern.proc.terminalProcessIndex = some t ∧ m'.kern.eligible t = true := by
  rw [tick_terminal h, tick_eligible h hs]
  cases hn : m.kern.nextTerminal with
  | none =>
    rw [Kernel.nextTerminal_eq_none hn]
    exact ⟨_, rfl, m.kern.displayed_eligible⟩
  | some t =>
    exact ⟨t, rfl, Kernel.eligible_of_not_passedOver (hs t) (Kernel.nextTerminal_not_passedOver hn)⟩

/-! ## Halts in progress -/

/-- A `halt` in progress that is past its first statement has a parent: without one it returns
there. -/
def HasParent : Ctl → Prop
  | .halting pc l => pc = .mapParent ∨ l.pidTemp ≠ none
  | _ => True

/-- This is so of the call that runs and of the calls that the timer has interrupted. -/
structure HaltsHaveParent (m : Machine) : Prop where
  running : HasParent m.ctl
  saved : ∀ q, HasParent (m.kern.proc.pcb q).program

/-- What the PCBs store of interrupted programs is unchanged. -/
def SamePrograms (p p' : Proc) : Prop := ∀ q, (p'.pcb q).program = (p.pcb q).program

theorem SamePrograms.trans {p1 p2 p3 : Proc} (h1 : SamePrograms p1 p2) (h2 : SamePrograms p2 p3) :
    SamePrograms p1 p3 := fun q => (h2 q).trans (h1 q)

theorem SamePrograms.hasParent {p p' : Proc} (h : SamePrograms p p')
    (hp : ∀ q, HasParent (p.pcb q).program) (q : Pid) : HasParent (p'.pcb q).program := by
  rw [h q]
  exact hp q

theorem exec_samePrograms {pc : HaltPc} {l : HaltLocals} {k k' : Kernel} {c : Ctl}
    (h : pc.exec l k = some (k', c)) : SamePrograms k.proc k'.proc := by
  intro q
  rcases HaltPc.exec_cases h with ⟨fd, v, hclose⟩ | ⟨_, _, hpcb, _, _⟩
  · exact ((Kernel.close_apart hclose).1.pcb q).program
  · rw [hpcb]

theorem prepared_samePrograms {p p' : Proc} {cur : Term} {q : Pid}
    (h : (p.prepared cur q).Stored p') : SamePrograms p p' := by
  obtain ⟨mem, rfl, _⟩ := h
  intro r
  by_cases hr : r = q
  · subst hr
    simp [Proc.prepared, Proc.createPcb, Proc.mapProgramMem]
  · simp [Proc.prepared, Proc.createPcb, Proc.mapProgramMem, Function.update_of_ne hr]

theorem launch_samePrograms (p : Proc) (cur : Term) (q : Pid) (prog : Program) (regs : Frame) :
    SamePrograms p (p.launch cur q prog regs) := by
  intro r
  by_cases hr : r = q
  · subst hr
    simp [Proc.launch]
  · simp [Proc.launch, Function.update_of_ne hr]

theorem execute_samePrograms {cur : Term} {p : Proc} {command : Option CString} {regs : Frame} :
    (∀ v p', p.execute img cur command regs = .ret v p' → SamePrograms p p') ∧
    ∀ q p', p.execute img cur command regs = .enter q p' → SamePrograms p p' := by
  exact Proc.execute_keeps (I := SamePrograms p) (fun _ => rfl) (fun _ _ => prepared_samePrograms)
    fun q prog p' h => h.trans (launch_samePrograms p' cur q prog regs)

/-- The timer stores the program that it interrupts. -/
theorem suspended_hasParent {k : Kernel} {c : Ctl} (hc : HasParent c)
    (hp : ∀ q, HasParent (k.proc.pcb q).program) (t : Term) (q : Pid) :
    HasParent ((k.suspended c t).proc.pcb q).program := by
  rcases k.suspended_pcb c t q with h | h
  · rw [h]
    exact hp q
  · rw [h]
    exact hc

/-- One statement of `halt` gets past the test for a parent only with one, and takes no terminal
its last process. -/
theorem exec_hasParent {pc : HaltPc} {l : HaltLocals} {k k' : Kernel} {c : Ctl}
    (hp : HasParent (.halting pc l)) (h : pc.exec l k = some (k', c)) :
    HasParent c ∧ (k.ShellsStarted → k'.ShellsStarted) := by
  have hnext : pc ≠ .mapParent → l.pidTemp ≠ none := fun hne => hp.resolve_left hne
  cases pc with
  | mapParent =>
    simp only [HaltPc.exec] at h
    split at h
    · cases h
      exact ⟨trivial, id⟩
    · rename_i q hq
      cases h
      exact ⟨Or.inr (by rw [hq]; simp), id⟩
  | closeFds i =>
    obtain ⟨⟨v, k1⟩, hclose, heq⟩ := Option.map_eq_some_iff.mp h
    cases heq
    refine ⟨Or.inr (hnext (by simp)), fun hs t => ?_⟩
    rw [(Kernel.close_apart hclose).1.pidArr]
    exact hs t
  | typing =>
    obtain ⟨t, _, heq⟩ := Option.map_eq_some_iff.mp h
    cases heq
    exact ⟨Or.inr (hnext (by simp)), id⟩
  | popPid =>
    obtain ⟨t, _, heq⟩ := Option.map_eq_some_iff.mp h
    cases heq
    refine ⟨Or.inr (hnext (by simp)), fun hs u => ?_⟩
    show Function.update k.proc.pidArr t l.pidTemp u ≠ none
    by_cases hu : u = t
    · subst hu
      rw [Function.update_self]
      exact hnext (by simp)
    · rw [Function.update_of_ne hu]
      exact hs u
  | jump =>
    cases h
    exact ⟨trivial, id⟩
  | _ =>
    cases h
    exact ⟨Or.inr (hnext (by simp)), id⟩

theorem runHalt_hasParent {n : Nat} {k k' : Kernel} {c c' : Ctl} (hp : HasParent c)
    (h : runHalt n k c = some (k', c')) :
    HasParent c' ∧ (k.ShellsStarted → k'.ShellsStarted) := by
  refine runHalt_inv (I := fun k1 c1 => HasParent c1 ∧ (k.ShellsStarted → k1.ShellsStarted)) ?_
    (fun hi => ⟨trivial, hi.2⟩) ⟨hp, id⟩ h
  intro pc l k1 k2 c2 hi hx
  obtain ⟨hp2, hs2⟩ := exec_hasParent hi.1 hx
  exact ⟨hp2, fun hs => hs2 (hi.2 hs)⟩

theorem haltEntry_hasParent {k k' : Kernel} {status : UInt8} {c : Ctl}
    (h : k.haltEntry status = some (k', c)) : HasParent c := by
  obtain ⟨_, q, _, ⟨_, rfl⟩ | ⟨_, rfl⟩⟩ := Kernel.haltEntry_cases h
  · trivial
  · exact Or.inl rfl

theorem halt_hasParent {k k' : Kernel} {status : UInt8} {c : Ctl}
    (h : DeviceOS.halt k status = some (k', c)) :
    HasParent c ∧ (k.ShellsStarted → k'.ShellsStarted) := by
  simp only [DeviceOS.halt, Option.bind_eq_some_iff] at h
  obtain ⟨⟨k1, c1⟩, hentry, hr⟩ := h
  obtain rfl := Kernel.haltEntry_kern hentry
  exact runHalt_hasParent (haltEntry_hasParent hentry) hr

theorem halt_samePrograms {k k' : Kernel} {status : UInt8} {c : Ctl}
    (h : DeviceOS.halt k status = some (k', c)) : SamePrograms k.proc k'.proc :=
  halt_rel (R := fun k k' => SamePrograms k.proc k'.proc) (fun _ _ => rfl) .trans
    exec_samePrograms h

theorem SameThread.hasParent {c c' : Ctl} (h : SameThread c c') (hc : HasParent c) :
    HasParent c' := by
  rcases h with rfl | ⟨p, _, hs⟩
  · exact hc
  · cases c' with
    | halting => exact hs.elim
    | _ => trivial

theorem step_haltsHaveParent (hi : HaltsHaveParent m) (h : step img m e = some m') :
    HaltsHaveParent m' := by
  have hquiet : Quiet m e → HaltsHaveParent m' := by
    intro hq
    obtain ⟨htab, hth⟩ := step_sameTables hq h
    exact ⟨hth.hasParent hi.running,
      SamePrograms.hasParent (fun q => (htab.pcb q).program) hi.saved⟩
  cases step_cases h with
  | tick hx =>
    have hsus := suspended_hasParent hi.running hi.saved
    rcases Kernel.pitHandler_cases hx with ⟨_, hk, hc⟩ | ⟨t, _, _, ⟨_, p', he, hk, hc⟩ |
      ⟨_, q, p', he, hk, hc⟩ | ⟨q, _, hk, hc⟩⟩
    · exact ⟨hc ▸ hi.running, by rw [hk]; exact hi.saved⟩
    · exact ⟨hc ▸ hi.running, by
        rw [hk]; exact (execute_samePrograms.1 _ _ he).hasParent (hsus t)⟩
    · exact ⟨hc ▸ trivial, by rw [hk]; exact (execute_samePrograms.2 _ _ he).hasParent (hsus t)⟩
    · exact ⟨hc ▸ hsus t q, by rw [hk]; exact hsus t⟩
  | returned _ hx heq =>
    rw [heq]
    exact ⟨trivial, (execute_samePrograms.1 _ _ hx).hasParent hi.saved⟩
  | entered _ hx heq =>
    rw [heq]
    exact ⟨trivial, (execute_samePrograms.2 _ _ hx).hasParent hi.saved⟩
  | halt _ hx => exact ⟨(halt_hasParent hx).1, (halt_samePrograms hx).hasParent hi.saved⟩
  | haltCall _ hx =>
    exact ⟨haltEntry_hasParent hx, by rw [Kernel.haltEntry_kern hx]; exact hi.saved⟩
  | statement hc hx =>
    exact ⟨(exec_hasParent (hc ▸ hi.running) hx).1, (exec_samePrograms hx).hasParent hi.saved⟩
  | finish _ _ heq => rw [heq]; exact ⟨trivial, hi.saved⟩
  | poll hc => exact hquiet ⟨_, by rw [hc]; rfl⟩
  | rtcPoll hc => exact hquiet ⟨_, by rw [hc]; rfl⟩
  | _ => exact hquiet trivial

/-! ## The phase after the base shells have started -/

theorem execute_shellsStarted {cur : Term} {p : Proc} {command : Option CString} {regs : Frame}
    (hs : ∀ t, p.pidArr t ≠ none) :
    (∀ v p', p.execute img cur command regs = .ret v p' → ∀ t, p'.pidArr t ≠ none) ∧
    ∀ q p', p.execute img cur command regs = .enter q p' → ∀ t, p'.pidArr t ≠ none := by
  refine Proc.execute_keeps (I := fun p' => ∀ t, p'.pidArr t ≠ none) hs ?_ ?_
  · rintro q p' ⟨mem, rfl, _⟩
    exact hs
  · intro q prog p' h t
    show Function.update p'.pidArr (Proc.pidSlot cur q) (some q) t ≠ none
    by_cases ht : t = Proc.pidSlot cur q
    · subst ht
      rw [Function.update_self]
      exact Option.some_ne_none q
    · rw [Function.update_of_ne ht]
      exact h t

/-- No event takes the last process from a terminal. -/
theorem step_shellsStarted (hs : m.kern.ShellsStarted) (hp : HasParent m.ctl)
    (h : step img m e = some m') : m'.kern.ShellsStarted := by
  have hquiet : Quiet m e → m'.kern.ShellsStarted := by
    intro hq t
    rw [(step_sameTables hq h).1.pidArr]
    exact hs t
  cases step_cases h with
  | tick hx =>
    rcases Kernel.pitHandler_cases hx with ⟨_, hk, _⟩ | ⟨t, _, _, ⟨hn, _⟩ | ⟨hn, _⟩ |
      ⟨q, _, hk, _⟩⟩
    · rw [hk]
      exact hs
    · exact absurd hn (hs t)
    · exact absurd hn (hs t)
    · rw [hk]
      exact hs
  | returned _ hx heq =>
    rw [heq]
    exact (execute_shellsStarted hs).1 _ _ hx
  | entered _ hx heq =>
    rw [heq]
    exact (execute_shellsStarted hs).2 _ _ hx
  | halt _ hx => exact (halt_hasParent hx).2 hs
  | haltCall _ hx => rw [Kernel.haltEntry_kern hx]; exact hs
  | statement hc hx => exact (exec_hasParent (hc ▸ hp) hx).2 hs
  | finish _ _ heq => rw [heq]; exact hs
  | poll hc => exact hquiet ⟨_, by rw [hc]; rfl⟩
  | rtcPoll hc => exact hquiet ⟨_, by rw [hc]; rfl⟩
  | _ => exact hquiet trivial

/-! ## From one selection of a terminal to the next -/

/-- The tick does not select `t`, which is eligible. Any other event is allowed. -/
def PassesBy (t : Term) (m : Machine) : Event → Prop
  | .tick _ _ => m.kern.eligible t = true ∧
      (m.kern.nextTerminal <|> m.kern.proc.terminalProcessIndex) ≠ some t
  | _ => True

/-- The terminal that runs is not further from `t` than `u`. -/
def Closer (t u : Term) (m : Machine) : Prop :=
  ∃ s, m.kern.proc.terminalProcessIndex = some s ∧ s ≠ t ∧
    RoundRobin.dist s t ≤ RoundRobin.dist u t

/-- While `t` is eligible, a tick selects it or a terminal closer to it. -/
theorem Closer.tick {esp ebp : Nat} (hc : Closer t u m) (ht : m.kern.eligible t = true)
    (h : step img m (.tick esp ebp) = some m') :
    ∃ v, m'.kern.proc.terminalProcessIndex = some v ∧
      RoundRobin.dist v t < RoundRobin.dist u t := by
  obtain ⟨s, hs, hst, hle⟩ := hc
  have hskip := Kernel.passedOver_of_eligible ht
  have hfound := RoundRobin.next_found hst hskip
  rw [tick_terminal h, Kernel.nextTerminal_eq _ hs]
  obtain ⟨v, hv⟩ := Option.ne_none_iff_exists'.mp hfound
  have hlt := RoundRobin.next_closer hst hskip hv
  have hv' : RoundRobin.search m.kern.passedOver (some s) 3 (s + 1) = some v := hv
  rw [hv']
  exact ⟨v, rfl, by omega⟩

theorem Closer.next (hc : Closer t u m) (hp : PassesBy t m e) (h : step img m e = some m') :
    Closer t u m' := by
  by_cases htick : ∃ esp ebp, e = .tick esp ebp
  · obtain ⟨esp, ebp, rfl⟩ := htick
    obtain ⟨v, hv, hlt⟩ := hc.tick hp.1 h
    refine ⟨v, hv, ?_, by omega⟩
    rintro rfl
    rw [tick_terminal h] at hv
    exact hp.2 hv
  · obtain ⟨s, hs, hst, hle⟩ := hc
    have hsame := step_terminalProcessIndex h fun esp ebp he => htick ⟨esp, ebp, he⟩
    exact ⟨s, hsame.trans hs, hst, hle⟩

/-- Boot. The memory of the PCBs is arbitrary, but it does not look like a `halt` past its first
statement that has no parent. -/
structure CleanBoot (m : Machine) : Prop where
  boot : Boot m
  saved : ∀ q, HasParent (m.kern.proc.pcb q).program

theorem reach_haltsHaveParent (h : Reach (step img) CleanBoot (fun _ _ => True) m) :
    HaltsHaveParent m :=
  h.inv (fun _ hb => ⟨by rw [hb.boot.idle]; trivial, hb.saved⟩)
    fun _ _ _ hi _ hs => step_haltsHaveParent hi hs

theorem run_shellsStarted {es : List Event} (hi : HaltsHaveParent m) (hs : m.kern.ShellsStarted)
    (hr : run (step img) m es = some m') : m'.kern.ShellsStarted := by
  have h : Reach (step img) (fun m => HaltsHaveParent m ∧ m.kern.ShellsStarted) (fun _ _ => True)
      m' := Reach.of_any (.init ⟨hi, hs⟩) hr
  refine (h.inv (fun _ hm => hm) fun _ _ _ hm _ hstep => ⟨?_, ?_⟩).2
  · exact step_haltsHaveParent hm.1 hstep
  · exact step_shellsStarted hm.2 hm.1.running hstep

/-- In every run after the three base shells have started, a tick leaves `terminal_process_index` at
an eligible terminal. And once `u` is selected, a tick that finds `t` eligible does not select `u`
again when `t` was eligible at every tick in between and no one of them selected it. -/
theorem scheduler_never_passes_over (img : Image) (m m1 : Machine) (es : List Event)
    (h : Reach (step img) CleanBoot (fun _ _ => True) m) (hs : m.kern.ShellsStarted)
    (hr : run (step img) m es = some m1) :
    (∀ esp ebp m2, step img m1 (.tick esp ebp) = some m2 →
      ∃ t, m2.kern.proc.terminalProcessIndex = some t ∧ m2.kern.eligible t = true) ∧
    ∀ t u fs m2 esp ebp m3, t ≠ u → m1.kern.proc.terminalProcessIndex = some u →
      Allowed (step img) (PassesBy t) m1 fs → run (step img) m1 fs = some m2 →
      m2.kern.eligible t = true → step img m2 (.tick esp ebp) = some m3 →
      m3.kern.proc.terminalProcessIndex ≠ some u := by
  refine ⟨fun esp ebp m2 ht =>
    tick_leaves_eligible ht (run_shellsStarted (reach_haltsHaveParent h) hs hr), ?_⟩
  intro t u fs m2 esp ebp m3 htu hu ha hr ht h hsel
  have hc : Closer t u m2 :=
    EventSystem.run_inv (I := Closer t u) (fun _ _ _ => Closer.next)
      ⟨u, hu, fun heq => htu heq.symm, le_refl _⟩ ha hr
  obtain ⟨v, hv, hlt⟩ := hc.tick ht h
  rw [hsel] at hv
  cases hv
  exact absurd hlt (lt_irrefl _)

/-- The three base shells have started, the second terminal is displayed and a tick has selected it:
the next tick passes over the other two. -/
theorem scheduler_never_passes_over_displayed : ∃ m1 m2 : Machine,
    m1.kern.proc.terminalProcessIndex = some 1 ∧ step disk m1 (.tick 0 0) = some m2 ∧
    ∃ t, m2.kern.proc.terminalProcessIndex = some t ∧ m2.kern.eligible t = true := by
  have hrun : ((run (step disk) booted (List.replicate 4 (.tick 0 0))).bind fun m =>
      (run (step disk) m [.key 1 0x38, .key 1 0x3C, .tick 0 0]).map fun m1 =>
        ((List.finRange 3).all fun t => (m.kern.proc.pidArr t).isSome,
          m1.kern.proc.terminalProcessIndex, (step disk m1 (.tick 0 0)).isSome)) =
        some (true, some 1, true) := by
    decide +kernel
  obtain ⟨m, hm, hrun⟩ := Option.bind_eq_some_iff.mp hrun
  obtain ⟨m1, hm1, hp⟩ := Option.map_eq_some_iff.mp hrun
  simp only [Prod.mk.injEq, List.all_eq_true] at hp
  obtain ⟨hall, htpi, hstep⟩ := hp
  obtain ⟨m2, hm2⟩ := Option.isSome_iff_exists.mp hstep
  have hreach : Reach (step disk) CleanBoot (fun _ _ => True) m :=
    Reach.of_any (.init ⟨boot_booted, fun _ => trivial⟩) hm
  have hs : m.kern.ShellsStarted := fun t =>
    Option.isSome_iff_ne_none.mp (hall t (List.mem_finRange t))
  exact ⟨m1, m2, htpi, hm2, (scheduler_never_passes_over disk m m1 _ hreach hs hm1).1 0 0 m2 hm2⟩

end Machine
end DeviceOS
