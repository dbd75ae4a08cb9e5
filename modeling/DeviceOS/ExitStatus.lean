import DeviceOS.HaltPreempt

/-!
# DeviceOS.ExitStatus

The exit status travels from `halt` to `execute` through the global `halt_value`, with interrupts
enabled between the store and the load.

* `ValueInv`: between the two, `halt_value` is the status of that `halt`.
* `execute_returns_status`: `execute` returns the status its child passed to `halt`, if no `halt` of
  another terminal stores to `halt_value` in between (`Overwrites`).
-/

namespace DeviceOS

open EventSystem (Reach)

/-- The locals of a `halt` that has stored its status, while `execute` has not yet loaded it. -/
def Ctl.stored : Ctl → Option HaltLocals
  | .halting .jump l | .finishing _ l => some l
  | _ => none

/-- One statement of `halt` and `halt_value`. -/
theorem HaltPc.exec_haltValue {pc : HaltPc} {l : HaltLocals} {k k' : Kernel} {c : Ctl}
    (h : pc.exec l k = some (k', c)) (hparent : pc = .mapParent → l.pidTemp ≠ none) :
    (pc = .setValue ∧ k'.proc.haltValue = l.status.toNat ∧ c = .halting .jump l) ∨
      (pc ≠ .setValue ∧ k'.proc.haltValue = k.proc.haltValue ∧
        ∀ l', c.stored = some l' → pc = .jump ∧ l' = l) := by
  cases pc with
  | setValue => cases h; exact Or.inl ⟨rfl, rfl, rfl⟩
  | mapParent =>
    simp only [exec] at h
    split at h
    · rename_i hnone
      exact absurd hnone (hparent rfl)
    · cases h
      exact Or.inr ⟨by simp, rfl, fun l' hl => absurd hl (by simp [Ctl.stored])⟩
  | closeFds i =>
    obtain ⟨⟨v, k1⟩, hclose, heq⟩ := Option.map_eq_some_iff.mp h
    cases heq
    refine Or.inr ⟨by simp, (Kernel.close_apart hclose).1.haltValue, fun l' hl => ?_⟩
    split at hl <;> cases hl
  | typing =>
    obtain ⟨t, _, heq⟩ := Option.map_eq_some_iff.mp h
    cases heq
    exact Or.inr ⟨by simp, rfl, fun l' hl => absurd hl (by simp [Ctl.stored])⟩
  | popPid =>
    obtain ⟨t, _, heq⟩ := Option.map_eq_some_iff.mp h
    cases heq
    exact Or.inr ⟨by simp, rfl, fun l' hl => absurd hl (by simp [Ctl.stored])⟩
  | jump =>
    cases h
    refine Or.inr ⟨by simp, rfl, fun l' hl => ⟨rfl, ?_⟩⟩
    cases hl
    rfl
  | _ =>
    cases h
    exact Or.inr ⟨by simp, rfl, fun l' hl => absurd hl (by simp [Ctl.stored])⟩

namespace Machine

variable {img : Image} {m m' : Machine} {A : Term → List Pid} {e : Event}

/-- A `halt` stores its status while another terminal is between its own store and its load. -/
def Overwrites (m : Machine) : Event → Prop
  | .go => ∃ l, m.ctl = .halting .setValue l ∧
    ∃ u c, m.kern.proc.terminalProcessIndex ≠ some u ∧ m.thread u = some c ∧ c.stored ≠ none
  | _ => False

theorem inHalt_of_stored {c : Ctl} {l : HaltLocals} (h : c.stored = some l) : InHalt c := by
  cases c with
  | halting pc l => trivial
  | finishing fr l => trivial
  | _ => cases h

def ValueInv (m : Machine) : Prop :=
  ∀ u c l, m.thread u = some c → c.stored = some l → m.kern.proc.haltValue = l.status.toNat

/-- Only a statement of `halt` stores to `halt_value`. -/
theorem StepKind.haltValue (h : StepKind img m m' e) (hsplit : Split e) (hgo : e ≠ .go) :
    m'.kern.proc.haltValue = m.kern.proc.haltValue := by
  cases h with
  | quiet _ hp => exact hp.haltValue
  | still _ heq => rw [heq]
  | start _ _ hl => exact hl.haltValue
  | resume _ _ hp => rw [hp]; rfl
  | spawn _ _ _ _ _ hl => exact hl.haltValue
  | rejected _ _ hp => rw [hp]
  | failed _ _ _ _ hst =>
    obtain ⟨_, _, _, _, _, _, hval, _⟩ := prepared_other hst
    exact hval
  | restart _ _ heq => rw [heq]
  | enter _ _ hk => rw [hk]
  | exec => exact absurd rfl hgo
  | finish => exact absurd rfl hgo
  | whole => exact hsplit.elim

theorem ValueInv.next (h : ValueInv m) (hi : StackInv m A) (hok : Preemptible img m e)
    (hw : ¬ Overwrites m e) (hs : step img m e = some m') : ValueInv m' := by
  have hkind := hi.kind hok.orderly hs
  have hnext := hi.next hok.orderly hok.not_reuse hs
  -- a step that leaves `halt_value` alone and is no statement of `halt` keeps every thread
  have hkeep : m'.kern.proc.haltValue = m.kern.proc.haltValue →
      (∀ u l, m'.kern.proc.terminalProcessIndex = some u → m'.ctl.stored = some l →
        ∃ c, m.thread u = some c ∧ c.stored = some l) → ValueInv m' := by
    intro hval hrun u c l hth hl
    rw [hval]
    by_cases hu : m'.kern.proc.terminalProcessIndex = some u
    · rw [thread_self hu] at hth
      cases hth
      obtain ⟨c, hth, hc⟩ := hrun u l hu hl
      exact h u c l hth hc
    · rw [hnext.other u hu] at hth
      exact h u c l hth hl
  by_cases hx : ∃ pc l, e = .go ∧ m.ctl = .halting pc l
  · obtain ⟨pc, l, rfl, hc⟩ := hx
    cases hkind with
    | quiet hq =>
      obtain ⟨p, hctl⟩ := hq
      rw [hc] at hctl
      exact hctl.elim
    | finish hctl =>
      rw [hc] at hctl
      cases hctl
    | exec hctl hx =>
      rw [hc] at hctl
      cases hctl
      have htpi := (HaltPc.exec_con hx).2
      have hparent : pc = .mapParent → l.pidTemp ≠ none := by
        rintro rfl
        obtain ⟨t, q, _, hq, _, hthread⟩ := hi.running (by rw [hc]; simp)
        rw [hc] at hthread
        obtain ⟨h3, hcur, hpar⟩ := hthread
        obtain ⟨d, _, hd, _, _⟩ := hi.table.parent_exists hq (hcur ▸ h3)
        rw [hpar, hd]
        simp
      rcases HaltPc.exec_haltValue hx hparent with ⟨rfl, hval, hjump⟩ | ⟨_, hval, hrun⟩
      · -- the status is stored: no other terminal waits for its own
        intro u c l' hth hl
        by_cases hu : m'.kern.proc.terminalProcessIndex = some u
        · rw [thread_self hu] at hth
          cases hth
          rw [hjump] at hl
          cases hl
          exact hval
        · rw [hnext.other u hu] at hth
          rw [htpi] at hu
          exact absurd ⟨l, hc, u, c, hu, hth, by rw [hl]; simp⟩ hw
      · refine hkeep hval fun u l' hu hl => ?_
        obtain ⟨rfl, rfl⟩ := hrun l' hl
        rw [htpi] at hu
        exact ⟨_, (thread_self hu).trans (congrArg some hc), rfl⟩
  · have hval : m'.kern.proc.haltValue = m.kern.proc.haltValue := by
      by_cases hgo : e = .go
      · subst hgo
        cases hkind with
        | quiet _ hp => exact hp.haltValue
        | exec hctl => exact absurd ⟨_, _, rfl, hctl⟩ hx
        | finish _ _ hk => rw [hk]
      · exact hkind.haltValue hok.split hgo
    refine hkeep hval fun u l hu hl => ?_
    rcases hkind.thread_cases hi hok.split hu with hth | ⟨status, p, _, _, _, _, hc⟩ |
      ⟨pc, l', rfl, hc, _⟩ | ⟨p, hp⟩
    · exact ⟨_, hth, hl⟩
    · rw [hc] at hl
      cases hl
    · exact absurd ⟨pc, l', rfl, hc⟩ hx
    · exact absurd (inHalt_of_stored hl) (serves_calm hp)

theorem Boot.valueInv (h : Boot m) : ValueInv m := by
  intro u c l hth
  rw [thread_of_ne (by rw [h.tpi]; simp), h.pidArr u] at hth
  cases hth

/-- The call of `execute` that a `halt` comes back to returns the status of that `halt`. -/
def StatusReturned (s : Machine × Trace) (fr : Frame) (reply : Option Reply) : Prop :=
  ∃ t call status, s.1.kern.proc.terminalProcessIndex = some t ∧
    s.2.pending t = some (call, status) ∧ call.frame = fr ∧ reply = some ⟨status.toNat, []⟩

/-- In every run in which no `halt` stores to `halt_value` while another terminal has stored but not
loaded it, every `execute` returns the status of its own child. -/
theorem execute_returns_status (img : Image) (s : Machine × Trace)
    (h : Reach (tracedStep img) TracedBoot
      (fun s e => Preemptible img s.1 e ∧ ¬ Overwrites s.1 e) s)
    {fr : Frame} {l : HaltLocals} {m' : Machine} {reply : Option Reply}
    (hc : s.1.ctl = .finishing fr l) (hs : call img s.1 .go = some (m', reply)) :
    StatusReturned s fr reply := by
  obtain ⟨A, hi, hpend⟩ := reach_pending (h.mono fun _ _ h => h.1)
  have hval : ValueInv s.1 := by
    have hboth : (∃ A, StackInv s.1 A) ∧ ValueInv s.1 := by
      refine h.inv (I := fun s => (∃ A, StackInv s.1 A) ∧ ValueInv s.1) (fun s hb => ?_) ?_
      · exact ⟨⟨_, hb.1.stackInv⟩, hb.1.valueInv⟩
      · rintro s e s' ⟨⟨A, hi⟩, hv⟩ ⟨hok, hw⟩ hs
        obtain ⟨hs, _⟩ := EventSystem.withHistory_eq_some.mp hs
        exact ⟨⟨_, (hi.next hok.orderly hok.not_reuse hs).inv⟩, hv.next hi hok hw hs⟩
    exact hboth.2
  obtain ⟨t, _, ht, _, hth, _⟩ := hi.running (by rw [hc]; simp)
  rw [hc] at hth
  obtain ⟨c, h1, _, h3⟩ := hpend.pending t _ hth
  refine ⟨t, c, l.status, ht, h1, h3, ?_⟩
  simp only [call, hc, go, Option.map_eq_some_iff, Prod.mk.injEq] at hs
  obtain ⟨_, _, _, hreply⟩ := hs
  rw [← hreply, hval t _ l hth rfl]

/-- No other terminal is in `halt` when a `halt` makes a step. -/
def aloneInHalt (m : Machine) (e : Event) : Bool :=
  startsInOrder m e && match e with
    | .go => decide (∀ u, m.kern.proc.terminalProcessIndex ≠ some u → ∀ c ∈ m.thread u, ¬ InHalt c)
    | _ => true

theorem execute_returns_status_cat : ∃ s m', s.1.ctl = .finishing ⟨0, 0, some 0⟩ ⟨4, some 0, 7⟩ ∧
    call disk s.1 .go = some (m', some ⟨7, []⟩) ∧
      StatusReturned s ⟨0, 0, some 0⟩ (some ⟨7, []⟩) := by
  have hrun : (testRun aloneInHalt (twoPrograms ++ .haltCall 7 :: List.replicate 15 .go)).map
      (fun s => (finishingAt s, s.1.kern.proc.haltValue)) =
        some (some (⟨0, 0, some 0⟩, ⟨4, some 0, 7⟩), 7) := by
    decide +kernel
  obtain ⟨s, hs, hf⟩ := Option.map_eq_some_iff.mp hrun
  simp only [Prod.mk.injEq] at hf
  have hc := ctl_of_finishingAt hf.1
  have hcall : call disk s.1 .go = some (⟨s.1.kern, .user 0⟩, some ⟨7, []⟩) := by
    simp [call, hc, go, finishExecute, hf.2]
  refine ⟨s, _, hc, hcall, execute_returns_status disk s ?_ hc hcall⟩
  refine Reach.of_checked (fun s e h => ?_) (.init ⟨boot_booted, rfl⟩) hs
  simp only [aloneInHalt, Bool.and_eq_true] at h
  refine ⟨preemptible_of_startsInOrder h.1, ?_⟩
  cases e with
  | go =>
    rintro ⟨l, _, u, c, hu, hth, hc⟩
    refine of_decide_eq_true h.2 u hu c hth ?_
    cases c with
    | halting | finishing => trivial
    | _ => exact absurd rfl hc
  | _ => exact not_false

/-- Two programs halt, with status 7 and with status 9. The timer switches to the second one after
the first has stored its status, and back after the second has stored its own. -/
theorem halt_value_overwritten :
    ¬ ∀ (img : Image) (s : Machine × Trace),
      Reach (tracedStep img) TracedBoot (fun s e => Preemptible img s.1 e) s →
      ∀ fr l m' reply, s.1.ctl = .finishing fr l → call img s.1 .go = some (m', reply) →
        StatusReturned s fr reply := by
  intro h
  have hrun : (testRun startsInOrder (twoPrograms ++ .haltCall 7 :: List.replicate 14 .go ++
      [.tick 0 0, .haltCall 9] ++ List.replicate 14 .go ++ [.tick 0 0, .tick 0 0, .go])).map
      (fun s => (finishingAt s, s.1.kern.proc.haltValue, s.1.kern.proc.terminalProcessIndex,
        (s.2.pending 0).map Prod.snd)) =
        some (some (⟨0, 0, some 0⟩, ⟨4, some 0, 7⟩), 9, some 0, some 7) := by
    decide +kernel
  obtain ⟨s, hs, hf⟩ := Option.map_eq_some_iff.mp hrun
  simp only [Prod.mk.injEq] at hf
  obtain ⟨hfin, hval, ht, hpend⟩ := hf
  have hc := ctl_of_finishingAt hfin
  obtain ⟨t, c, status, ht', hp, _, hreply⟩ := h disk s
    (Reach.of_checked (fun _ _ => preemptible_of_startsInOrder) (.init ⟨boot_booted, rfl⟩) hs)
    _ _ ⟨s.1.kern, .user 0⟩ (some ⟨9, []⟩) hc
    (by simp [call, hc, go, finishExecute, hval])
  obtain rfl := Option.some.inj (ht.symm.trans ht')
  rw [hp] at hpend
  cases hpend
  exact absurd (congrArg (Option.map Reply.ret) hreply) (by decide)

end Machine
end DeviceOS
