import DeviceOS.Descriptors

/-!
# DeviceOS.RtcSharing

The real-time clock. All processes share one `rtc_interrupt` and one rate register, so `rtc_read` of
one process resets the flag that another one waits for, and `rtc_open` and `rtc_write` of one process
set the rate at which another one wakes up.

* `step_rtc`: what each event does to the flag and the rate.
* `RtcTrace`: for each process whether it waits in `rtc_read`, whether an RTC interrupt has come
  since it began to wait, and the rate it has selected.
* `rtc_tick_not_lost`: a tick is kept for those who wait while nobody enters `rtc_read` with such a
  tick pending (`Steals`).
* `rtc_rate_is_own`: the rate is that of the process that waits while nobody selects another one, and
  nobody begins to wait at the rate of another process (`Retunes`).
-/

namespace DeviceOS

open EventSystem (Reach run withHistory)

namespace Rtc

/-- The rate in register A. -/
def rate (r : Rtc) : UInt8 := r.regA &&& 0x0F

/-- The rate that `rtc_write` selects for a frequency. -/
def rateOf (frequency : Nat) : UInt8 := UInt8.ofNat (rateLoop 32 (32768 / frequency) 0 % 16)

/-- Register A under a mask: the high bits come from before, the low bits are the rate. -/
theorem changeRate_and (r : Rtc) (n : Nat) (mask : UInt8) : (r.changeRate n).regA &&& mask =
    (r.regA &&& (0xF0 &&& mask)) ||| (UInt8.ofNat (n % 16) &&& mask) := by
  apply UInt8.eq_of_toBitVec_eq
  simp only [changeRate, UInt8.toBitVec_and, UInt8.toBitVec_or, BitVec.and_or_distrib_right,
    BitVec.and_assoc]

theorem changeRate_rate (r : Rtc) (n : Nat) : (r.changeRate n).rate = UInt8.ofNat (n % 16) := by
  have hlow : ∀ k : Fin 16, UInt8.ofNat k.val &&& 0x0F = UInt8.ofNat k.val := by decide
  have hmask : (0xF0 &&& 0x0F : UInt8) = 0 := rfl
  rw [rate, changeRate_and, hmask, UInt8.and_zero, UInt8.zero_or]
  exact hlow ⟨n % 16, Nat.mod_lt n (by decide)⟩

theorem open_rate (r : Rtc) : r.open'.rate = 15 := changeRate_rate _ 15

theorem write_cases (r : Rtc) (f : Nat) :
    (r.write f).1 = -1 ∧ (r.write f).2 = r ∨
      (r.write f).1 = 0 ∧ (r.write f).2.rate = rateOf f ∧
        (r.write f).2.rtcInterrupt = r.rtcInterrupt := by
  simp only [write]
  split
  · exact Or.inl ⟨rfl, rfl⟩
  · exact Or.inr ⟨rfl, changeRate_rate _ _, rfl⟩

end Rtc

/-- The flag and the rate are the same. -/
structure SameClock (r r' : Rtc) : Prop where
  rtcInterrupt : r'.rtcInterrupt = r.rtcInterrupt
  rate : r'.rate = r.rate

theorem SameClock.refl (r : Rtc) : SameClock r r := ⟨rfl, rfl⟩

theorem SameClock.trans {r r' r'' : Rtc} (h1 : SameClock r r') (h2 : SameClock r' r'') :
    SameClock r r'' :=
  ⟨h2.rtcInterrupt.trans h1.rtcInterrupt, h2.rate.trans h1.rate⟩

namespace Kernel

variable {img : Image} {k k' : Kernel}

theorem close_clock {fd v : Int} (h : k.close fd = some (v, k')) : SameClock k.rtc k'.rtc := by
  rcases close_cases h with rfl | ⟨q, w, _, _, hrtc | hrtc, _⟩
  · exact .refl _
  · rw [hrtc]
    exact .refl _
  · rw [hrtc]
    exact ⟨rfl, rfl⟩

theorem read_clock {fd nbytes : Int} {buf : Option (Nat → UInt8)} {r : Reply}
    (h : k.read img fd buf nbytes = some (.ret r k')) : k'.rtc = k.rtc := by
  cases read_cases h with
  | refused => rfl
  | file _ hread =>
    obtain ⟨pos, rfl⟩ := fileRead_cases hread
    rfl
  | dir _ hread =>
    rcases directoryRead_cases hread with rfl | ⟨pos, rfl⟩
    · rfl
    · rfl

/-- `write` calls `rtc_write`, or leaves the clock alone. -/
theorem write_rtc {fd nbytes : Int} {buf : Option (Nat → UInt8)} {r : Reply}
    (h : k.write fd buf nbytes = some (r, k')) :
    (∃ q w b, k.currPid = some q ∧ fdOf fd = some w ∧ buf = some b ∧
      (k.proc.fd q w).fopsPtr = some .rtc ∧ r.ret = (k.rtc.write (leNat [b 0, b 1, b 2, b 3])).1 ∧
      k'.rtc = (k.rtc.write (leNat [b 0, b 1, b 2, b 3])).2) ∨
    (k'.rtc = k.rtc ∧ ∀ q w, k.currPid = some q → fdOf fd = some w →
      (k.proc.fd q w).fopsPtr = some .rtc → r.ret = -1) := by
  cases write_cases h with
  | refused => exact Or.inr ⟨rfl, fun _ _ _ _ _ => rfl⟩
  | rtc ho => exact Or.inl ⟨_, _, _, ho.currPid, ho.fdOf, rfl, ho.fopsPtr, rfl, rfl⟩
  | @terminal q w b ho =>
    refine Or.inr ⟨rfl, fun q' w' hq hw hops => ?_⟩
    -- the same descriptor has one operation only
    obtain rfl : q = q' := Option.some.inj (ho.currPid.symm.trans hq)
    obtain rfl : w = w' := Option.some.inj (ho.fdOf.symm.trans hw)
    cases ho.fopsPtr.symm.trans hops

/-- `open` calls `rtc_open`, or leaves the clock alone. -/
theorem open_rtc {name : Option CString} {v : Int} (h : k.open' img name = some (v, k')) :
    (∃ q w, k.currPid = some q ∧ fdOf v = some w ∧ (k'.proc.fd q w).fopsPtr = some .rtc ∧
      k'.rtc = k.rtc.open') ∨
    (k'.rtc = k.rtc ∧ ∀ q w, k.currPid = some q → fdOf v = some w →
      (k'.proc.fd q w).fopsPtr ≠ some .rtc) := by
  have hnone : ∀ {k1 : Kernel} (q : Pid) (w : Fin 8), k.currPid = some q → fdOf (-1) = some w →
      (k1.proc.fd q w).fopsPtr ≠ some .rtc := by
    intro k1 q w _ hw
    rw [show fdOf (-1) = none from rfl] at hw
    cases hw
  cases open_cases h with
  | refused => exact Or.inr ⟨rfl, hnone⟩
  | failed => exact Or.inr ⟨rfl, hnone⟩
  | @opened q w _ entry ops _ hq _ _ _ _ hproc _ hrtc =>
    have hfd : (k'.proc.fd q w).fopsPtr = some ops := by
      rw [hproc, k.setFd_fd_self]
    by_cases hops : ops = .rtc
    · rw [if_pos hops] at hrtc
      exact Or.inl ⟨q, w, hq, fdOf_val w, by rw [hfd, hops], hrtc⟩
    · rw [if_neg hops] at hrtc
      refine Or.inr ⟨hrtc, fun q' w' hq' hw' => ?_⟩
      obtain rfl : q = q' := Option.some.inj (hq.symm.trans hq')
      obtain rfl : w = w' := Option.some.inj ((fdOf_val w).symm.trans hw')
      rw [hfd]
      simpa using hops

theorem getargs_rtc {mem : Nat → UInt8} {nbytes : Int} {r : Reply}
    (h : k.getargs mem nbytes = some (r, k')) : k'.rtc = k.rtc := by
  rcases getargs_cases h with ⟨_, rfl⟩ | ⟨_, q, _, rfl⟩
  · rfl
  · rfl

theorem mouseHandler_rtc {p : Packet} (h : k.mouseHandler p = some k') : k'.rtc = k.rtc := by
  rcases mouseHandler_cases h with rfl | ⟨k1, x, y, flag, rfl, hrtc, _⟩
  · rfl
  · exact hrtc

theorem pitHandler_rtc {ctl ctl' : Ctl} {regs : Frame}
    (h : k.pitHandler img ctl regs = some (k', ctl')) : k'.rtc = k.rtc := by
  rcases pitHandler_cases h with ⟨_, rfl, _⟩ | ⟨t, _, _, ⟨_, p', _, rfl, _⟩ | ⟨_, q, p', _, rfl, _⟩ |
    ⟨q, _, rfl, _⟩⟩
  · rfl
  · rfl
  · rfl
  · rfl

end Kernel

theorem HaltPc.exec_clock {pc : HaltPc} {l : HaltLocals} {k k' : Kernel} {c : Ctl}
    (h : pc.exec l k = some (k', c)) : SameClock k.rtc k'.rtc := by
  rcases exec_cases h with ⟨fd, v, hclose⟩ | ⟨_, hrtc, _⟩
  · exact Kernel.close_clock hclose
  · rw [hrtc]
    exact .refl _

theorem halt_clock {k k' : Kernel} {status : UInt8} {c : Ctl}
    (h : halt k status = some (k', c)) : SameClock k.rtc k'.rtc :=
  halt_rel (R := fun k k' => SameClock k.rtc k'.rtc) (fun _ => .refl _) .trans HaltPc.exec_clock h

namespace Machine

variable {img : Image} {m m' : Machine} {e : Event}

/-- The process that enters `rtc_read` in this event. -/
def entersRtc (img : Image) (m : Machine) : Event → Option Pid
  | .read fd buf nbytes =>
    match m.program, m.kern.read img fd buf nbytes with
    | some p, some (.rtc _) => some p
    | _, _ => none
  | _ => none

/-- The process whose `rtc_read` returns in this event. -/
def leavesRtc (m : Machine) : Event → Option Pid
  | .go =>
    match m.ctl with
    | .waiting p => if m.kern.rtc.rtcInterrupt then some p else none
    | _ => none
  | _ => none

/-- The process that calls `rtc_open` or `rtc_write` successfully in this event, and the rate it
selects. -/
def selectsRate (img : Image) (m : Machine) : Event → Option (Pid × UInt8)
  | .open' name =>
    match m.program, m.kern.currPid, m.kern.open' img name with
    | some p, some q, some (v, k') =>
      (Kernel.fdOf v).bind fun w =>
        if (k'.proc.fd q w).fopsPtr = some .rtc then some (p, 15) else none
    | _, _, _ => none
  | .write fd buf nbytes =>
    match m.program, m.kern.currPid, Kernel.fdOf fd, buf, m.kern.write fd buf nbytes with
    | some p, some q, some w, some b, some (r, _) =>
      if (m.kern.proc.fd q w).fopsPtr = some .rtc ∧ r.ret = 0 then
        some (p, Rtc.rateOf (leNat [b 0, b 1, b 2, b 3]))
      else none
    | _, _, _, _, _ => none
  | _ => none

/-- The process that is in the loop of `rtc_read`. -/
def waitsAt (m : Machine) : Option Pid :=
  match m.ctl with
  | .waiting p => some p
  | _ => none

theorem waitsAt_eq_some {p : Pid} : m.waitsAt = some p ↔ m.ctl = .waiting p := by
  cases h : m.ctl <;> simp [waitsAt, h]

/-- What an event does to the flag and the rate. -/
inductive RtcKind (img : Image) (m m' : Machine) : Event → Prop
  | same {e : Event} : e ≠ .rtc → entersRtc img m e = none → selectsRate img m e = none →
      SameClock m.kern.rtc m'.kern.rtc → RtcKind img m m' e
  | interrupt : m' = ⟨{ m.kern with rtc := m.kern.rtc.handler }, m.ctl⟩ → RtcKind img m m' .rtc
  | entered {fd nbytes : Int} {buf : Option (Nat → UInt8)} {p : Pid} :
      entersRtc img m (.read fd buf nbytes) = some p → m'.kern.rtc.rtcInterrupt = false →
      m'.kern.rtc.rate = m.kern.rtc.rate → RtcKind img m m' (.read fd buf nbytes)
  | selected {e : Event} {p : Pid} {v : UInt8} : e ≠ .rtc → entersRtc img m e = none →
      selectsRate img m e = some (p, v) →
      m'.kern.rtc.rtcInterrupt = m.kern.rtc.rtcInterrupt → m'.kern.rtc.rate = v →
      RtcKind img m m' e

/-- The inversion of one event, for the clock. -/
theorem step_rtc (h : step img m e = some m') : RtcKind img m m' e := by
  cases step_cases h with
  | tick hp => exact .same (by simp) rfl rfl (by rw [Kernel.pitHandler_rtc hp]; exact .refl _)
  | key heq => exact .same (by simp) rfl rfl (by rw [heq]; exact .refl _)
  | mouse hk => exact .same (by simp) rfl rfl (by rw [Kernel.mouseHandler_rtc hk]; exact .refl _)
  | rtc heq => exact .interrupt heq
  | statement _ hx => exact .same (by simp) rfl rfl (HaltPc.exec_clock hx)
  | finish _ _ heq => exact .same (by simp) rfl rfl (by rw [heq]; exact .refl _)
  | poll _ hx => exact .same (by simp) rfl rfl (by rw [(Kernel.readStep_proc hx).2.1]; exact .refl _)
  | rtcPoll _ heq => exact .same (by simp) rfl rfl (by rw [heq]; exact .refl _)
  | returned _ _ heq => exact .same (by simp) rfl rfl (by rw [heq]; exact .refl _)
  | entered _ _ heq => exact .same (by simp) rfl rfl (by rw [heq]; exact .refl _)
  | halt _ hx => exact .same (by simp) rfl rfl (halt_clock hx)
  | haltCall _ hx => exact .same (by simp) rfl rfl (by rw [Kernel.haltEntry_kern hx]; exact .refl _)
  | read hc hx =>
    refine .same (by simp) ?_ rfl (by rw [Kernel.read_clock hx]; exact .refl _)
    simp only [entersRtc, program_eq_some.mpr hc, hx]
  | readTerminal hc hx heq =>
    refine .same (by simp) ?_ rfl (by rw [heq]; exact .refl _)
    simp only [entersRtc, program_eq_some.mpr hc, hx]
  | @readRtc _ _ _ p hc hx =>
    refine .entered (p := p) ?_ ?_ ?_
    · simp only [entersRtc, program_eq_some.mpr hc, hx]
    · rw [Kernel.read_rtc hx]
      rfl
    · rw [Kernel.read_rtc hx]
      rfl
  | @write _ _ _ p r hc hx =>
    rcases Kernel.write_rtc hx with ⟨q, w, b, hq, hw, rfl, hops, hret, hrtc⟩ | ⟨hrtc, hno⟩
    · rcases m.kern.rtc.write_cases (leNat [b 0, b 1, b 2, b 3]) with ⟨h1, h2⟩ | ⟨h1, h2, h3⟩
      · refine .same (by simp) rfl ?_ (by rw [hrtc, h2]; exact .refl _)
        simp only [selectsRate, program_eq_some.mpr hc, hq, hw, hx]
        rw [if_neg (by rw [hret, h1]; simp)]
      · refine .selected (p := p) (by simp) rfl ?_ (by rw [hrtc, h3]) (by rw [hrtc, h2])
        simp only [selectsRate, program_eq_some.mpr hc, hq, hw, hx]
        rw [if_pos ⟨hops, hret.trans h1⟩]
    · refine .same (by simp) rfl ?_ (by rw [hrtc]; exact .refl _)
      simp only [selectsRate]
      split
      · rename_i hq hw hx'
        rw [hx] at hx'
        cases hx'
        rw [if_neg]
        rintro ⟨hops, hret⟩
        rw [hno _ _ hq hw hops] at hret
        cases hret
      · rfl
  | @open' _ p v hc hx =>
    rcases Kernel.open_rtc hx with ⟨q, w, hq, hw, hops, hrtc⟩ | ⟨hrtc, hno⟩
    · refine .selected (p := p) (v := 15) (by simp) rfl ?_ (by rw [hrtc]; rfl)
        (by rw [hrtc, Rtc.open_rate])
      simp only [selectsRate, program_eq_some.mpr hc, hq, hx, hw, Option.bind_some, if_pos hops]
    · refine .same (by simp) rfl ?_ (by rw [hrtc]; exact .refl _)
      simp only [selectsRate]
      split
      · rename_i hq hx'
        rw [hx] at hx'
        cases hx'
        refine Option.bind_eq_none_iff.mpr fun w hw => ?_
        rw [if_neg (hno _ _ hq hw)]
      · rfl
  | close _ hx => exact .same (by simp) rfl rfl (Kernel.close_clock hx)
  | getargs _ hx => exact .same (by simp) rfl rfl (by rw [Kernel.getargs_rtc hx]; exact .refl _)
  | vidmap _ hx => exact .same (by simp) rfl rfl (by rw [(Kernel.vidmap_cases hx).2.1]; exact .refl _)
  | setHandler _ heq => exact .same (by simp) rfl rfl (by rw [heq]; exact .refl _)
  | sigreturn _ heq => exact .same (by simp) rfl rfl (by rw [heq]; exact .refl _)

/-! ## The users of the clock -/

/-- `waiting q`: process `q` is in `rtc_read`; the flag says whether an RTC interrupt has come since
`q` reset `rtc_interrupt`. `rate q`: the rate that the last successful `rtc_open` or `rtc_write` of
`q` selected. `last`: the rate that any process selected last. -/
structure RtcTrace where
  waiting : Pid → Option Bool
  rate : Pid → Option UInt8
  last : Option UInt8

namespace RtcTrace

variable {tr : RtcTrace} {p q : Pid} {v : UInt8}

def empty : RtcTrace := ⟨fun _ => none, fun _ => none, none⟩

def record (img : Image) (m : Machine) (e : Event) (tr : RtcTrace) : RtcTrace :=
  match e with
  | .rtc => { tr with waiting := fun q => (tr.waiting q).map fun _ => true }
  | .read _ _ _ =>
    match entersRtc img m e with
    | some p => { tr with waiting := Function.update tr.waiting p (some false) }
    | none => tr
  | .go =>
    match leavesRtc m e with
    | some p => { tr with waiting := Function.update tr.waiting p none }
    | none => tr
  | .open' _ | .write _ _ _ =>
    match selectsRate img m e with
    | some (p, v) => { tr with rate := Function.update tr.rate p (some v), last := some v }
    | none => tr
  | .execute _ _ _ | .tick _ _ =>
    -- a new process has nothing to do with what its pid was used for before
    match started img m e with
    | some c =>
      { tr with
        waiting := Function.update tr.waiting c none
        rate := Function.update tr.rate c none }
    | none => tr
  | _ => tr

theorem record_entered (h : entersRtc img m e = some p) :
    record img m e tr = { tr with waiting := Function.update tr.waiting p (some false) } := by
  cases e with
  | read fd buf nbytes => simp only [record, h]
  | _ => cases h

theorem record_selected (h : selectsRate img m e = some (p, v)) : record img m e tr =
    { tr with rate := Function.update tr.rate p (some v), last := some v } := by
  cases e with
  | open' name => simp only [record, h]
  | write fd buf nbytes => simp only [record, h]
  | _ => cases h

/-- An event that is no use of the clock adds nothing: a process that started is forgotten, and one
that has returned from `rtc_read` waits no longer. -/
theorem record_other (tr : RtcTrace) (hr : e ≠ .rtc) (hn : entersRtc img m e = none)
    (hs : selectsRate img m e = none) (q : Pid) :
    ((record img m e tr).waiting q = tr.waiting q ∨ (record img m e tr).waiting q = none) ∧
      ((record img m e tr).rate q = tr.rate q ∨ (record img m e tr).rate q = none) ∧
      (record img m e tr).last = tr.last := by
  have hupdate : ∀ {α : Type} (f : Pid → Option α) (p : Pid),
      Function.update f p none q = f q ∨ Function.update f p none q = none := by
    intro α f p
    by_cases hq : q = p
    · subst hq
      exact Or.inr (Function.update_self ..)
    · exact Or.inl (Function.update_of_ne hq ..)
  cases e with
  | rtc => exact absurd rfl hr
  | read fd buf nbytes =>
    simp only [record, hn]
    exact ⟨Or.inl trivial, Or.inl trivial, trivial⟩
  | open' name =>
    simp only [record, hs]
    exact ⟨Or.inl trivial, Or.inl trivial, trivial⟩
  | write fd buf nbytes =>
    simp only [record, hs]
    exact ⟨Or.inl trivial, Or.inl trivial, trivial⟩
  | go =>
    simp only [record]
    split
    · exact ⟨hupdate _ _, Or.inl rfl, rfl⟩
    · exact ⟨Or.inl rfl, Or.inl rfl, rfl⟩
  | execute command esp ebp =>
    simp only [record]
    split
    · exact ⟨hupdate _ _, hupdate _ _, rfl⟩
    · exact ⟨Or.inl rfl, Or.inl rfl, rfl⟩
  | tick esp ebp =>
    simp only [record]
    split
    · exact ⟨hupdate _ _, hupdate _ _, rfl⟩
    · exact ⟨Or.inl rfl, Or.inl rfl, rfl⟩
  | _ => exact ⟨Or.inl rfl, Or.inl rfl, rfl⟩

end RtcTrace

/-- The machine with the record of the users of the clock. -/
def clockStep (img : Image) : Machine × RtcTrace → Event → Option (Machine × RtcTrace) :=
  withHistory (step img) (RtcTrace.record img)

def ClockBoot (s : Machine × RtcTrace) : Prop := Boot s.1 ∧ s.2 = RtcTrace.empty

variable {tr : RtcTrace}

/-! ## The flag -/

/-- `rtc_interrupt` is set while a process has not yet seen the tick that it waits for. -/
def TickKept (s : Machine × RtcTrace) : Prop :=
  ∀ p, s.2.waiting p = some true → s.1.kern.rtc.rtcInterrupt = true

/-- A process that tests `rtc_interrupt` after its tick has come sees it, and `rtc_read` returns. -/
def TickSeen (img : Image) (s : Machine × RtcTrace) : Prop :=
  ∀ p, s.2.waiting p = some true → s.1.ctl = .waiting p →
    s.1.kern.rtc.rtcInterrupt = true ∧
      call img s.1 .go = some (⟨s.1.kern, .user p⟩, some ⟨0, []⟩)

/-- A process enters `rtc_read` before another one has seen the tick that it waits for. -/
def Steals (img : Image) (s : Machine × RtcTrace) (e : Event) : Prop :=
  ∃ p ∈ entersRtc img s.1 e, ∃ q, q ≠ p ∧ s.2.waiting q = some true

instance (s : Machine × RtcTrace) : Decidable (Steals img s e) :=
  inferInstanceAs (Decidable (∃ p ∈ entersRtc img s.1 e, ∃ q, q ≠ p ∧ s.2.waiting q = some true))

theorem TickKept.seen {s : Machine × RtcTrace} (h : TickKept s) : TickSeen img s := by
  intro p hp hc
  refine ⟨h p hp, ?_⟩
  simp only [call, hc, go, Kernel.rtcStep, h p hp, if_true]

theorem TickKept.next_iff (h : TickKept (m, tr)) (hs : step img m e = some m') :
    TickKept (m', RtcTrace.record img m e tr) ↔ ¬ Steals img (m, tr) e := by
  constructor
  · rintro h' ⟨p, hp, q, hq, hw⟩
    rw [Option.mem_def] at hp
    have hflag : m'.kern.rtc.rtcInterrupt = true := by
      refine h' q ?_
      rw [RtcTrace.record_entered hp]
      exact (Function.update_of_ne hq ..).trans hw
    cases step_rtc hs with
    | same _ hn => rw [hp] at hn; cases hn
    | interrupt => cases hp
    | entered _ hf => rw [hf] at hflag; cases hflag
    | selected _ hn => rw [hp] at hn; cases hn
  · intro hno q hw
    cases step_rtc hs with
    | same hr hn hsel hclock =>
      rcases (RtcTrace.record_other tr hr hn hsel q).1 with heq | heq
      · rw [heq] at hw
        exact hclock.rtcInterrupt.trans (h q hw)
      · rw [heq] at hw
        cases hw
    | interrupt heq =>
      rw [heq]
      rfl
    | @entered _ _ _ p hp =>
      simp only [RtcTrace.record_entered hp] at hw
      by_cases hq : q = p
      · subst hq
        rw [Function.update_self] at hw
        cases hw
      · rw [Function.update_of_ne hq] at hw
        exact absurd ⟨p, hp, q, hq, hw⟩ hno
    | selected _ _ hsel hf =>
      rw [RtcTrace.record_selected hsel] at hw
      exact hf.trans (h q hw)

/-- In every run in which no process enters `rtc_read` while a tick that another one waits for is
not yet seen, such a tick is kept, and it ends the wait at the next test; and the next event keeps it
exactly when it is not such an entry. -/
theorem rtc_tick_not_lost (img : Image) (s : Machine × RtcTrace)
    (h : Reach (clockStep img) ClockBoot (fun s e => ¬ Steals img s e) s) :
    TickKept s ∧ TickSeen img s ∧
      ∀ e s', clockStep img s e = some s' → (TickKept s' ↔ ¬ Steals img s e) := by
  have hkept : TickKept s := by
    refine h.inv (I := TickKept) ?_ ?_
    · intro s hb p hp
      rw [hb.2] at hp
      cases hp
    · rintro ⟨m, tr⟩ e ⟨m', tr'⟩ hi hno hs
      obtain ⟨hs, rfl⟩ := EventSystem.withHistory_eq_some.mp hs
      exact (hi.next_iff hs).mpr hno
  refine ⟨hkept, hkept.seen, ?_⟩
  rintro e ⟨m', tr'⟩ hs
  obtain ⟨hs, rfl⟩ := EventSystem.withHistory_eq_some.mp hs
  exact hkept.next_iff hs

def rtcName : CString := [114, 116, 99]

/-- `disk` with the directory entry of the device. -/
def clockDisk : Image := { disk with
  dirCount := 4
  direntries := fun i => if i = 3 then ⟨fun j => rtcName.getD j 0, 0, 0⟩ else disk.direntries i }

/-- A base shell starts, opens the device and waits in `rtc_read`. -/
def shellWaits : List Event :=
  [.tick 0 0, .open' (some rtcName), .read 2 (some fun _ => 0) 4]

/-- Two shells wait for the same tick. -/
theorem rtc_tick_not_lost_two : ∃ s : Machine × RtcTrace,
    (s.2.waiting 0 = some true ∧ s.2.waiting 1 = some true) ∧ TickKept s ∧
      TickSeen clockDisk s := by
  have hrun : (run (fun s e =>
        if decide (¬ Steals clockDisk s e) then clockStep clockDisk s e else none)
      (booted, RtcTrace.empty) (shellWaits ++ shellWaits ++ [.rtc])).map
      (fun s => (s.2.waiting 0, s.2.waiting 1)) = some (some true, some true) := by
    decide +kernel
  obtain ⟨s, hs, hp⟩ := Option.map_eq_some_iff.mp hrun
  obtain ⟨h0, h1⟩ := Prod.mk.inj hp
  have hreach : Reach (clockStep clockDisk) ClockBoot (fun s e => ¬ Steals clockDisk s e) s :=
    Reach.of_checked (fun _ _ => of_decide_eq_true) (.init ⟨boot_booted, rfl⟩) hs
  obtain ⟨hkept, hseen, _⟩ := rtc_tick_not_lost clockDisk s hreach
  exact ⟨s, ⟨h0, h1⟩, hkept, hseen⟩

/-- The first shell waits and the tick comes; before it runs again, the second shell enters
`rtc_read`. Back in the loop, the first shell finds the flag reset. -/
theorem rtc_tick_stolen : ¬ ∀ (img : Image) (s : Machine × RtcTrace),
    Reach (clockStep img) ClockBoot (fun _ _ => True) s → TickSeen img s := by
  intro h
  have hrun : (run (clockStep clockDisk) (booted, RtcTrace.empty)
      (shellWaits ++ [.rtc] ++ shellWaits ++ [.tick 0 0, .tick 0 0])).map
      (fun s => (s.2.waiting 0, s.1.waitsAt, s.1.kern.rtc.rtcInterrupt)) =
        some (some true, some 0, false) := by
    decide +kernel
  obtain ⟨s, hs, hp⟩ := Option.map_eq_some_iff.mp hrun
  simp only [Prod.mk.injEq] at hp
  obtain ⟨hw, hc, hf⟩ := hp
  have hreach : Reach (clockStep clockDisk) ClockBoot (fun _ _ => True) s :=
    Reach.of_any (.init ⟨boot_booted, rfl⟩) hs
  have hseen := (h clockDisk s hreach 0 hw (waitsAt_eq_some.mp hc)).1
  rw [hf] at hseen
  cases hseen

/-! ## The rate -/

/-- A process that waits in `rtc_read` waits at the rate it has selected itself. -/
def RateOwn (s : Machine × RtcTrace) : Prop :=
  ∀ p v, s.2.waiting p ≠ none → s.2.rate p = some v → s.1.kern.rtc.rate = v

/-- A process selects a rate while another one waits that has selected a different one. -/
def Retunes (img : Image) (s : Machine × RtcTrace) (e : Event) : Prop :=
  ∃ x ∈ selectsRate img s.1 e, ∃ q, q ≠ x.1 ∧ s.2.waiting q ≠ none ∧ ∃ w ∈ s.2.rate q, w ≠ x.2

/-- A process begins to wait, but the last rate that was selected is not its own. -/
def WaitsAtOther (img : Image) (s : Machine × RtcTrace) (e : Event) : Prop :=
  ∃ p ∈ entersRtc img s.1 e, ∃ w ∈ s.2.rate p, s.2.last ≠ some w

instance (s : Machine × RtcTrace) : Decidable (Retunes img s e) :=
  inferInstanceAs (Decidable (∃ x ∈ selectsRate img s.1 e, ∃ q, q ≠ x.1 ∧ s.2.waiting q ≠ none ∧
    ∃ w ∈ s.2.rate q, w ≠ x.2))

instance (s : Machine × RtcTrace) : Decidable (WaitsAtOther img s e) :=
  inferInstanceAs (Decidable (∃ p ∈ entersRtc img s.1 e, ∃ w ∈ s.2.rate p, s.2.last ≠ some w))

/-- Register A holds the rate that was selected last. -/
structure LastRate (m : Machine) (tr : RtcTrace) : Prop where
  value : ∀ v, tr.last = some v → m.kern.rtc.rate = v
  selected : ∀ p v, tr.rate p = some v → tr.last ≠ none

theorem LastRate.empty (m : Machine) : LastRate m .empty := by
  constructor
  · intro v hv
    cases hv
  · intro p v hv
    cases hv

theorem LastRate.next (h : LastRate m tr) (hs : step img m e = some m') :
    LastRate m' (RtcTrace.record img m e tr) := by
  cases step_rtc hs with
  | same hr hn hsel hclock =>
    refine ⟨fun v hv => ?_, fun p v hv => ?_⟩
    · rw [(RtcTrace.record_other tr hr hn hsel 0).2.2] at hv
      exact hclock.rate.trans (h.value v hv)
    · obtain ⟨_, hrate, hlast⟩ := RtcTrace.record_other tr hr hn hsel p
      rw [hlast]
      rcases hrate with heq | heq
      · rw [heq] at hv
        exact h.selected p v hv
      · rw [heq] at hv
        cases hv
  | interrupt heq =>
    rw [heq]
    exact ⟨h.value, h.selected⟩
  | entered hp _ hrate =>
    rw [RtcTrace.record_entered hp]
    exact ⟨fun v hv => hrate.trans (h.value v hv), h.selected⟩
  | selected _ _ hsel _ hrate =>
    rw [RtcTrace.record_selected hsel]
    refine ⟨fun v hv => ?_, fun _ _ _ => Option.some_ne_none _⟩
    cases hv
    exact hrate

theorem RateOwn.next_iff (h : RateOwn (m, tr)) (hl : LastRate m tr) (hs : step img m e = some m') :
    RateOwn (m', RtcTrace.record img m e tr) ↔
      ¬ (Retunes img (m, tr) e ∨ WaitsAtOther img (m, tr) e) := by
  constructor
  · rintro h' (⟨⟨p, v⟩, hsel, q, hq, hwait, w, hw, hne⟩ | ⟨p, hp, w, hw, hlast⟩)
    · rw [Option.mem_def] at hsel hw
      have hrate : m'.kern.rtc.rate = w := by
        refine h' q w ?_ ?_
        · rw [RtcTrace.record_selected hsel]
          exact hwait
        · rw [RtcTrace.record_selected hsel]
          exact (Function.update_of_ne hq ..).trans hw
      cases step_rtc hs with
      | same _ _ hnone => rw [hsel] at hnone; cases hnone
      | interrupt => cases hsel
      | entered => cases hsel
      | selected _ _ hsel' _ hv =>
        rw [hsel] at hsel'
        cases hsel'
        exact hne (hrate.symm.trans hv)
    · rw [Option.mem_def] at hp hw
      have hrate : m'.kern.rtc.rate = w := by
        refine h' p w ?_ ?_
        · rw [RtcTrace.record_entered hp]
          simp
        · rw [RtcTrace.record_entered hp]
          exact hw
      cases step_rtc hs with
      | same _ hnone => rw [hp] at hnone; cases hnone
      | interrupt => cases hp
      | selected _ hnone => rw [hp] at hnone; cases hnone
      | entered _ _ hsame =>
        obtain ⟨v, hv⟩ := Option.ne_none_iff_exists'.mp (hl.selected p w hw)
        refine hlast ?_
        rw [hv, ← hl.value v hv, ← hsame, hrate]
  · intro hno q w hwait hw
    cases step_rtc hs with
    | same hr hn hsel hclock =>
      obtain ⟨hwait', hrate', _⟩ := RtcTrace.record_other tr hr hn hsel q
      rcases hwait' with heq | heq
      · rw [heq] at hwait
        rcases hrate' with heq' | heq'
        · rw [heq'] at hw
          exact hclock.rate.trans (h q w hwait hw)
        · rw [heq'] at hw
          cases hw
      · exact absurd heq hwait
    | interrupt heq =>
      rw [heq]
      refine h q w ?_ hw
      simpa [RtcTrace.record] using hwait
    | @entered _ _ _ p hp _ hsame =>
      simp only [RtcTrace.record_entered hp] at hwait hw
      show m'.kern.rtc.rate = w
      rw [hsame]
      by_cases hq : q = p
      · subst hq
        by_cases hlast : tr.last = some w
        · exact hl.value w hlast
        · exact absurd (Or.inr ⟨q, hp, w, hw, hlast⟩) hno
      · rw [Function.update_of_ne hq] at hwait
        exact h q w hwait hw
    | @selected _ p v _ _ hsel _ hrate =>
      simp only [RtcTrace.record_selected hsel] at hwait hw
      show m'.kern.rtc.rate = w
      rw [hrate]
      by_cases hq : q = p
      · subst hq
        rw [Function.update_self] at hw
        exact Option.some.inj hw
      · rw [Function.update_of_ne hq] at hw
        by_contra hne
        exact hno (Or.inl ⟨(p, v), hsel, q, hq, hwait, w, hw, fun heq => hne heq.symm⟩)

/-- In every run in which no process selects a rate while another one waits at a different one, and
none begins to wait at the rate of another process, every process waits at its own rate; and the next
event keeps this exactly when it does neither. -/
theorem rtc_rate_is_own (img : Image) (s : Machine × RtcTrace)
    (h : Reach (clockStep img) ClockBoot
      (fun s e => ¬ (Retunes img s e ∨ WaitsAtOther img s e)) s) :
    RateOwn s ∧ ∀ e s', clockStep img s e = some s' →
      (RateOwn s' ↔ ¬ (Retunes img s e ∨ WaitsAtOther img s e)) := by
  have hinv : LastRate s.1 s.2 ∧ RateOwn s := by
    refine h.inv (I := fun s => LastRate s.1 s.2 ∧ RateOwn s) ?_ ?_
    · rintro ⟨m, tr⟩ ⟨_, rfl⟩
      exact ⟨LastRate.empty m, fun p v hp => absurd rfl hp⟩
    · rintro ⟨m, tr⟩ e ⟨m', tr'⟩ ⟨hl, hi⟩ hno hs
      obtain ⟨hs, rfl⟩ := EventSystem.withHistory_eq_some.mp hs
      exact ⟨hl.next hs, (hi.next_iff hl hs).mpr hno⟩
  refine ⟨hinv.2, ?_⟩
  rintro e ⟨m', tr'⟩ hs
  obtain ⟨hs, rfl⟩ := EventSystem.withHistory_eq_some.mp hs
  exact hinv.2.next_iff hinv.1 hs

/-- Two shells wait at the rate of `rtc_open`. -/
theorem rtc_rate_is_own_two : ∃ s : Machine × RtcTrace,
    (s.2.waiting 0 = some false ∧ s.2.waiting 1 = some false) ∧ s.2.rate 0 = some 15 ∧
      RateOwn s := by
  have hrun : (run (fun s e => if decide (¬ (Retunes clockDisk s e ∨ WaitsAtOther clockDisk s e))
        then clockStep clockDisk s e else none)
      (booted, RtcTrace.empty) (shellWaits ++ shellWaits)).map
      (fun s => (s.2.waiting 0, s.2.waiting 1, s.2.rate 0)) =
        some (some false, some false, some 15) := by
    decide +kernel
  obtain ⟨s, hs, hp⟩ := Option.map_eq_some_iff.mp hrun
  simp only [Prod.mk.injEq] at hp
  obtain ⟨h0, h1, hrate⟩ := hp
  have hreach : Reach (clockStep clockDisk) ClockBoot
      (fun s e => ¬ (Retunes clockDisk s e ∨ WaitsAtOther clockDisk s e)) s :=
    Reach.of_checked (fun _ _ => of_decide_eq_true) (.init ⟨boot_booted, rfl⟩) hs
  exact ⟨s, ⟨h0, h1⟩, hrate, (rtc_rate_is_own clockDisk s hreach).1⟩

/-- The first shell selects 32 Hz and waits; the second one opens the device, which selects 2 Hz. -/
theorem rtc_rate_is_shared : ¬ ∀ (img : Image) (s : Machine × RtcTrace),
    Reach (clockStep img) ClockBoot (fun _ _ => True) s → RateOwn s := by
  intro h
  have hrun : (run (clockStep clockDisk) (booted, RtcTrace.empty)
      [.tick 0 0, .open' (some rtcName), .write 2 (some fun i => if i = 0 then 32 else 0) 4,
        .read 2 (some fun _ => 0) 4, .tick 0 0, .open' (some rtcName)]).map
      (fun s => (s.2.waiting 0, s.2.rate 0, s.1.kern.rtc.rate)) =
        some (some false, some 11, 15) := by
    decide +kernel
  obtain ⟨s, hs, hp⟩ := Option.map_eq_some_iff.mp hrun
  simp only [Prod.mk.injEq] at hp
  obtain ⟨hw, hrate, hreg⟩ := hp
  have hreach : Reach (clockStep clockDisk) ClockBoot (fun _ _ => True) s :=
    Reach.of_any (.init ⟨boot_booted, rfl⟩) hs
  have hown := h clockDisk s hreach 0 11 (by rw [hw]; simp) hrate
  rw [hreg] at hown
  cases hown

end Machine
end DeviceOS
