import DeviceOS.ConsoleSteps

/-!
# DeviceOS.EnterFlag

`enter_flag`: the keyboard interrupt sets it on Enter, `terminal_read` polls it and clears it. The
next keyboard interrupt clears it too, whatever its scan code is.

* `Entered`: for each terminal the line that Enter has ended and no `terminal_read` has taken.
* `KeyOnEnter`: a keyboard interrupt comes while the flag of the displayed terminal is set.
  `LateTest`: a `terminal_read` comes to its first test of the flag when the flag is already set; it
  skips its loop, and the loop variable is never set.
* `enter_not_lost`: without these, such a line stays, with its flag, until a `terminal_read` on its
  terminal returns, and the next poll of that call returns.
-/

namespace DeviceOS

open EventSystem (Reach run withHistory)

/-- What an output routine, the mouse or another terminal's keys can do to a line. -/
structure LineKept (s s' : Terminal) : Prop where
  keyboardBuf : s'.keyboardBuf = s.keyboardBuf
  keyboardIdx : s'.keyboardIdx = s.keyboardIdx
  enterFlag : s.enterFlag = true → s'.enterFlag = true

theorem LineKept.refl (s : Terminal) : LineKept s s := ⟨rfl, rfl, id⟩

theorem SameLine.lineKept {s s' : Terminal} (h : SameLine s s') : LineKept s s' :=
  ⟨h.keyboardBuf, h.keyboardIdx, fun hf => h.enterFlag.trans hf⟩

theorem LineKept.trans {s s' s'' : Terminal} (h1 : LineKept s s') (h2 : LineKept s' s'') :
    LineKept s s'' :=
  ⟨h2.keyboardBuf.trans h1.keyboardBuf, h2.keyboardIdx.trans h1.keyboardIdx,
    fun h => h2.enterFlag (h1.enterFlag h)⟩

namespace Kernel

variable {k k' : Kernel}

theorem togglePaint_lines (k : Kernel) (t : Term) :
    LineKept (k.con.terminalStruct t) (k.togglePaint.1.con.terminalStruct t) := by
  simp only [togglePaint]
  have h := (Console.clearScreen_drawn k.con).lines t
  split
  · by_cases ht : t = k.con.curTerminal
    · subst ht
      rw [Console.setTerm_self]
      exact ⟨h.keyboardBuf, h.keyboardIdx, fun _ => rfl⟩
    · rw [Console.setTerm_of_ne _ _ ht]
      exact h.lineKept
  · exact h.lineKept

theorem mouseHandler_lines {p : Packet} (h : k.mouseHandler p = some k') (t : Term) :
    LineKept (k.con.terminalStruct t) (k'.con.terminalStruct t) := by
  rcases mouseHandler_drawn h with hd | hd
  · exact (hd.lines t).lineKept
  · exact (togglePaint_lines k t).trans (hd.lines t).lineKept

end Kernel

/-- A call of `terminal_read` on terminal `t` before its first test of `enter_flag`. -/
def Ctl.BeforeTest (t : Term) : Ctl → Prop
  | .reading _ r => r.term = t ∧ r.i = none
  | _ => False

instance (t : Term) (c : Ctl) : Decidable (c.BeforeTest t) := by
  cases c <;> simp only [Ctl.BeforeTest] <;> infer_instance

theorem Reader.i_of_more {s : Terminal} {r r' : Reader} (h : r.step s = .more r') : r'.i ≠ none := by
  simp only [Reader.step] at h
  split at h
  · split at h
    · split at h <;> cases h
    · cases h
      simp [Reader.atLoop]
  · cases h
  · rename_i i hi
    split at h
    · cases h
      simp [hi]
    · cases h
  · rename_i i hi
    split at h
    · cases h
      simp [hi]
    · cases h
      simp [Reader.atLoop]

/-- `halt` calls no `terminal_read`. -/
theorem HaltPc.exec_beforeTest {pc : HaltPc} {l : HaltLocals} {k k' : Kernel} {c : Ctl} {t : Term}
    (h : pc.exec l k = some (k', c)) : ¬ c.BeforeTest t := by
  cases pc with
  | mapParent =>
    simp only [exec] at h
    split at h <;> cases h <;> exact id
  | closeFds i =>
    obtain ⟨_, _, heq⟩ := Option.map_eq_some_iff.mp h
    cases heq
    exact id
  | typing | popPid =>
    obtain ⟨_, _, heq⟩ := Option.map_eq_some_iff.mp h
    cases heq
    exact id
  | _ => cases h; exact id

theorem halt_beforeTest {k k' : Kernel} {status : UInt8} {c : Ctl} {t : Term}
    (h : halt k status = some (k', c)) : ¬ c.BeforeTest t := by
  obtain ⟨⟨k1, c1⟩, he, hr⟩ := Option.bind_eq_some_iff.mp h
  refine runHalt_inv (I := fun _ c => ¬ c.BeforeTest t) (fun _ hx => HaltPc.exec_beforeTest hx)
    (fun _ => id) ?_ hr
  obtain ⟨q, _, he⟩ := Option.bind_eq_some_iff.mp he
  split at he
  · cases he
  · split at he <;> cases he <;> exact id

namespace Machine

variable {img : Image} {m m' : Machine} {e : Event} {t : Term}

/-- A `terminal_read` on terminal `t` returns. -/
def Completes (m : Machine) (e : Event) (t : Term) : Prop :=
  e = .go ∧ ∃ p r buf ret, m.ctl = .reading p r ∧ r.term = t ∧
    r.step (m.kern.con.terminalStruct t) = .done buf ret

/-- A keyboard interrupt, with a scan code to read, while the displayed terminal's flag is set. -/
def KeyOnEnter (m : Machine) : Event → Prop
  | .key status _ => status ≠ 0 ∧
    (m.kern.con.terminalStruct m.kern.con.curTerminal).enterFlag = true
  | _ => False

/-- A `terminal_read` is going to make its first test of a flag that is set: the call is entered, or
resumed before that test, while the flag is set, or Enter is pressed before it. -/
def LateTest (img : Image) (m : Machine) : Event → Prop
  | .read fd buf nbytes => ∃ t, m.kern.read img fd buf nbytes = some (.terminal t) ∧
    (m.kern.con.terminalStruct t).enterFlag = true
  | .tick _ _ => ∃ t q s, m.kern.nextTerminal = some t ∧ m.kern.proc.pidArr t = some q ∧
    ((m.kern.suspended m.ctl t).proc.pcb q).program.BeforeTest s ∧
      (m.kern.con.terminalStruct s).enterFlag = true
  | .key status code => status ≠ 0 ∧ code = 0x1C ∧
    m.kern.proc.typingMask m.kern.con.curTerminal = true ∧
      m.ctl.BeforeTest m.kern.con.curTerminal
  | _ => False

/-- Every event but a keyboard interrupt on the displayed terminal and the return of a
`terminal_read` keeps the line and the flag. -/
theorem step_lineKept (h : step img m e = some m') (hc : ¬ Completes m e t)
    (hk : ∀ status code, e = .key status code → status = 0 ∨ t ≠ m.kern.con.curTerminal) :
    LineKept (m.kern.con.terminalStruct t) (m'.kern.con.terminalStruct t) := by
  cases step_console h with
  | same _ heq => rw [heq]; exact .refl _
  | still _ heq => rw [heq]; exact .refl _
  | start _ _ heq => rw [heq]; exact .refl _
  | resume _ _ heq => rw [heq]; exact .refl _
  | @typed status code heq =>
    subst heq
    rcases hk status code rfl with rfl | ht
    · exact .refl _
    · exact (Console.keyboardHandler_otherLines _ _ _ status code t ht).lineKept
  | moved hm => exact Kernel.mouseHandler_lines hm t
  | wrote heq =>
    rw [heq]
    exact ((Console.terminalWrite_drawn _ m.kern.con _).lines t).lineKept
  | mapped _ _ heq => rw [heq]; exact .refl _
  | @read p r buf ret shell hr hdone heq =>
    have ht : t ≠ r.term := by
      rintro rfl
      exact hc ⟨rfl, p, r, buf, ret, hr, rfl, hdone⟩
    rw [heq, Console.setTerm_of_ne _ _ ht]
    exact .refl _

/-! ## Lines that Enter has ended -/

/-- The lines that Enter has ended and no `terminal_read` has taken: length and bytes. -/
abbrev Entered := Term → Option (Nat × (Nat → UInt8))

def Entered.record (m : Machine) (e : Event) (w : Entered) : Entered :=
  match e with
  | .key status code =>
    let t := m.kern.con.curTerminal
    let s := m.kern.con.terminalStruct t
    if status ≠ 0 ∧ code = 0x1C ∧ m.kern.proc.typingMask t = true then
      Function.update w t (some (s.keyboardIdx, s.keyboardBuf))
    else w
  | .go =>
    match m.ctl with
    | .reading _ r =>
      match r.step (m.kern.con.terminalStruct r.term) with
      | .done _ _ => Function.update w r.term none
      | _ => w
    | _ => w
  | _ => w

/-- The machine with the lines that wait for a `terminal_read`. -/
def enteredStep (img : Image) : Machine × Entered → Event → Option (Machine × Entered) :=
  withHistory (step img) Entered.record

def EnteredBoot (s : Machine × Entered) : Prop := Boot s.1 ∧ ∀ t, s.2 t = none

/-- The flag and the line are there for the next `terminal_read`. -/
def Waiting (m : Machine) (w : Entered) : Prop :=
  ∀ t n buf, w t = some (n, buf) → (m.kern.con.terminalStruct t).enterFlag = true ∧
    (m.kern.con.terminalStruct t).keyboardIdx = n ∧
    (m.kern.con.terminalStruct t).keyboardBuf = buf

theorem Entered.record_completes {w : Entered} (h : Completes m e t) :
    Entered.record m e w t = none := by
  obtain ⟨rfl, p, r, buf, ret, hc, rfl, hdone⟩ := h
  simp only [record, hc, hdone, Function.update_self]

theorem Entered.record_eq {w : Entered}
    (hk : ∀ status, e = .key status 0x1C → status = 0 ∨ t ≠ m.kern.con.curTerminal) :
    Entered.record m e w t = w t ∨ Entered.record m e w t = none := by
  cases e with
  | key status code =>
    simp only [record]
    split
    · rename_i h
      obtain ⟨hs, rfl, _⟩ := h
      exact Or.inl (Function.update_of_ne ((hk status rfl).resolve_left hs) ..)
    · exact Or.inl rfl
  | go =>
    cases hc : m.ctl with
    | reading p r =>
      cases hr : r.step (m.kern.con.terminalStruct r.term) with
      | done buf ret =>
        simp only [record, hc, hr]
        by_cases ht : t = r.term
        · subst ht
          exact Or.inr (Function.update_self ..)
        · exact Or.inl (Function.update_of_ne ht ..)
      | _ =>
        simp only [record, hc, hr]
        exact Or.inl trivial
    | _ =>
      simp only [record, hc]
      exact Or.inl trivial
  | _ => exact Or.inl rfl

theorem Waiting.next {w : Entered} (h : Waiting m w) (hk : ¬ KeyOnEnter m e)
    (hs : step img m e = some m') : Waiting m' (Entered.record m e w) := by
  intro t n buf hw
  by_cases hkey : ∃ status code, e = .key status code ∧ status ≠ 0 ∧ t = m.kern.con.curTerminal
  · obtain ⟨status, code, rfl, hst, rfl⟩ := hkey
    -- the flag was not set, so what waits now is the line that this key ends
    have hflag : (m.kern.con.terminalStruct m.kern.con.curTerminal).enterFlag ≠ true :=
      fun hf => hk ⟨hst, hf⟩
    simp only [Entered.record] at hw
    split at hw
    · rename_i hcase
      obtain ⟨_, rfl, hty⟩ := hcase
      rw [Function.update_self] at hw
      cases hw
      cases step_console hs with
      | same hspare => exact hspare.elim
      | typed heq =>
        subst heq
        obtain ⟨h1, h2, h3⟩ := Console.keyboardHandler_enter m.kern.proc.typingMask
          m.kern.proc.terminalProcessIndex m.kern.con hst hty
        exact ⟨h1, h3, h2⟩
    · exact absurd (h _ n buf hw).1 hflag
  · have hother : ∀ status code, e = .key status code →
        status = 0 ∨ t ≠ m.kern.con.curTerminal := by
      intro status code he
      by_cases hst : status = 0
      · exact Or.inl hst
      · exact Or.inr fun ht => hkey ⟨status, code, he, hst, ht⟩
    by_cases hc : Completes m e t
    · rw [Entered.record_completes hc] at hw
      cases hw
    · have hkept := step_lineKept hs hc hother
      rcases Entered.record_eq (w := w) (fun status he => hother status _ he) with heq | heq
      · rw [heq] at hw
        obtain ⟨h1, h2, h3⟩ := h t n buf hw
        exact ⟨hkept.enterFlag h1, hkept.keyboardIdx.trans h2, hkept.keyboardBuf.trans h3⟩
      · rw [heq] at hw
        cases hw

/-- How the machine comes to be before the first test of a `terminal_read` on terminal `t`: it was
there, it is resumed there by a tick, or the call is entered. A call that goes on has set its loop
variable. -/
theorem beforeTest_cases (hs : step img m e = some m') (ht : m'.ctl.BeforeTest t) :
    m.ctl.BeforeTest t ∨
    (∃ esp ebp u q, e = .tick esp ebp ∧ m.kern.nextTerminal = some u ∧ m.kern.proc.pidArr u = some q ∧
      ((m.kern.suspended m.ctl u).proc.pcb q).program.BeforeTest t) ∨
    ∃ fd buf nbytes, e = .read fd buf nbytes ∧ m.kern.read img fd buf nbytes = some (.terminal t) := by
  cases step_cases hs with
  | @tick esp ebp hp =>
    rcases Kernel.pitHandler_cases hp with ⟨_, _, hc⟩ | ⟨u, hn, _, hcase⟩
    · rw [hc] at ht
      exact Or.inl ht
    · rcases hcase with ⟨_, _, _, _, hc⟩ | ⟨_, q, _, _, _, hc⟩ | ⟨q, hq, _, hc⟩
      · rw [hc] at ht
        exact Or.inl ht
      · rw [hc] at ht
        exact ht.elim
      · rw [hc] at ht
        exact Or.inr (Or.inl ⟨esp, ebp, u, q, rfl, hn, hq, ht⟩)
  | key heq | rtc heq =>
    rw [heq] at ht
    exact Or.inl ht
  | mouse _ hc =>
    rw [hc] at ht
    exact Or.inl ht
  | statement _ hx => exact absurd ht (HaltPc.exec_beforeTest hx)
  | finish _ _ heq =>
    rw [heq] at ht
    exact ht.elim
  | @poll p r y hc hx =>
    exfalso
    simp only [Kernel.readStep] at hx
    split at hx
    · rename_i hmore
      simp only [Option.some.injEq, Prod.mk.injEq] at hx
      rw [← hx.2.1] at ht
      exact Reader.i_of_more hmore ht.2
    · obtain ⟨_, _, heq⟩ := Option.map_eq_some_iff.mp hx
      simp only [Prod.mk.injEq] at heq
      rw [← heq.2.1] at ht
      exact ht.elim
    · cases hx
  | rtcPoll _ heq =>
    rw [heq] at ht
    simp only [Kernel.rtcStep] at ht
    split at ht <;> exact ht.elim
  | halt _ hx => exact absurd ht (halt_beforeTest hx)
  | haltCall _ hx =>
    exfalso
    obtain ⟨q, _, he⟩ := Option.bind_eq_some_iff.mp hx
    split at he
    · cases he
    · split at he <;> simp only [Option.some.injEq, Prod.mk.injEq] at he <;> rw [← he.2] at ht <;>
        exact ht
  | @readTerminal fd nbytes buf p u _ hx heq =>
    rw [heq] at ht
    obtain ⟨rfl, _⟩ := ht
    exact Or.inr (Or.inr ⟨_, _, _, rfl, hx⟩)
  | returned _ _ heq | entered _ _ heq =>
    rw [heq] at ht
    exact ht.elim
  | setHandler hc heq | sigreturn hc heq =>
    rw [heq, hc] at ht
    exact ht.elim
  | read _ _ hc | readRtc _ _ hc | write _ _ hc | open' _ _ hc | close _ _ hc | getargs _ _ hc
  | vidmap _ _ hc =>
    rw [hc] at ht
    exact ht.elim

/-- The running `terminal_read` has tested the flag before the line was ended. -/
def Tested (m : Machine) (w : Entered) : Prop := ∀ t, m.ctl.BeforeTest t → w t = none

theorem Tested.next {w : Entered} (h : Tested m w) (hw : Waiting m w) (hl : ¬ LateTest img m e)
    (hs : step img m e = some m') : Tested m' (Entered.record m e w) := by
  have hclear : ∀ {t}, ¬ (m.kern.con.terminalStruct t).enterFlag = true → w t = none := by
    intro t hf
    by_contra hne
    obtain ⟨⟨n, buf⟩, hline⟩ := Option.ne_none_iff_exists'.mp hne
    exact hf (hw t n buf hline).1
  intro t ht
  rcases beforeTest_cases hs ht with hbefore | ⟨esp, ebp, u, q, rfl, hn, hq, hprog⟩ |
    ⟨fd, buf, nbytes, rfl, hread⟩
  · by_cases hkey : ∃ status, e = .key status 0x1C ∧ status ≠ 0 ∧ t = m.kern.con.curTerminal
    · -- Enter, before the first test: typing is not enabled
      obtain ⟨status, rfl, hst, rfl⟩ := hkey
      simp only [Entered.record]
      rw [if_neg fun hty => hl ⟨hst, rfl, hty.2.2, hbefore⟩]
      exact h _ hbefore
    · have hother : ∀ status, e = .key status 0x1C →
          status = 0 ∨ t ≠ m.kern.con.curTerminal := by
        intro status he
        by_contra hno
        simp only [not_or, not_not] at hno
        exact hkey ⟨status, he, hno⟩
      rcases Entered.record_eq (w := w) hother with heq | heq
      · exact heq.trans (h t hbefore)
      · exact heq
  · exact hclear fun hf => hl ⟨u, q, t, hn, hq, hprog, hf⟩
  · exact hclear fun hf => hl ⟨t, hread, hf⟩

/-- A line that Enter has ended waits with its flag, only the return of a `terminal_read` on the
terminal clears the flag, and the next poll of such a call makes it return. -/
structure EnterKept (img : Image) (ok : Machine → Event → Prop) (m : Machine) (w : Entered) :
    Prop where
  waiting : Waiting m w
  flag : ∀ e m' t, ok m e → step img m e = some m' →
    (m.kern.con.terminalStruct t).enterFlag = true → ¬ Completes m e t →
      (m'.kern.con.terminalStruct t).enterFlag = true
  handed : ∀ t p r, w t ≠ none → m.ctl = .reading p r → r.term = t → r.pc = .test →
    Completes m .go t

theorem Waiting.handed {w : Entered} (h : Waiting m w) (htest : Tested m w) {p : Pid} {r : Reader}
    (hw : w t ≠ none) (hc : m.ctl = .reading p r) (ht : r.term = t) (hpc : r.pc = .test) :
    Completes m .go t := by
  obtain ⟨⟨n, buf⟩, hline⟩ := Option.ne_none_iff_exists'.mp hw
  have hi : r.i ≠ none := fun hi => hw (htest t (by rw [hc]; exact ⟨ht, hi⟩))
  obtain ⟨i, hi⟩ := Option.ne_none_iff_exists'.mp hi
  have hflag := (h t n buf hline).1
  refine ⟨rfl, p, r, Function.update r.buf i 10, i + 1, hc, ht, ?_⟩
  simp only [Reader.step, hpc, hi, hflag, if_true]

/-- No key comes while the flag of the displayed terminal is set, and no `terminal_read` comes too
late to its first test. -/
def InTime (img : Image) (m : Machine) (e : Event) : Prop := ¬ KeyOnEnter m e ∧ ¬ LateTest img m e

/-- In every run in which keys and calls of `terminal_read` are in time, only the return of a
`terminal_read` on terminal `t` clears the flag of `t`, and every line that Enter has ended is there
for that `terminal_read`, whose next poll returns. -/
theorem enter_not_lost (img : Image) (s : Machine × Entered)
    (h : Reach (enteredStep img) EnteredBoot (fun s e => InTime img s.1 e) s) :
    EnterKept img (InTime img) s.1 s.2 := by
  have hinv : Waiting s.1 s.2 ∧ Tested s.1 s.2 := by
    refine h.inv (I := fun s => Waiting s.1 s.2 ∧ Tested s.1 s.2) ?_ ?_
    · intro s hb
      refine ⟨fun t n buf hw => ?_, fun t _ => hb.2 t⟩
      rw [hb.2 t] at hw
      cases hw
    · rintro ⟨m, w⟩ e ⟨m', w'⟩ ⟨hw, ht⟩ hok hs
      obtain ⟨hs, rfl⟩ := EventSystem.withHistory_eq_some.mp hs
      exact ⟨hw.next hok.1 hs, ht.next hw hok.2 hs⟩
  refine ⟨hinv.1, ?_, ?_⟩
  · intro e m' t hk hs hf hc
    refine (step_lineKept hs hc ?_).enterFlag hf
    rintro status code rfl
    by_cases hst : status = 0
    · exact Or.inl hst
    · refine Or.inr ?_
      rintro rfl
      exact hk.1 ⟨hst, hf⟩
  · intro t p r hw hc ht hpc
    exact hinv.1.handed hinv.2 hw hc ht hpc

/-- The first shell reads its terminal; `a` is typed, and Enter is pressed. -/
def typeEnter : List Event :=
  [.tick 0 0, .read 0 (some fun _ => 0) 128, .go, .go, .key 1 0x1E, .key 1 0x9E, .key 1 0x1C]

/-- A test for events: no flag is set, and Enter is not pressed before the first test. -/
def clearFlags (s : Machine × Entered) (e : Event) : Bool :=
  decide (∀ t, (s.1.kern.con.terminalStruct t).enterFlag = false) &&
    match e with
    | .key _ code => code != 0x1C || decide (¬ s.1.ctl.BeforeTest s.1.kern.con.curTerminal)
    | _ => true

theorem clearFlags_inTime {s : Machine × Entered} (h : clearFlags s e = true) :
    InTime disk s.1 e := by
  simp only [clearFlags, Bool.and_eq_true, decide_eq_true_eq] at h
  obtain ⟨hclear, hkey⟩ := h
  have hf : ∀ t, ¬ (s.1.kern.con.terminalStruct t).enterFlag = true := fun t =>
    Bool.eq_false_iff.mp (hclear t)
  cases e with
  | key status code =>
    refine ⟨fun hk => hf _ hk.2, ?_⟩
    rintro ⟨_, rfl, _, hb⟩
    simp [hb] at hkey
  | read fd buf nbytes => exact ⟨not_false, fun ⟨t, _, hl⟩ => hf t hl⟩
  | tick esp ebp => exact ⟨not_false, fun ⟨_, _, t, _, _, _, hl⟩ => hf t hl⟩
  | _ => exact ⟨not_false, not_false⟩

theorem enter_not_lost_typed : ∃ s : Machine × Entered, s.2 0 ≠ none ∧
    EnterKept disk (InTime disk) s.1 s.2 := by
  have hrun : (run (fun s e => if clearFlags s e then enteredStep disk s e else none)
      (booted, fun _ => none) typeEnter).map (fun s => (s.2 0).isSome) = some true := by
    decide +kernel
  obtain ⟨s, hs, hw⟩ := Option.map_eq_some_iff.mp hrun
  exact ⟨s, Option.isSome_iff_ne_none.mp hw, enter_not_lost disk s
    (Reach.of_checked (fun _ _ => clearFlags_inTime) (.init ⟨boot_booted, fun _ => rfl⟩) hs)⟩

/-- Enter is released before the shell is scheduled again: the release clears the flag. -/
theorem key_release_loses_enter :
    ¬ ∀ (img : Image) (s : Machine × Entered),
      Reach (enteredStep img) EnteredBoot (fun _ _ => True) s →
        EnterKept img (fun _ _ => True) s.1 s.2 := by
  intro h
  have hrun : (run (enteredStep disk) (booted, fun _ => none) typeEnter).map (fun s =>
      (s.1.kern.con.terminalStruct 0).enterFlag) = some true := by
    decide +kernel
  obtain ⟨s, hs, hflag⟩ := Option.map_eq_some_iff.mp hrun
  have hreach : Reach (enteredStep disk) EnteredBoot (fun _ _ => True) s :=
    Reach.of_any (.init ⟨boot_booted, fun _ => rfl⟩) hs
  have hrun : (run (enteredStep disk) (booted, fun _ => none)
      (typeEnter ++ [.key 1 0x9C])).map (fun s =>
        (s.1.kern.con.terminalStruct 0).enterFlag) = some false := by
    decide +kernel
  obtain ⟨s', hs', hf⟩ := Option.map_eq_some_iff.mp hrun
  obtain ⟨s1, hs1, hs'⟩ := EventSystem.run_append.mp hs'
  rw [hs] at hs1
  cases hs1
  obtain ⟨s2, hstep, hs'⟩ := EventSystem.run_cons.mp hs'
  cases hs'
  have hkeep := (h disk s hreach).flag _ _ 0 trivial
    (EventSystem.withHistory_eq_some.mp hstep).1 hflag (by rintro ⟨he, _⟩; cases he)
  rw [hf] at hkeep
  cases hkeep

end Machine
end DeviceOS
