import DeviceOS.EnterFlag

/-!
# DeviceOS.LineRead

What `terminal_read` returns. Its loop copies the line over and over until `enter_flag` is set, and
never after that. So it returns the line as its last pass saw it, up to where that pass ended.

* `Reader.Returns s r buf ret`: the call `r` returns `ret` with the bytes `buf` when no interrupt
  changes the terminal `s` any more. `returns_reply`: the machine hands back this reply.
* `LineCurrent s r`: at the moment of Enter the call `r` has copied what it is going to keep, and
  will copy the rest.
* `terminal_read_returns_line_iff`: the call returns the line as it was when Enter was pressed
  exactly when `LineCurrent` holds at that moment.
-/

namespace DeviceOS

open EventSystem (Reach run)

namespace Reader

/-- The call returns `ret` with the bytes `buf`, while the terminal stays `s`. -/
inductive Returns (s : Terminal) : Reader → (Nat → UInt8) → Nat → Prop
  | done {r : Reader} {buf : Nat → UInt8} {ret : Nat} : r.step s = .done buf ret →
      Returns s r buf ret
  | more {r r' : Reader} {buf : Nat → UInt8} {ret : Nat} : r.step s = .more r' →
      Returns s r' buf ret → Returns s r buf ret

/-- What a statement of the loop can be once the flag is set. -/
inductive StepCase (s : Terminal) (r : Reader) : ReadStep → Prop
  | leave {i : Nat} : r.pc = .test → r.i = some i →
      StepCase s r (.done (Function.update r.buf i 10) (i + 1))
  | wild : (∀ i, r.i = some i → r.pc = .copy ∧ maxBufSize ≤ i) → StepCase s r .wild
  | copy {i : Nat} : r.pc = .copy → r.i = some i → i < maxBufSize →
      StepCase s r (.more { r with
        pc := .check, buf := Function.update r.buf i (s.keyboardBuf i) })
  | pass {i : Nat} : r.pc = .check → r.i = some i → s.keyboardBuf i = 0 →
      StepCase s r (.more { r with pc := .test })
  | next {i : Nat} : r.pc = .check → r.i = some i → s.keyboardBuf i ≠ 0 →
      StepCase s r (.more (r.atLoop (i + 1)))

theorem step_cases {s : Terminal} (hf : s.enterFlag = true) (r : Reader) :
    StepCase s r (r.step s) := by
  cases hi : r.i with
  | none =>
    have hwild : r.step s = .wild := by
      cases hpc : r.pc <;> simp [step, hpc, hi, hf]
    rw [hwild]
    refine .wild fun i h => ?_
    rw [hi] at h
    cases h
  | some i =>
    cases hpc : r.pc with
    | test =>
      have hstep : r.step s = .done (Function.update r.buf i 10) (i + 1) := by
        simp [step, hpc, hi, hf]
      rw [hstep]
      exact .leave hpc hi
    | copy =>
      by_cases h128 : i < maxBufSize
      · have hstep : r.step s = .more { r with
            pc := .check, buf := Function.update r.buf i (s.keyboardBuf i) } := by
          simp [step, hpc, hi, h128]
        rw [hstep]
        exact .copy hpc hi h128
      · have hstep : r.step s = .wild := by simp [step, hpc, hi, h128]
        rw [hstep]
        refine .wild fun j h => ?_
        rw [hi] at h
        cases h
        exact ⟨hpc, by omega⟩
    | check =>
      by_cases h0 : s.keyboardBuf i = 0
      · have hstep : r.step s = .more { r with pc := .test } := by simp [step, hpc, hi, h0]
        rw [hstep]
        exact .pass hpc hi h0
      · have hstep : r.step s = .more (r.atLoop (i + 1)) := by simp [step, hpc, hi, h0]
        rw [hstep]
        exact .next hpc hi h0

theorem StepCase.nbytes {s : Terminal} {r r' : Reader} (h : StepCase s r (.more r')) :
    r'.nbytes = r.nbytes := by
  cases h <;> rfl

end Reader

/-- The rest of the line from `i` on: no NUL in it, and one after it. -/
def RestOfLine (s : Terminal) (i : Nat) : Prop :=
  (∀ k, i ≤ k → k < s.keyboardIdx → s.keyboardBuf k ≠ 0) ∧ s.keyboardBuf s.keyboardIdx = 0

/-- The call `r` is past its first test of `enter_flag`, what it has copied agrees with the line,
and the pass it is in has ended, or is going to end, at the end of the line. -/
def LineCurrent (s : Terminal) (r : Reader) : Prop :=
  ∃ i, r.i = some i ∧ i ≤ s.keyboardIdx ∧ (∀ k < i, r.buf k = s.keyboardBuf k) ∧
    match r.pc with
    | .test => i = s.keyboardIdx
    | .copy => RestOfLine s i
    | .check => (i < s.keyboardIdx → r.buf i = s.keyboardBuf i) ∧ RestOfLine s i

/-- The user's buffer holds the line and a newline, and this length is returned. -/
def ReturnsLine (s : Terminal) (r : Reader) : Prop :=
  ∃ buf, r.Returns s buf (s.keyboardIdx + 1) ∧
    (∀ k < s.keyboardIdx, buf k = s.keyboardBuf k) ∧ buf s.keyboardIdx = 10

namespace LineCurrent

variable {s : Terminal} {r r' : Reader}

/-- One statement of the loop keeps the condition, in both directions. -/
theorem step (hn : s.keyboardIdx < r.nbytes) (h : Reader.StepCase s r (.more r')) :
    LineCurrent s r ↔ LineCurrent s r' := by
  cases h with
  | @copy i hpc hi =>
    have hbuf : (∀ k < i, Function.update r.buf i (s.keyboardBuf i) k = s.keyboardBuf k) ↔
        ∀ k < i, r.buf k = s.keyboardBuf k := by
      refine forall₂_congr fun k hk => ?_
      rw [Function.update_of_ne (by omega)]
    simp only [LineCurrent, hi, hpc, hbuf, Option.some.injEq, exists_eq_left',
      Function.update_self, implies_true, true_and]
  | @pass i hpc hi h0 =>
    simp only [LineCurrent, hi, hpc, Option.some.injEq, exists_eq_left', RestOfLine]
    constructor
    · rintro ⟨hle, hbuf, _, hrest, _⟩
      refine ⟨hle, hbuf, ?_⟩
      by_contra hne
      exact hrest i (le_refl i) (by omega) h0
    · rintro ⟨hle, hbuf, rfl⟩
      exact ⟨hle, hbuf, fun hlt => absurd hlt (lt_irrefl _), fun k h1 h2 => by omega, h0⟩
  | @next i hpc hi h0 =>
    have hne : RestOfLine s i → i ≠ s.keyboardIdx := by
      rintro ⟨_, hend⟩ rfl
      exact h0 hend
    have hbuf : (∀ k < i + 1, r.buf k = s.keyboardBuf k) ↔
        (∀ k < i, r.buf k = s.keyboardBuf k) ∧ r.buf i = s.keyboardBuf i := by
      constructor
      · intro hall
        exact ⟨fun k hk => hall k (by omega), hall i (by omega)⟩
      · rintro ⟨hall, hcur⟩ k hk
        rcases Nat.lt_succ_iff_lt_or_eq.mp hk with hlt | rfl
        · exact hall k hlt
        · exact hcur
    by_cases hlt : i + 1 < r.nbytes
    · simp only [LineCurrent, hi, hpc, Reader.atLoop, if_pos hlt, Option.some.injEq,
        exists_eq_left', hbuf]
      constructor
      · rintro ⟨hle, hall, hcur, hrest⟩
        have := hne hrest
        exact ⟨by omega, ⟨hall, hcur (by omega)⟩, fun k h1 h2 => hrest.1 k (by omega) h2, hrest.2⟩
      · rintro ⟨hle, ⟨hall, hcur⟩, hrest, hend⟩
        refine ⟨by omega, hall, fun _ => hcur, fun k h1 h2 => ?_, hend⟩
        rcases Nat.lt_or_eq_of_le h1 with hlt' | rfl
        · exact hrest k hlt' h2
        · exact h0
    · -- the buffer of the caller is full, so the line does not end here
      simp only [LineCurrent, hi, hpc, Reader.atLoop, if_neg hlt, Option.some.injEq,
        exists_eq_left']
      constructor
      · rintro ⟨hle, _, _, hrest⟩
        have := hne hrest
        omega
      · rintro ⟨_, _, heq⟩
        omega

/-- At most this many statements are left. -/
def left (s : Terminal) (r : Reader) : Nat :=
  match r.pc with
  | .test => 0
  | .copy => 2 * (s.keyboardIdx - r.i.getD 0) + 2
  | .check => 2 * (s.keyboardIdx - r.i.getD 0) + 1

/-- The measure goes down while the condition holds. -/
theorem left_lt (h : LineCurrent s r) (hstep : Reader.StepCase s r (.more r')) :
    left s r' < left s r := by
  obtain ⟨j, hj, hle, _, hpc'⟩ := h
  cases hstep with
  | copy hpc => simp only [left, hpc]; omega
  | pass hpc => simp only [left, hpc]; omega
  | @next i hpc hi h0 =>
    have hij : j = i := Option.some.inj (hj.symm.trans hi)
    subst hij
    rw [hpc] at hpc'
    have hne : j ≠ s.keyboardIdx := by
      rintro rfl
      exact h0 hpc'.2.2
    by_cases hlt : j + 1 < r.nbytes
    · simp only [left, Reader.atLoop, if_pos hlt, hpc, hi, Option.getD_some]
      omega
    · simp only [left, Reader.atLoop, if_neg hlt, hpc]
      omega

/-- A call that meets the condition returns the line. -/
theorem returns (hf : s.enterFlag = true) (h128 : s.keyboardIdx < maxBufSize) :
    ∀ {n : Nat} {r : Reader}, left s r < n → s.keyboardIdx < r.nbytes → LineCurrent s r →
      ReturnsLine s r := by
  intro n
  induction n with
  | zero => intro r hlt; omega
  | succ n ih =>
    intro r hlt hn h
    have hcase := Reader.step_cases hf r
    cases hs : r.step s with
    | more r' =>
      rw [hs] at hcase
      obtain ⟨buf, hret, hbuf⟩ := ih (by have := left_lt h hcase; omega)
        (hcase.nbytes ▸ hn) ((step hn hcase).mp h)
      exact ⟨buf, .more hs hret, hbuf⟩
    | done buf ret =>
      rw [hs] at hcase
      obtain ⟨j, hj, _, hbuf, hpc'⟩ := h
      cases hcase with
      | leave hpc hi =>
        rw [hpc] at hpc'
        rw [hj] at hi
        cases hi
        have hidx : j = s.keyboardIdx := hpc'
        subst hidx
        refine ⟨_, .done hs, fun k hk => ?_, Function.update_self ..⟩
        rw [Function.update_of_ne (by omega)]
        exact hbuf k hk
    | wild =>
      rw [hs] at hcase
      obtain ⟨j, hj, hle, _⟩ := h
      cases hcase with
      | wild hw =>
        have := (hw j hj).2
        omega

/-- A call that returns the line meets the condition. -/
theorem of_returns {buf : Nat → UInt8} {ret : Nat} (hf : s.enterFlag = true)
    (h : r.Returns s buf ret) (hn : s.keyboardIdx < r.nbytes) (hret : ret = s.keyboardIdx + 1)
    (hbuf : ∀ k < s.keyboardIdx, buf k = s.keyboardBuf k) : LineCurrent s r := by
  induction h with
  | @done r buf ret hs =>
    have hcase := Reader.step_cases hf r
    rw [hs] at hcase
    cases hcase with
    | @leave i hpc hi =>
      have hidx : i = s.keyboardIdx := by omega
      subst hidx
      refine ⟨_, hi, le_refl _, fun k hk => ?_, by rw [hpc]⟩
      have := hbuf k hk
      rwa [Function.update_of_ne (by omega)] at this
  | @more r r' buf ret hs _ ih =>
    have hcase := Reader.step_cases hf r
    rw [hs] at hcase
    exact (step hn hcase).mpr (ih (hcase.nbytes ▸ hn) hret hbuf)

end LineCurrent

/-- The line of a terminal decides the condition. -/
theorem LineCurrent.congr {s s' : Terminal} {r : Reader} (hb : s'.keyboardBuf = s.keyboardBuf)
    (hi : s'.keyboardIdx = s.keyboardIdx) : LineCurrent s' r ↔ LineCurrent s r := by
  simp only [LineCurrent, RestOfLine, hb, hi]

namespace Machine

variable {img : Image} {m m' : Machine}

/-- A call of the loop that returns does so in the machine: the last statement hands back the reply. -/
theorem returns_reply {p q : Pid} {r : Reader} {buf : Nat → UInt8} {ret : Nat} {k : Kernel}
    (h : r.Returns (k.con.terminalStruct r.term) buf ret) (hq : k.currPid = some q) :
    ∃ n r' m', run (step img) ⟨k, .reading p r⟩ (List.replicate n .go) = some ⟨k, .reading p r'⟩ ∧
      call img ⟨k, .reading p r'⟩ .go = some (m', some ⟨ret, (List.range ret).map buf⟩) := by
  generalize hs : k.con.terminalStruct r.term = s at h
  induction h with
  | @done r buf ret hstep =>
    refine ⟨0, r, ⟨{ k with con := k.con.setTerm r.term (s.finishRead (k.proc.shellMask q)) },
      .user p⟩, rfl, ?_⟩
    simp only [call, go, Kernel.readStep, hs, hstep, hq, Option.map_some]
  | @more r r' buf ret hstep _ ih =>
    have hterm : r'.term = r.term := by
      simp only [Reader.step] at hstep
      split at hstep
      · split at hstep
        · split at hstep <;> cases hstep
        · cases hstep; rfl
      · cases hstep
      · split at hstep <;> cases hstep; rfl
      · split at hstep <;> cases hstep <;> rfl
    obtain ⟨n, r1, m1, hrun, hcall⟩ := ih (by rw [hterm]; exact hs)
    refine ⟨n + 1, r1, m1, ?_, hcall⟩
    rw [List.replicate_succ, EventSystem.run_cons]
    refine ⟨⟨k, .reading p r'⟩, ?_, hrun⟩
    simp only [step, call, go, Kernel.readStep, hs, hstep, Option.map_some]

/-- For every state of the line and of the call at the moment Enter is pressed: the call returns the
line exactly when `LineCurrent` holds then. -/
theorem terminal_read_returns_line_iff (c : Console) (typing : Term → Bool) (tpi : Option Term)
    (r : Reader) (status : UInt8) (hterm : r.term = c.curTerminal)
    (htyping : typing c.curTerminal = true) (hstatus : status ≠ 0)
    (h128 : (c.terminalStruct r.term).keyboardIdx < maxBufSize)
    (hn : (c.terminalStruct r.term).keyboardIdx < r.nbytes) :
    ReturnsLine ((c.keyboardHandler typing tpi status 0x1C).terminalStruct r.term) r ↔
      LineCurrent (c.terminalStruct r.term) r := by
  obtain ⟨hf, hb, hi⟩ := Console.keyboardHandler_enter typing tpi c hstatus htyping
  rw [hterm] at h128 hn ⊢
  rw [← LineCurrent.congr hb hi]
  constructor
  · rintro ⟨buf, hret, hbuf, _⟩
    exact LineCurrent.of_returns hf hret (hi ▸ hn) rfl hbuf
  · exact LineCurrent.returns hf (hi ▸ h128) (Nat.lt_succ_self _) (hi ▸ hn)

/-- Where a call of `terminal_read` is. -/
structure ReadPoint where
  term : Term
  pc : ReadPc
  i : Option Nat
  nbytes : Nat
  first : UInt8
  deriving DecidableEq

def readingAt (m : Machine) : Option ReadPoint :=
  match m.ctl with
  | .reading _ r => some ⟨r.term, r.pc, r.i, r.nbytes, r.buf 0⟩
  | _ => none

theorem ctl_of_readingAt {x : ReadPoint} (h : readingAt m = some x) :
    ∃ p r, m.ctl = .reading p r ∧ r.term = x.term ∧ r.pc = x.pc ∧ r.i = x.i ∧
      r.nbytes = x.nbytes ∧ r.buf 0 = x.first := by
  simp only [readingAt] at h
  split at h
  · rename_i p r hc
    cases h
    exact ⟨p, r, hc, rfl, rfl, rfl, rfl, rfl⟩
  · cases h

/-- The first shell calls `read`, and `n` statements of `terminal_read` follow. -/
def shellReads (n : Nat) : List Event :=
  [.tick 0 0, .read 0 (some fun _ => 0) 128] ++ List.replicate n .go

/-- `a` is typed before the pass over the line begins, and Enter is pressed after it. -/
theorem terminal_read_returns_line_typed : ∃ (m : Machine) (r : Reader),
    (m.kern.con.terminalStruct r.term).keyboardIdx = 1 ∧ ReturnsLine
      ((m.kern.con.keyboardHandler m.kern.proc.typingMask m.kern.proc.terminalProcessIndex 1
        0x1C).terminalStruct r.term) r := by
  have hrun : (run (step disk) booted (shellReads 0 ++ .key 1 0x1E :: List.replicate 5 .go)).map
      (fun m => (readingAt m, (m.kern.con.terminalStruct 0).keyboardIdx,
        (m.kern.con.terminalStruct 0).keyboardBuf 0, m.kern.con.curTerminal,
        m.kern.proc.typingMask 0)) =
        some (some ⟨0, .test, some 1, 128, 97⟩, 1, 97, 0, true) := by
    decide +kernel
  obtain ⟨m, _, hp⟩ := Option.map_eq_some_iff.mp hrun
  simp only [Prod.mk.injEq] at hp
  obtain ⟨hr, hidx, hb, hcur, hty⟩ := hp
  obtain ⟨p, r, _, ht, hpc, hi, hn, hbuf⟩ := ctl_of_readingAt hr
  simp only at ht hpc hi hn hbuf
  refine ⟨m, r, by rw [ht, hidx], ?_⟩
  refine (terminal_read_returns_line_iff m.kern.con m.kern.proc.typingMask
    m.kern.proc.terminalProcessIndex r 1 (by rw [ht, hcur]) (by rw [hcur, hty]) (by decide)
    (by rw [ht, hidx]; decide) (by rw [ht, hidx, hn]; decide)).mpr ?_
  refine ⟨1, hi, by rw [ht, hidx], fun k hk => ?_, by rw [hpc]; exact (ht ▸ hidx).symm⟩
  have hk0 : k = 0 := by omega
  rw [hk0, hbuf, ht, hb]

/-- `a` is typed between the end of a pass and the test of `enter_flag`, and Enter after it: the
call returns an empty line. -/
theorem terminal_read_misses_key :
    ¬ ∀ (img : Image) (m : Machine) (p : Pid) (r : Reader) (status : UInt8),
      Reach (step img) Boot (fun _ _ => True) m → m.ctl = .reading p r →
      r.term = m.kern.con.curTerminal →
      m.kern.proc.typingMask m.kern.con.curTerminal = true → status ≠ 0 →
      (m.kern.con.terminalStruct r.term).keyboardIdx < maxBufSize →
      (m.kern.con.terminalStruct r.term).keyboardIdx < r.nbytes →
      ReturnsLine ((m.kern.con.keyboardHandler m.kern.proc.typingMask
        m.kern.proc.terminalProcessIndex status 0x1C).terminalStruct r.term) r := by
  intro h
  have hrun : (run (step disk) booted (shellReads 3 ++ [.key 1 0x1E])).map
      (fun m => (readingAt m, (m.kern.con.terminalStruct 0).keyboardIdx, m.kern.con.curTerminal,
        m.kern.proc.typingMask 0)) = some (some ⟨0, .test, some 0, 128, 0⟩, 1, 0, true) := by
    decide +kernel
  obtain ⟨m, hm, hp⟩ := Option.map_eq_some_iff.mp hrun
  simp only [Prod.mk.injEq] at hp
  obtain ⟨hr, hidx, hcur, hty⟩ := hp
  obtain ⟨p, r, hc, ht, hpc, hi, hn, _⟩ := ctl_of_readingAt hr
  simp only at ht hpc hi hn
  have hreach : Reach (step disk) Boot (fun _ _ => True) m :=
    Reach.of_any (.init boot_booted) hm
  have hty' : m.kern.proc.typingMask m.kern.con.curTerminal = true := by rw [hcur, hty]
  obtain ⟨buf, hret, hbuf, _⟩ := h disk m p r 1 hreach hc (by rw [ht, hcur]) hty' (by decide)
    (by rw [ht, hidx]; decide) (by rw [ht, hidx, hn]; decide)
  obtain ⟨hf, _, hi'⟩ := Console.keyboardHandler_enter m.kern.proc.typingMask
    m.kern.proc.terminalProcessIndex m.kern.con (show (1 : UInt8) ≠ 0 by decide) hty'
  rw [hcur, hidx] at hi'
  rw [hcur] at hf
  rw [ht] at hret hbuf
  obtain ⟨i, hi2, _, _, hend⟩ := LineCurrent.of_returns hf hret
    (by rw [hi', hn]; decide) rfl hbuf
  rw [hpc] at hend
  have hend : i = _ := hend
  rw [hi', ← Option.some.inj (hi.symm.trans hi2)] at hend
  cases hend

end Machine
end DeviceOS
