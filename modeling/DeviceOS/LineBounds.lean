import DeviceOS.KeyAccesses
import DeviceOS.LineEditor

/-!
# DeviceOS.LineBounds

The indices of the line editor. `write_keyboard_char` stops at 72 characters; everything else only
copies, shifts or shortens lines, so no index gets past its array and byte 72 of every row is NUL.

* `InBounds`: the bounds, for one terminal. `step_inBounds`: every event keeps them.
* `keyboardHandlerLogged_within`: so do the subscripts that `keyboard_handler` uses.
* `Scans`: the calls of `terminal_read`, whose statements come at any moments of a run.
* `line_editor_in_bounds`: in every reachable state all of these stay inside their arrays.
-/

namespace DeviceOS

open AccessLog.Logged
open EventSystem (Reach run)

/-- A line of at most 72 characters. -/
def ShortLine (buf : Nat → UInt8) (n : Nat) : Prop := n ≤ 72 ∧ ∀ j, 72 ≤ j → buf j = 0

structure InBounds (s : Terminal) : Prop where
  line : ShortLine s.keyboardBuf s.keyboardIdx
  commandPos : s.commandPos ≤ 9
  rows : ∀ k, ShortLine (s.commandBuf k) (s.commandIdx k)

theorem ShortLine.nil : ShortLine (fun _ => 0) 0 := ⟨Nat.zero_le 72, fun _ _ => rfl⟩

theorem ShortLine.update {buf : Nat → UInt8} {n i : Nat} (h : ShortLine buf n) (hi : i < 72)
    (ch : UInt8) {n' : Nat} (hn : n' ≤ 72) : ShortLine (Function.update buf i ch) n' := by
  refine ⟨hn, fun j hj => ?_⟩
  rw [Function.update_of_ne (by omega)]
  exact h.2 j hj

/-- The scan for the end of a line stops at byte 72 at the latest. -/
theorem ShortLine.ends {buf : Nat → UInt8} {n : Nat} (h : ShortLine buf n) :
    ∃ i, i ≤ 72 ∧ buf i = 0 ∧ ∀ j, j < i → buf j ≠ 0 := by
  have hex : ∃ i, buf i = 0 := ⟨72, h.2 72 (le_refl 72)⟩
  exact ⟨Nat.find hex, Nat.find_le (h.2 72 (le_refl 72)), Nat.find_spec hex,
    fun j hj => Nat.find_min hex hj⟩

namespace InBounds

variable {s s' : Terminal}

theorem sameLine (h : InBounds s) (hs : SameLine s s') : InBounds s' := by
  refine ⟨?_, ?_, fun k => ?_⟩
  · rw [hs.keyboardBuf, hs.keyboardIdx]
    exact h.line
  · rw [hs.commandPos]
    exact h.commandPos
  · rw [hs.commandBuf, hs.commandIdx]
    exact h.rows k

theorem flagged (h : InBounds s) : InBounds { s with enterFlag := true } :=
  ⟨h.line, h.commandPos, h.rows⟩

theorem localLine (h : InBounds s) : ShortLine s.localBuf s.localIdx := by
  simp only [Terminal.localBuf, Terminal.localIdx]
  split
  · exact .nil
  · exact h.line

/-- A row is replaced. -/
theorem setRow (h : ∀ k, ShortLine (s.commandBuf k) (s.commandIdx k)) (r : Nat)
    {buf : Nat → UInt8} {n : Nat} (hrow : ShortLine buf n) (k : Nat) :
    ShortLine (Function.update s.commandBuf r buf k) (Function.update s.commandIdx r n k) := by
  by_cases hk : k = r
  · subst hk
    rw [Function.update_self, Function.update_self]
    exact hrow
  · rw [Function.update_of_ne hk, Function.update_of_ne hk]
    exact h k

theorem typeChar (h : InBounds s) (hi : s.localIdx < 72) (ch : UInt8) : InBounds (s.typeChar ch) :=
  ⟨h.localLine.update hi ch hi, h.commandPos, h.rows⟩

theorem eraseChar (h : InBounds s) (hi : 0 < s.localIdx) : InBounds s.eraseChar := by
  have hle : s.localIdx ≤ 72 := h.localLine.1
  have hline : ShortLine (Function.update s.keyboardBuf (s.localIdx - 1) 0) (s.localIdx - 1) :=
    h.line.update (by omega) 0 (by omega)
  refine ⟨hline, h.commandPos, ?_⟩
  exact setRow h.rows 0 ⟨by omega, h.localLine.2⟩

theorem showRow (h : InBounds s) {pos : Nat} (hp : pos ≤ 9) : InBounds (s.showRow pos) :=
  ⟨h.rows pos, hp, h.rows⟩

theorem older (h : InBounds s) (hp : s.commandPos < 9) : InBounds s.older := by
  simp only [Terminal.older]
  split
  · have hsave : InBounds s.saveDraft := ⟨h.line, h.commandPos, setRow h.rows 0 h.line⟩
    exact hsave.showRow hp
  · exact h.showRow hp

theorem newer (h : InBounds s) : InBounds s.newer := by
  have hp := h.commandPos
  exact h.showRow (by omega)

theorem pushHistory (h : InBounds s) : InBounds s.pushHistory :=
  ⟨h.line, Nat.zero_le 9, Terminal.pushHistory_rows .nil h.line fun k _ => h.rows k⟩

theorem finishRead (h : InBounds s) (shell : Bool) : InBounds (s.finishRead shell) := by
  simp only [Terminal.finishRead]
  split
  · exact ⟨.nil, h.pushHistory.commandPos, h.pushHistory.rows⟩
  · exact ⟨.nil, h.commandPos, h.rows⟩

theorem stable : LineStable InBounds := ⟨sameLine, flagged, finishRead⟩

theorem lineEdit (h : InBounds s) {typing : Bool} {ch : UInt8} {code : Nat}
    (he : Console.LineEdit typing ch code s s') : InBounds s' := by
  have hclear : InBounds s.clearFlag := ⟨h.line, h.commandPos, h.rows⟩
  cases he with
  | kept => exact hclear
  | typed _ _ _ hi => exact h.typeChar hi ch
  | erased _ hi => exact h.eraseChar hi
  | oldest => exact ⟨h.line, le_refl 9, h.rows⟩
  | older _ _ hp => exact hclear.older hp
  | newer => exact hclear.newer
  | entered => exact h.flagged

end InBounds

/-! ## Subscripts -/

namespace Console

theorem copyLogged_within : copyLogged.Within Subscript.InArray := by
  refine within_foldl (fun _ i hi => ?_) ()
  have hlt : Subscript.InArray (i, maxBufSize) := List.mem_range.mp hi
  simp [hlt]

theorem codeCharLogged_within (c : Console) {code : Nat} (h : code < 0x3A) :
    (c.codeCharLogged code).Within Subscript.InArray := by
  have htable : ∀ table : List UInt8, table.length = 58 →
      (tableLogged table code).Within Subscript.InArray := by
    intro table hlen
    have hlt : Subscript.InArray (code, table.length) := by
      simp only [Subscript.InArray]
      omega
    simp [tableLogged, hlt]
  unfold codeCharLogged
  split
  · exact htable capsshiftCodeTable rfl
  · split
    · exact htable shiftCodeTable rfl
    · split
      · exact htable capslockCodeTable rfl
      · exact htable lowercaseCodeTable rfl

variable (typing : Term → Bool) (tpi : Option Term)

theorem writeKeyboardCharLogged_within (c : Console) (code kidx : Nat) (kbuf : Nat → UInt8) :
    (c.writeKeyboardCharLogged typing tpi code kidx kbuf).Within Subscript.InArray := by
  unfold writeKeyboardCharLogged
  split
  · exact within_done _
  · split
    · rename_i hcond
      have hidx : Subscript.InArray (kidx, maxBufSize) :=
        Nat.lt_trans hcond.2.1 (show 72 < maxBufSize by decide)
      simp only [within_bind, within_access, within_map]
      exact ⟨c.codeCharLogged_within hcond.1, hidx, copyLogged_within⟩
    · exact within_done _

theorem backspaceLogged_within (c : Console) (t : Term) (x y : Nat) {kidx : Nat} (hk : kidx ≤ 72)
    (kbuf : Nat → UInt8) : (c.backspaceLogged t x y kidx kbuf).Within Subscript.InArray := by
  unfold backspaceLogged
  split
  · simp only [within_access, within_done, Subscript.InArray, maxBufSize, commandRows, and_true]
    omega
  · exact within_done _

theorem redrawLogged_within (c : Console) (t : Term) (x y : Nat) {prev pos : Nat} (erase : Nat)
    (hprev : prev < 10) (hpos : pos < 10) :
    (c.redrawLogged t x y prev erase pos).Within Subscript.InArray := by
  simp only [redrawLogged, within_access, within_done, Subscript.InArray, commandRows, and_true]
  exact ⟨hprev, hpos, hpos⟩

/-- The arrow up looks at a row only if `command_pos` is below 9. -/
theorem upArrowLogged_within (c : Console) (t : Term) (x y : Nat) :
    (c.upArrowLogged typing t x y).Within Subscript.InArray := by
  unfold upArrowLogged
  dsimp only
  split
  · exact within_done _
  · split
    · exact within_done _
    · rename_i hpos
      rw [within_access]
      refine ⟨by simp only [Subscript.InArray, commandRows]; omega, ?_⟩
      split
      · exact within_done _
      · rw [within_bind]
        split
        · refine ⟨by simp [Subscript.InArray, commandRows], ?_⟩
          exact redrawLogged_within _ t x y _ (by simp only [result_access, result_done]; omega)
            (by simp only [result_access, result_done]; omega)
        · exact ⟨within_done _, redrawLogged_within _ t x y _ (by simp only [result_done]; omega)
            (by simp only [result_done]; omega)⟩

theorem downArrowLogged_within (c : Console) {t : Term} (h : (c.terminalStruct t).commandPos ≤ 9)
    (x y : Nat) : (c.downArrowLogged typing t x y).Within Subscript.InArray := by
  unfold downArrowLogged
  dsimp only
  split
  · exact within_done _
  · split
    · exact within_done _
    · exact redrawLogged_within _ t x y _ (by omega) (by omega)

theorem handleCodeLogged_within (c : Console) (code : Nat) {t : Term} (x y : Nat) {kidx : Nat}
    (kbuf : Nat → UInt8) (hk : kidx ≤ 72) (hpos : (c.terminalStruct t).commandPos ≤ 9) :
    (c.handleCodeLogged typing tpi code t x y kidx kbuf).Within Subscript.InArray := by
  unfold handleCodeLogged
  split
  case h_1 => exact backspaceLogged_within c t x y hk kbuf
  case h_14 => exact upArrowLogged_within typing c t x y
  case h_15 => exact downArrowLogged_within typing c hpos x y
  case h_16 =>
    split
    · exact within_done _
    · exact writeKeyboardCharLogged_within typing tpi c _ kidx kbuf
  case h_17 => exact writeKeyboardCharLogged_within typing tpi c _ kidx kbuf
  all_goals exact within_done _

/-- With the line editor of the displayed terminal in bounds, the handler stays inside its arrays. -/
theorem keyboardHandlerLogged_within (c : Console)
    (h : InBounds (c.terminalStruct c.curTerminal)) (status code : UInt8) :
    (c.keyboardHandlerLogged typing tpi status code).Within Subscript.InArray := by
  unfold keyboardHandlerLogged
  split
  · exact within_done _
  · dsimp only
    rw [within_bind, within_map]
    refine ⟨?_, handleCodeLogged_within typing tpi _ _ _ _ _ h.localLine.1 ?_⟩
    · split
      · exact within_done _
      · exact copyLogged_within
    · rw [setTerm_self]
      exact h.commandPos

end Console

namespace Machine

variable {img : Image} {m m' : Machine} {e : Event}

theorem step_inBounds (h : step img m e = some m')
    (hm : ∀ t, InBounds (m.kern.con.terminalStruct t)) (t : Term) :
    InBounds (m'.kern.con.terminalStruct t) := by
  refine step_stable InBounds.stable h hm ?_ t
  intro _ _ _ _ _ hedit
  exact (hm _).lineEdit hedit

theorem reach_inBounds (h : Reach (step img) Boot (fun _ _ => True) m) :
    ∀ t, InBounds (m.kern.con.terminalStruct t) := by
  refine reach_terminals ?_ ?_ h
  · exact ⟨.nil, Nat.zero_le 9, fun _ => .nil⟩
  · intro m e m' hm _ hs
    exact step_inBounds hs hm

/-- A call of `terminal_read` with any number of bytes. Each of its statements finds the terminal as
it is in some reachable state. -/
inductive Scans (img : Image) : Reader → Prop
  | start (t : Term) (nbytes : Nat) (buf : Nat → UInt8) : Scans img (.start t nbytes buf)
  | step {m : Machine} {r r' : Reader} : Scans img r →
      Reach (step img) Boot (fun _ _ => True) m →
      r.step (m.kern.con.terminalStruct r.term) = .more r' → Scans img r'

/-- One statement of the loop moves on to the next byte only over a character. -/
theorem scan_step {s : Terminal} (h : InBounds s) {r r' : Reader}
    (hr : ∀ i, r.i = some i → i ≤ 72) (hstep : r.step s = .more r') :
    ∀ i, r'.i = some i → i ≤ 72 := by
  simp only [Reader.step] at hstep
  split at hstep
  · split at hstep
    · split at hstep <;> cases hstep
    · cases hstep
      intro i hi
      cases hi
      exact Nat.zero_le 72
  · cases hstep
  · split at hstep
    · cases hstep
      exact hr
    · cases hstep
  · rename_i j _ hj
    split at hstep
    · cases hstep
      exact hr
    · rename_i h0
      cases hstep
      intro i hi
      cases hi
      by_contra hgt
      exact h0 (h.line.2 j (by omega))

theorem Scans.le (h : Scans img r) : ∀ i, r.i = some i → i ≤ 72 := by
  induction h with
  | start => intro i hi; cases hi
  | step _ hm hstep ih => exact scan_step (reach_inBounds hm _) ih hstep

/-- A statement has no defined effect only before the loop variable is set. -/
theorem Scans.wild {s : Terminal} {r : Reader} (h : Scans img r) (hw : r.step s = .wild) :
    r.i = none := by
  cases hi : r.i with
  | none => rfl
  | some i =>
    have hlt : i < maxBufSize := Nat.lt_of_le_of_lt (h.le i hi) (by decide)
    cases hpc : r.pc with
    | test =>
      simp only [Reader.step, hpc, hi] at hw
      split at hw <;> cases hw
    | copy =>
      simp only [Reader.step, hpc, hi, if_pos hlt] at hw
      cases hw
    | check =>
      simp only [Reader.step, hpc, hi] at hw
      split at hw <;> cases hw

/-- In every reachable state the line editor of every terminal is in bounds, the scan of a history row
ends inside it, every subscript that `keyboard_handler` uses is in range, and so is that of every
call of `terminal_read`, which has a defined next statement once its loop variable is set. -/
theorem line_editor_in_bounds (img : Image) (m : Machine)
    (h : Reach (step img) Boot (fun _ _ => True) m) :
    (∀ t, InBounds (m.kern.con.terminalStruct t)) ∧
      (∀ t k, ∃ i, i ≤ 72 ∧ (m.kern.con.terminalStruct t).commandBuf k i = 0 ∧
        ∀ j, j < i → (m.kern.con.terminalStruct t).commandBuf k j ≠ 0) ∧
      (∀ status code, (m.kern.con.keyboardHandlerLogged m.kern.proc.typingMask
        m.kern.proc.terminalProcessIndex status code).Within Subscript.InArray) ∧
      ∀ r, Scans img r → ∀ i, r.i = some i →
        i ≤ 72 ∧ r.step (m.kern.con.terminalStruct r.term) ≠ .wild := by
  have hin := reach_inBounds h
  refine ⟨hin, fun t k => ((hin t).rows k).ends,
    Console.keyboardHandlerLogged_within _ _ _ (hin _), ?_⟩
  intro r hr i hi
  refine ⟨hr.le i hi, fun hw => ?_⟩
  rw [hr.wild hw] at hi
  cases hi

/-- `a` is typed 73 times. -/
theorem line_editor_in_bounds_full : ∃ m : Machine,
    (m.kern.con.terminalStruct 0).keyboardIdx = 72 ∧
      ∀ t, InBounds (m.kern.con.terminalStruct t) := by
  have hrun : (run (step disk) booted (List.replicate 73 (.key 1 0x1E))).map
      (fun m => (m.kern.con.terminalStruct 0).keyboardIdx) = some 72 := by
    decide +kernel
  obtain ⟨m, hm, hidx⟩ := Option.map_eq_some_iff.mp hrun
  have hreach : Reach (step disk) Boot (fun _ _ => True) m :=
    Reach.of_any (.init boot_booted) hm
  exact ⟨m, hidx, (line_editor_in_bounds disk m hreach).1⟩

end Machine
end DeviceOS
