import DeviceOS.LineEditor

/-!
# DeviceOS.LineStrings

The line as a string: `keyboard_idx` characters that are not NUL, and NUL after them.

* `IsLine`: a buffer and a length that agree. `Strings`: the line and rows 1 to 9 of the history do.
  Row 0 does not have to: backspace stores the line there as it was before the deletion.
* `Spoils`: a scan code that stores NUL, or that brings such a row 0 back.
* `lines_are_strings`: nothing else breaks a line.
-/

namespace DeviceOS

open EventSystem (Reach run)

def IsLine (buf : Nat → UInt8) (n : Nat) : Prop :=
  (∀ j, j < n → buf j ≠ 0) ∧ ∀ j, n ≤ j → buf j = 0

theorem IsLine.nil : IsLine (fun _ => 0) 0 :=
  ⟨fun _ hj => absurd hj (Nat.not_lt_zero _), fun _ _ => rfl⟩

theorem IsLine.push {buf : Nat → UInt8} {n : Nat} (h : IsLine buf n) {ch : UInt8} (hch : ch ≠ 0) :
    IsLine (Function.update buf n ch) (n + 1) := by
  constructor
  · intro j hj
    by_cases hn : j = n
    · subst hn
      rwa [Function.update_self]
    · rw [Function.update_of_ne hn]
      exact h.1 j (by omega)
  · intro j hj
    rw [Function.update_of_ne (by omega)]
    exact h.2 j (by omega)

theorem IsLine.pop {buf : Nat → UInt8} {n : Nat} (h : IsLine buf n) (hn : 0 < n) :
    IsLine (Function.update buf (n - 1) 0) (n - 1) := by
  constructor
  · intro j hj
    rw [Function.update_of_ne (by omega)]
    exact h.1 j (by omega)
  · intro j hj
    by_cases hlast : j = n - 1
    · subst hlast
      exact Function.update_self ..
    · rw [Function.update_of_ne hlast]
      exact h.2 j (by omega)

/-- The line and the rows of the history, except for the draft. -/
structure Strings (s : Terminal) : Prop where
  line : IsLine s.keyboardBuf s.keyboardIdx
  rows : ∀ k, 0 < k → IsLine (s.commandBuf k) (s.commandIdx k)

/-- The draft is a string, or it is not the next row to be shown. -/
def DraftReady (s : Terminal) : Prop := s.commandPos = 1 → IsLine (s.commandBuf 0) (s.commandIdx 0)

namespace Strings

variable {s s' : Terminal}

theorem sameLine (h : Strings s) (hs : SameLine s s') : Strings s' := by
  refine ⟨?_, fun k hk => ?_⟩
  · rw [hs.keyboardBuf, hs.keyboardIdx]
    exact h.line
  · rw [hs.commandBuf, hs.commandIdx]
    exact h.rows k hk

theorem flagged (h : Strings s) : Strings { s with enterFlag := true } := ⟨h.line, h.rows⟩

theorem localLine (h : Strings s) : IsLine s.localBuf s.localIdx := by
  simp only [Terminal.localBuf, Terminal.localIdx]
  split
  · exact .nil
  · exact h.line

theorem typeChar (h : Strings s) {ch : UInt8} (hch : ch ≠ 0) : Strings (s.typeChar ch) :=
  ⟨h.localLine.push hch, h.rows⟩

/-- Only row 0 changes. -/
theorem setDraft (h : Strings s) (buf : Nat → UInt8) (n : Nat) (k : Nat) (hk : 0 < k) :
    IsLine (Function.update s.commandBuf 0 buf k) (Function.update s.commandIdx 0 n k) := by
  have hne : k ≠ 0 := by omega
  rw [Function.update_of_ne hne, Function.update_of_ne hne]
  exact h.rows k hk

theorem eraseChar (h : Strings s) (hi : 0 < s.localIdx) : Strings s.eraseChar := by
  have hflag : s.enterFlag ≠ true := by
    intro hf
    simp [Terminal.localIdx, hf] at hi
  have hidx : s.localIdx = s.keyboardIdx := if_neg hflag
  refine ⟨?_, h.setDraft _ _⟩
  show IsLine (Function.update s.keyboardBuf (s.localIdx - 1) 0) (s.localIdx - 1)
  rw [hidx] at hi ⊢
  exact h.line.pop hi

theorem older (h : Strings s) : Strings s.older := by
  simp only [Terminal.older]
  split
  · have hsave : Strings s.saveDraft := ⟨h.line, h.setDraft _ _⟩
    exact ⟨hsave.rows _ (Nat.succ_pos _), hsave.rows⟩
  · exact ⟨h.rows _ (Nat.succ_pos _), h.rows⟩

theorem newer (h : Strings s) (hp : 0 < s.commandPos) (hd : DraftReady s) : Strings s.newer := by
  refine ⟨?_, h.rows⟩
  show IsLine (s.commandBuf (s.commandPos - 1)) (s.commandIdx (s.commandPos - 1))
  by_cases h1 : s.commandPos = 1
  · rw [h1]
    exact hd h1
  · exact h.rows _ (by omega)

theorem finishRead (h : Strings s) (shell : Bool) : Strings (s.finishRead shell) := by
  simp only [Terminal.finishRead]
  split
  · exact ⟨.nil, fun k _ => Terminal.pushHistory_rows .nil h.line h.rows k⟩
  · exact ⟨.nil, h.rows⟩

theorem stable : LineStable Strings := ⟨sameLine, flagged, finishRead⟩

theorem lineEdit (h : Strings s) {typing : Bool} {ch : UInt8} {code : Nat}
    (he : Console.LineEdit typing ch code s s')
    (hch : typing = true → code < 0x3A → code ∉ Console.handled → s.localIdx < 72 → ch ≠ 0)
    (hd : typing = true → code = 0x50 → DraftReady s) : Strings s' := by
  have hclear : Strings s.clearFlag := ⟨h.line, h.rows⟩
  cases he with
  | kept => exact hclear
  | typed hty hlt hcode hi => exact h.typeChar (hch hty hlt hcode hi)
  | erased _ hi => exact h.eraseChar hi
  | oldest => exact ⟨h.line, h.rows⟩
  | older => exact hclear.older
  | newer hty hcode hp => exact hclear.newer hp (hd hty hcode)
  | entered => exact h.flagged

end Strings

namespace Console

/-- Escape and the scan code 0 have no character. -/
theorem codeChar_ne_zero (c : Console) {code : Nat} (hlt : code < 0x3A) (hcode : code ∉ handled)
    (h1 : 1 < code) : c.codeChar code ≠ 0 := by
  have htables : ∀ n : Fin 0x3A, n.val ∉ handled → 1 < n.val →
      lowercaseCodeTable.getD n.val 0 ≠ 0 ∧ capslockCodeTable.getD n.val 0 ≠ 0 ∧
      shiftCodeTable.getD n.val 0 ≠ 0 ∧ capsshiftCodeTable.getD n.val 0 ≠ 0 := by
    decide
  obtain ⟨hl, hc, hs, hb⟩ := htables ⟨code, hlt⟩ hcode h1
  simp only [codeChar]
  split
  · exact hb
  · split
    · exact hs
    · split
      · exact hc
      · exact hl

theorem codeChar_eq_zero (c : Console) {code : Nat} (h1 : code ≤ 1) : c.codeChar code = 0 := by
  have htables : ∀ n : Fin 2, lowercaseCodeTable.getD n.val 0 = 0 ∧
      capslockCodeTable.getD n.val 0 = 0 ∧ shiftCodeTable.getD n.val 0 = 0 ∧
      capsshiftCodeTable.getD n.val 0 = 0 := by
    decide
  obtain ⟨hl, hc, hs, hb⟩ := htables ⟨code, by omega⟩
  simp only [codeChar]
  split
  · exact hb
  · split
    · exact hs
    · split
      · exact hc
      · exact hl

variable (typing : Term → Bool) (tpi : Option Term)

/-- Escape stores NUL and goes on to the next byte. -/
theorem keyboardHandler_nul (c : Console) {status : UInt8} (hs : status ≠ 0) {code : UInt8}
    (hcode : code.toNat ≤ 1) (hty : typing c.curTerminal = true)
    (hi : (c.terminalStruct c.curTerminal).localIdx < 72) :
    let s' := (c.keyboardHandler typing tpi status code).terminalStruct c.curTerminal
    s'.keyboardIdx = (c.terminalStruct c.curTerminal).localIdx + 1 ∧
      s'.keyboardBuf (c.terminalStruct c.curTerminal).localIdx = 0 := by
  have hch : c.keyStart.codeChar code.toNat = 0 := codeChar_eq_zero _ hcode
  have hwrite : ∀ (k : Nat) (x y kidx : Nat) (kbuf : Nat → UInt8), k ≤ 1 →
      c.keyStart.handleCode typing tpi k c.curTerminal x y kidx kbuf =
        c.keyStart.writeKeyboardChar typing tpi k kidx kbuf := by
    intro k x y kidx kbuf hk
    match k, hk with
    | 0, _ => rfl
    | 1, _ => rfl
  have hguard : ¬ ((code.toNat = 0x3B ∨ code.toNat = 0x3C ∨ code.toNat = 0x3D) ∧
      c.keyStart.altPress = true) := by
    omega
  have hgo : code.toNat < 0x3A ∧ (c.terminalStruct c.curTerminal).localIdx < 72 ∧
      typing c.keyStart.curTerminal = true := ⟨by omega, hi, hty⟩
  have hcur : (c.keyStart.putc 0).curTerminal = c.curTerminal := (putc_drawn c.keyStart 0).curTerminal
  rw [keyboardHandler_eq typing tpi c hs, hwrite _ _ _ _ _ hcode]
  simp only [writeKeyboardChar, if_neg hguard, if_pos hgo, hch, hcur, setTerm_self,
    Function.update_self, and_self]

/-- The arrow down brings back the row before. -/
theorem keyboardHandler_newer (c : Console) {status : UInt8} (hs : status ≠ 0)
    (hty : typing c.curTerminal = true) (hp : 0 < (c.terminalStruct c.curTerminal).commandPos) :
    SameLine (c.terminalStruct c.curTerminal).clearFlag.newer
      ((c.keyboardHandler typing tpi status 0x50).terminalStruct c.curTerminal) := by
  have hdown := keyboardHandler_down typing tpi c hs hty
  have hpos : (c.terminalStruct c.curTerminal).clearFlag.commandPos ≠ 0 := Nat.ne_of_gt hp
  rwa [Terminal.down, if_neg hpos] at hdown

end Console

namespace Machine

variable {img : Image} {m m' : Machine} {e : Event}

/-- A scan code without a character is stored, or the arrow down shows a draft that is no string. -/
def Spoils (m : Machine) : Event → Prop
  | .key status code =>
    let s := m.kern.con.terminalStruct m.kern.con.curTerminal
    status ≠ 0 ∧ m.kern.proc.typingMask m.kern.con.curTerminal = true ∧
      ((code.toNat ≤ 1 ∧ s.localIdx < 72) ∨ (code = 0x50 ∧ ¬ DraftReady s))
  | _ => False

theorem step_strings (h : step img m e = some m') (hm : ∀ t, Strings (m.kern.con.terminalStruct t))
    (hno : ¬ Spoils m e) (t : Term) : Strings (m'.kern.con.terminalStruct t) := by
  refine step_stable Strings.stable h hm ?_ t
  rintro status code s rfl hs hedit
  refine (hm _).lineEdit hedit ?_ ?_
  · intro hty hlt hcode hi
    refine Console.codeChar_ne_zero _ hlt hcode ?_
    by_contra hle
    exact hno ⟨hs, hty, Or.inl ⟨by omega, hi⟩⟩
  · intro hty hcode
    by_contra hd
    exact hno ⟨hs, hty, Or.inr ⟨UInt8.toNat_inj.mp hcode, hd⟩⟩

theorem Spoils.breaks (hsp : Spoils m e) (h : step img m e = some m') :
    ¬ IsLine (m'.kern.con.terminalStruct m.kern.con.curTerminal).keyboardBuf
      (m'.kern.con.terminalStruct m.kern.con.curTerminal).keyboardIdx := by
  cases e with
  | key status code =>
    obtain ⟨hs, hty, hcase⟩ := hsp
    cases step_cases h with
    | key heq =>
      subst heq
      rcases hcase with ⟨hcode, hi⟩ | ⟨rfl, hd⟩
      · obtain ⟨hidx, hnul⟩ := Console.keyboardHandler_nul m.kern.proc.typingMask
          m.kern.proc.terminalProcessIndex m.kern.con hs hcode hty hi
        intro hline
        refine hline.1 (m.kern.con.terminalStruct m.kern.con.curTerminal).localIdx ?_ hnul
        show _ < ((m.kern.con.keyboardHandler _ _ status code).terminalStruct _).keyboardIdx
        omega
      · obtain ⟨hpos, hdraft⟩ := Classical.not_imp.mp hd
        have hsame := Console.keyboardHandler_newer m.kern.proc.typingMask
          m.kern.proc.terminalProcessIndex m.kern.con hs hty (by omega)
        intro hline
        refine hdraft ?_
        have hline : IsLine ((m.kern.con.keyboardHandler _ _ status 0x50).terminalStruct _).keyboardBuf
          ((m.kern.con.keyboardHandler _ _ status 0x50).terminalStruct _).keyboardIdx := hline
        rw [hsame.keyboardBuf, hsame.keyboardIdx] at hline
        simpa [Terminal.newer, Terminal.showRow, Terminal.clearFlag, hpos] using hline
  | _ => exact hsp.elim

/-- In every run without a spoiling scan code, every line is one string of `keyboard_idx` characters;
and the next event keeps this exactly when it is not such a scan code. -/
theorem lines_are_strings (img : Image) (m : Machine)
    (h : Reach (step img) Boot (fun m e => ¬ Spoils m e) m) :
    (∀ t, IsLine (m.kern.con.terminalStruct t).keyboardBuf
      (m.kern.con.terminalStruct t).keyboardIdx) ∧
      ∀ e m', step img m e = some m' →
        ((∀ t, IsLine (m'.kern.con.terminalStruct t).keyboardBuf
          (m'.kern.con.terminalStruct t).keyboardIdx) ↔ ¬ Spoils m e) := by
  have hinv : ∀ t, Strings (m.kern.con.terminalStruct t) := by
    refine reach_terminals ?_ ?_ h
    · exact ⟨.nil, fun _ _ => .nil⟩
    · intro m e m' hm hno hs
      exact step_strings hs hm hno
  refine ⟨fun t => (hinv t).line, fun e m' hs => ⟨fun hall hsp => ?_, fun hno t => ?_⟩⟩
  · exact hsp.breaks hs (hall _)
  · exact (step_strings hs hinv hno t).line

/-- `a` is typed, and the history is left untouched. -/
theorem lines_are_strings_typed : ∃ m : Machine,
    (m.kern.con.terminalStruct 0).keyboardIdx = 1 ∧
      IsLine (m.kern.con.terminalStruct 0).keyboardBuf
        (m.kern.con.terminalStruct 0).keyboardIdx := by
  have hrun : (run (step disk) booted [.key 1 0x1E]).map
      (fun m => (m.kern.con.terminalStruct 0).keyboardIdx) = some 1 := by
    decide +kernel
  obtain ⟨m, hm, hidx⟩ := Option.map_eq_some_iff.mp hrun
  have hno : ¬ Spoils booted (.key 1 0x1E) := by
    rintro ⟨_, _, ⟨hcode, _⟩ | ⟨hcode, _⟩⟩
    · exact absurd hcode (by decide)
    · exact absurd hcode (by decide)
  have hallowed : EventSystem.Allowed (step disk) (fun m e => ¬ Spoils m e) booted [.key 1 0x1E] :=
    ⟨hno, fun _ _ => trivial⟩
  have hreach : Reach (step disk) Boot (fun m e => ¬ Spoils m e) m :=
    Reach.of_run (.init boot_booted) hallowed hm
  exact ⟨m, hidx, (lines_are_strings disk m hreach).1 0⟩

/-- Escape is pressed on an empty line. -/
theorem escape_stores_nul : ¬ ∀ (img : Image) (m : Machine),
    Reach (step img) Boot (fun _ _ => True) m → ∀ t,
      IsLine (m.kern.con.terminalStruct t).keyboardBuf
        (m.kern.con.terminalStruct t).keyboardIdx := by
  intro h
  have hrun : (run (step disk) booted [.key 1 0x01]).map (fun m =>
      ((m.kern.con.terminalStruct 0).keyboardIdx, (m.kern.con.terminalStruct 0).keyboardBuf 0)) =
        some (1, 0) := by
    decide +kernel
  obtain ⟨m, hm, hp⟩ := Option.map_eq_some_iff.mp hrun
  obtain ⟨hidx, hbuf⟩ := Prod.mk.inj hp
  have hreach : Reach (step disk) Boot (fun _ _ => True) m :=
    Reach.of_any (.init boot_booted) hm
  have hline := h disk m hreach 0
  rw [hidx] at hline
  exact hline.1 0 Nat.zero_lt_one hbuf

end Machine
end DeviceOS
