import DeviceOS.EnterFlag

/-!
# DeviceOS.LineEditor

The line editor of one terminal: the line (`keyboard_buf`, `keyboard_idx`) and ten rows of history
(`command_buf`, `command_idx`, `command_pos`; row 0 keeps the draft).

* The operations of the editor, on one `Terminal`.
* `LineEdit`: what one scan code does to the editor of the displayed terminal. `keyboardHandler_line`
  is the inversion of the keyboard interrupt for it.
* `LineKind`: what one event of the machine does to the editor of a terminal.
* `LineStable`: properties of the line and the history that only editing can break. `step_stable`:
  an event keeps one if the edit that it makes does. `reach_terminals`: induction over a run.
-/

namespace DeviceOS

open EventSystem (Reach)

namespace Terminal

/-- The index that the handler works with: a new line begins after Enter. -/
def localIdx (s : Terminal) : Nat := if s.enterFlag then 0 else s.keyboardIdx

/-- The copy of the line that the handler works with. -/
def localBuf (s : Terminal) : Nat → UInt8 := if s.enterFlag then fun _ => 0 else s.keyboardBuf

def clearFlag (s : Terminal) : Terminal := { s with enterFlag := false }

def typeChar (s : Terminal) (ch : UInt8) : Terminal :=
  { s.clearFlag with
    keyboardIdx := s.localIdx + 1
    keyboardBuf := Function.update s.localBuf s.localIdx ch }

/-- Row 0 takes the copy of the line, in which the character is not deleted. -/
def eraseChar (s : Terminal) : Terminal :=
  { s.clearFlag with
    keyboardBuf := Function.update s.keyboardBuf (s.localIdx - 1) 0
    keyboardIdx := s.localIdx - 1
    commandBuf := Function.update s.commandBuf 0 s.localBuf
    commandIdx := Function.update s.commandIdx 0 (s.localIdx - 1) }

def saveDraft (s : Terminal) : Terminal :=
  { s with
    commandBuf := Function.update s.commandBuf 0 s.keyboardBuf
    commandIdx := Function.update s.commandIdx 0 s.keyboardIdx }

def showRow (s : Terminal) (pos : Nat) : Terminal :=
  { s with
    commandPos := pos
    keyboardBuf := s.commandBuf pos
    keyboardIdx := s.commandIdx pos }

def older (s : Terminal) : Terminal :=
  (if s.commandPos = 0 then s.saveDraft else s).showRow (s.commandPos + 1)

def newer (s : Terminal) : Terminal := s.showRow (s.commandPos - 1)

/-- The arrow up: a row of length 0 ends the history. -/
def up (s : Terminal) : Terminal :=
  if 9 ≤ s.commandPos then { s with commandPos := 9 }
  else if s.commandIdx (s.commandPos + 1) = 0 then s
  else s.older

def down (s : Terminal) : Terminal := if s.commandPos = 0 then s else s.newer

/-- What holds of the rows before and after they move down. -/
theorem shiftRows {α β : Type} {P : α → β → Prop} (rows : List Nat) :
    ∀ {a : Nat → α} {b : Nat → β}, (∀ r ∈ rows, 1 < r) → (∀ k, 0 < k → P (a k) (b k)) →
      ∀ k, 0 < k → P (rows.foldl (fun a r => Function.update a r (a (r - 1))) a k)
        (rows.foldl (fun b r => Function.update b r (b (r - 1))) b k) := by
  induction rows with
  | nil => intro a b _ h; exact h
  | cons r rows ih =>
    intro a b hr h
    refine ih (fun r' hr' => hr r' (List.mem_cons_of_mem _ hr')) fun k hk => ?_
    show P (Function.update a r (a (r - 1)) k) (Function.update b r (b (r - 1)) k)
    by_cases hkr : k = r
    · subst hkr
      have h1 : 1 < k := hr k List.mem_cons_self
      rw [Function.update_self, Function.update_self]
      exact h (k - 1) (by omega)
    · rw [Function.update_of_ne hkr, Function.update_of_ne hkr]
      exact h k hk

/-- After the history has taken the line, its rows are the line, the rows before and empty ones. -/
theorem pushHistory_rows {P : (Nat → UInt8) → Nat → Prop} {s : Terminal} (hnil : P (fun _ => 0) 0)
    (hline : P s.keyboardBuf s.keyboardIdx)
    (hrows : ∀ k, 0 < k → P (s.commandBuf k) (s.commandIdx k)) (k : Nat) :
    P (s.pushHistory.commandBuf k) (s.pushHistory.commandIdx k) := by
  have hshift := shiftRows [9, 8, 7, 6, 5, 4, 3, 2] (by decide) hrows
  simp only [pushHistory]
  by_cases h0 : k = 0
  · subst h0
    rw [Function.update_self, Function.update_self]
    exact hnil
  · rw [Function.update_of_ne h0, Function.update_of_ne h0]
    by_cases h1 : k = 1
    · subst h1
      rw [Function.update_self, Function.update_self]
      exact hline
    · rw [Function.update_of_ne h1, Function.update_of_ne h1]
      exact hshift k (Nat.pos_of_ne_zero h0)

end Terminal

namespace Console

variable {c c' : Console} {t : Term}

/-- What a scan code does to the line editor `s` of the displayed terminal. -/
inductive LineEdit (typing : Bool) (ch : UInt8) (code : Nat) (s : Terminal) : Terminal → Prop
  | kept : LineEdit typing ch code s s.clearFlag
  | typed : typing = true → code < 0x3A → code ∉ handled → s.localIdx < 72 →
      LineEdit typing ch code s (s.typeChar ch)
  | erased : code = 0x0E → 0 < s.localIdx → LineEdit typing ch code s s.eraseChar
  | oldest : code = 0x48 → 9 ≤ s.commandPos →
      LineEdit typing ch code s { s.clearFlag with commandPos := 9 }
  | older : typing = true → code = 0x48 → s.commandPos < 9 → s.commandIdx (s.commandPos + 1) ≠ 0 →
      LineEdit typing ch code s s.clearFlag.older
  | newer : typing = true → code = 0x50 → 0 < s.commandPos →
      LineEdit typing ch code s s.clearFlag.newer
  | entered : typing = true → code = 0x1C → LineEdit typing ch code s { s with enterFlag := true }

variable (typing : Term → Bool) (tpi : Option Term)

/-- The console when `keyboard_handler` looks at the scan code. -/
def keyStart (c : Console) : Console :=
  { c.setTerm c.curTerminal (c.terminalStruct c.curTerminal).clearFlag with
    vidmemPage := vidmemIndex }

@[simp] theorem keyStart_self (c : Console) :
    c.keyStart.terminalStruct c.curTerminal = (c.terminalStruct c.curTerminal).clearFlag :=
  setTerm_self c _ _

theorem keyboardHandler_eq (c : Console) {status : UInt8} (hs : status ≠ 0) (code : UInt8) :
    c.keyboardHandler typing tpi status code =
      { c.keyStart.handleCode typing tpi code.toNat c.curTerminal c.getCursorX c.getCursorY
          (c.terminalStruct c.curTerminal).localIdx (c.terminalStruct c.curTerminal).localBuf with
        vidmemPage := c.vidmemPage } := by
  rw [keyboardHandler, if_neg hs]
  rfl

/-- A routine that draws, and then sets fields of terminal `t`. -/
theorem Drawn.setTerm_line (hd : Drawn c c') {f : Terminal → Terminal}
    (hf : ∀ s s', SameLine s s' → SameLine (f s) (f s')) :
    SameLine (f (c.terminalStruct t))
      ((c'.setTerm t (f (c'.terminalStruct t))).terminalStruct t) := by
  rw [setTerm_self]
  exact hf _ _ (hd.lines t)

/-- What remains after the local index and the copy of the line are read: the local flag is clear. -/
theorem writeKeyboardChar_line {s : Terminal} (hs : c.terminalStruct c.curTerminal = s.clearFlag)
    {code : Nat} (hcode : code ∉ handled) :
    ∃ s', LineEdit (typing c.curTerminal) (c.codeChar code) code s s' ∧
      SameLine s' ((c.writeKeyboardChar typing tpi code s.localIdx s.localBuf).terminalStruct
        c.curTerminal) := by
  simp only [writeKeyboardChar]
  split
  · refine ⟨_, .kept, ?_⟩
    rw [← hs]
    exact switchTerminal_lines tpi c code c.curTerminal
  · split
    · rename_i h
      obtain ⟨hlt, hidx, hty⟩ := h
      refine ⟨_, .typed hty hlt hcode hidx, ?_⟩
      have hd := putc_drawn c (c.codeChar code)
      have hline := hd.lines c.curTerminal
      rw [hs] at hline
      rw [hd.curTerminal, setTerm_self]
      exact ⟨rfl, rfl, hline.enterFlag, hline.commandBuf, hline.commandIdx, hline.commandPos⟩
    · refine ⟨_, .kept, ?_⟩
      rw [hs]
      exact .refl _

theorem backspace_line {s : Terminal} (hs : c.terminalStruct t = s.clearFlag) (x y : Nat) (ty : Bool)
    (ch : UInt8) : ∃ s', LineEdit ty ch 0x0E s s' ∧
      SameLine s' ((c.backspace t x y s.localIdx s.localBuf).terminalStruct t) := by
  simp only [backspace]
  split
  · rename_i h
    refine ⟨_, .erased rfl h.1, ?_⟩
    have hd := (updateTermStruct_drawn c (if x = 0 then 79 else x - 1)
      (if x = 0 then y - 1 else y)).trans (putc_drawn _ 32)
    have hline := hd.lines t
    rw [hs] at hline
    refine SameLine.trans ?_ ((setCursor_drawn _ _ _).lines t)
    rw [setTerm_self]
    exact ⟨congrArg (fun b => Function.update b (s.localIdx - 1) 0) hline.keyboardBuf, rfl,
      hline.enterFlag, congrArg (fun b => Function.update b 0 s.localBuf) hline.commandBuf,
      congrArg (fun b => Function.update b 0 (s.localIdx - 1)) hline.commandIdx, hline.commandPos⟩
  · refine ⟨_, .kept, ?_⟩
    rw [hs]
    exact .refl _

theorem redraw_line (c : Console) (t : Term) (x y erase pos : Nat) :
    SameLine { c.terminalStruct t with
        keyboardBuf := (c.terminalStruct t).commandBuf pos
        keyboardIdx := (c.terminalStruct t).commandIdx pos }
      ((c.redraw t x y erase pos).terminalStruct t) := by
  have h1 := setCursor_drawn c (u8 (x - erase)) y
  have h2 := foldl_drawn (fun d (_ : Nat) => putc_drawn d 32) (List.range erase)
    (c.setCursor (u8 (x - erase)) y)
  have h3 := setCursor_drawn ((List.range erase).foldl (fun d _ => d.putc 32)
    (c.setCursor (u8 (x - erase)) y)) (u8 (x - (c.terminalStruct t).keyboardIdx)) y
  have h4 := puts_drawn (((List.range erase).foldl (fun d _ => d.putc 32)
    (c.setCursor (u8 (x - erase)) y)).setCursor (u8 (x - (c.terminalStruct t).keyboardIdx)) y)
    ((c.terminalStruct t).commandBuf pos)
  refine (((h1.trans h2).trans h3).trans h4).setTerm_line
    (f := fun s => { s with keyboardBuf := s.commandBuf pos, keyboardIdx := s.commandIdx pos })
    fun s s' h => ?_
  exact ⟨congrFun h.commandBuf pos, congrFun h.commandIdx pos, h.enterFlag, h.commandBuf,
    h.commandIdx, h.commandPos⟩

theorem upArrow_up {s : Terminal} (hs : c.terminalStruct t = s.clearFlag) (x y : Nat)
    (hty : typing c.curTerminal = true) :
    SameLine s.clearFlag.up ((c.upArrow typing t x y).terminalStruct t) := by
  have hty' : typing c.curTerminal ≠ false := by rw [hty]; simp
  simp only [upArrow, hs, if_neg hty', Terminal.up]
  split
  · rw [setTerm_self]
    exact .refl _
  · split
    · rw [hs]
      exact .refl _
    · refine SameLine.trans ?_ (redraw_line _ t x y _ _)
      simp only [setTerm_self, Terminal.older]
      by_cases h0 : s.clearFlag.commandPos = 0
      · have h1 : s.clearFlag.commandPos + 1 = 1 := by rw [h0]
        simp only [if_pos h1, if_pos h0]
        exact .refl _
      · have h1 : ¬ s.clearFlag.commandPos + 1 = 1 := by omega
        simp only [if_neg h1, if_neg h0]
        exact .refl _

theorem upArrow_line {s : Terminal} (hs : c.terminalStruct t = s.clearFlag)
    (x y : Nat) (ch : UInt8) : ∃ s', LineEdit (typing c.curTerminal) ch 0x48 s s' ∧
      SameLine s' ((c.upArrow typing t x y).terminalStruct t) := by
  cases hty : typing c.curTerminal with
  | false =>
    refine ⟨_, .kept, ?_⟩
    simp only [upArrow, if_pos hty, hs]
    exact .refl _
  | true =>
    have hup := upArrow_up typing hs x y hty
    simp only [Terminal.up] at hup
    split at hup
    · rename_i hpos
      exact ⟨_, .oldest rfl hpos, hup⟩
    · split at hup
      · exact ⟨_, .kept, hup⟩
      · rename_i hpos hidx
        exact ⟨_, .older rfl rfl (by simpa [Terminal.clearFlag] using hpos) hidx, hup⟩

theorem downArrow_down {s : Terminal} (hs : c.terminalStruct t = s.clearFlag) (x y : Nat)
    (hty : typing c.curTerminal = true) :
    SameLine s.clearFlag.down ((c.downArrow typing t x y).terminalStruct t) := by
  have hty' : typing c.curTerminal ≠ false := by rw [hty]; simp
  simp only [downArrow, hs, if_neg hty', Terminal.down]
  split
  · rw [hs]
    exact .refl _
  · refine SameLine.trans ?_ (redraw_line _ t x y _ _)
    rw [setTerm_self]
    exact .refl _

theorem downArrow_line {s : Terminal} (hs : c.terminalStruct t = s.clearFlag) (x y : Nat)
    (ch : UInt8) : ∃ s', LineEdit (typing c.curTerminal) ch 0x50 s s' ∧
      SameLine s' ((c.downArrow typing t x y).terminalStruct t) := by
  cases hty : typing c.curTerminal with
  | false =>
    refine ⟨_, .kept, ?_⟩
    simp only [downArrow, if_pos hty, hs]
    exact .refl _
  | true =>
    have hdown := downArrow_down typing hs x y hty
    simp only [Terminal.down] at hdown
    split at hdown
    · exact ⟨_, .kept, hdown⟩
    · rename_i hpos
      exact ⟨_, .newer rfl rfl (Nat.pos_of_ne_zero hpos), hdown⟩

theorem enterKey_edit {s : Terminal} (hs : c.terminalStruct t = s.clearFlag) (y : Nat) (ch : UInt8) :
    ∃ s', LineEdit (typing c.curTerminal) ch 0x1C s s' ∧
      SameLine s' ((c.enterKey typing t y).terminalStruct t) := by
  simp only [enterKey]
  split
  · exact ⟨_, .kept, by rw [hs]; exact .refl _⟩
  · rename_i hty
    refine ⟨_, .entered (by simpa using hty) rfl, ?_⟩
    have hd : Drawn c (if y = 24 then c.shiftScreen else c.putc 10) := by
      split
      · exact shiftScreen_drawn c
      · exact putc_drawn c 10
    have hline := hd.lines t
    rw [hs] at hline
    rw [setTerm_self]
    exact ⟨hline.keyboardBuf, hline.keyboardIdx, rfl, hline.commandBuf, hline.commandIdx,
      hline.commandPos⟩

theorem handleCode_line {s : Terminal} (hs : c.terminalStruct c.curTerminal = s.clearFlag)
    (code x y : Nat) :
    ∃ s', LineEdit (typing c.curTerminal) (c.codeChar code) code s s' ∧
      SameLine s' ((c.handleCode typing tpi code c.curTerminal x y s.localIdx
        s.localBuf).terminalStruct c.curTerminal) := by
  have hdrawn : ∀ {d : Console}, Drawn c d →
      ∃ s', LineEdit (typing c.curTerminal) (c.codeChar code) code s s' ∧
        SameLine s' (d.terminalStruct c.curTerminal) := by
    intro d hd
    refine ⟨_, .kept, ?_⟩
    rw [← hs]
    exact hd.lines _
  have h := handleCode_case typing tpi c c.curTerminal x y s.localIdx s.localBuf code
  generalize c.handleCode typing tpi code c.curTerminal x y s.localIdx s.localBuf = d at h ⊢
  cases h with
  | backspace => exact backspace_line hs x y _ _
  | tab =>
    have h := ((putc_drawn c 32).trans (putc_drawn _ 32)).trans (putc_drawn _ 32)
    exact hdrawn (h.trans (putc_drawn _ 32))
  | enter => exact enterKey_edit typing hs y _
  | up => exact upArrow_line typing hs x y _
  | down => exact downArrow_line typing hs x y _
  | clear => exact hdrawn (clearScreen_drawn c)
  | flags => exact hdrawn ⟨rfl, rfl, rfl, rfl, fun _ => .refl _⟩
  | char hcode => exact writeKeyboardChar_line typing tpi hs hcode

/-- The inversion of a keyboard interrupt, for the line editor of the displayed terminal. -/
theorem keyboardHandler_line (c : Console) {status : UInt8} (hs : status ≠ 0) (code : UInt8) :
    ∃ s', LineEdit (typing c.curTerminal) (c.codeChar code.toNat) code.toNat
        (c.terminalStruct c.curTerminal) s' ∧
      SameLine s' ((c.keyboardHandler typing tpi status code).terminalStruct c.curTerminal) := by
  rw [keyboardHandler_eq typing tpi c hs]
  exact handleCode_line typing tpi (c := c.keyStart) (keyStart_self c) _ _ _

theorem keyboardHandler_up (c : Console) {status : UInt8} (hs : status ≠ 0)
    (hty : typing c.curTerminal = true) :
    SameLine (c.terminalStruct c.curTerminal).clearFlag.up
      ((c.keyboardHandler typing tpi status 0x48).terminalStruct c.curTerminal) := by
  rw [keyboardHandler_eq typing tpi c hs]
  exact upArrow_up typing (c := c.keyStart) (keyStart_self c) _ _ hty

theorem keyboardHandler_down (c : Console) {status : UInt8} (hs : status ≠ 0)
    (hty : typing c.curTerminal = true) :
    SameLine (c.terminalStruct c.curTerminal).clearFlag.down
      ((c.keyboardHandler typing tpi status 0x50).terminalStruct c.curTerminal) := by
  rw [keyboardHandler_eq typing tpi c hs]
  exact downArrow_down typing (c := c.keyStart) (keyStart_self c) _ _ hty

end Console

/-! ## The machine -/

/-- The right click that ends the paint mode sets the flag of the displayed terminal. -/
theorem Kernel.mouseHandler_line {k k' : Kernel} {p : Packet} (h : k.mouseHandler p = some k')
    (t : Term) : SameLine (k.con.terminalStruct t) (k'.con.terminalStruct t) ∨
      SameLine { k.con.terminalStruct t with enterFlag := true } (k'.con.terminalStruct t) := by
  rcases mouseHandler_drawn h with hd | hd
  · exact Or.inl (hd.lines t)
  · have hclear := (Console.clearScreen_drawn k.con).lines t
    simp only [togglePaint] at hd
    have hline := hd.lines t
    split at hline
    · by_cases ht : t = k.con.curTerminal
      · subst ht
        rw [Console.setTerm_self] at hline
        refine Or.inr (SameLine.trans ?_ hline)
        exact ⟨hclear.keyboardBuf, hclear.keyboardIdx, rfl, hclear.commandBuf, hclear.commandIdx,
          hclear.commandPos⟩
      · rw [Console.setTerm_of_ne _ _ ht] at hline
        exact Or.inl (hclear.trans hline)
    · exact Or.inl (hclear.trans hline)

namespace Machine

variable {img : Image} {m m' : Machine} {e : Event} {t : Term}

/-- What one event does to the line editor of terminal `t`. -/
inductive LineKind (m : Machine) (t : Term) : Event → Terminal → Prop
  | same {e : Event} {s' : Terminal} : SameLine (m.kern.con.terminalStruct t) s' → LineKind m t e s'
  | edited {status code : UInt8} {s s' : Terminal} : status ≠ 0 → t = m.kern.con.curTerminal →
      Console.LineEdit (m.kern.proc.typingMask t) (m.kern.con.codeChar code.toNat) code.toNat
        (m.kern.con.terminalStruct t) s →
      SameLine s s' → LineKind m t (.key status code) s'
  | clicked {p : Packet} {s' : Terminal} :
      SameLine { m.kern.con.terminalStruct t with enterFlag := true } s' → LineKind m t (.mouse p) s'
  | taken (shell : Bool) : Completes m .go t →
      LineKind m t .go ((m.kern.con.terminalStruct t).finishRead shell)

/-- The inversion of one event, for the line editors. -/
theorem step_line (h : step img m e = some m') (t : Term) :
    LineKind m t e (m'.kern.con.terminalStruct t) := by
  cases step_console h with
  | same _ heq => rw [heq]; exact .same (.refl _)
  | still _ heq => rw [heq]; exact .same (.refl _)
  | start _ _ heq => rw [heq]; exact .same (.refl _)
  | resume _ _ heq => rw [heq]; exact .same (.refl _)
  | @typed status code heq =>
    subst heq
    by_cases hs : status = 0
    · subst hs
      exact .same (.refl _)
    · by_cases ht : t = m.kern.con.curTerminal
      · obtain ⟨s, hedit, hsame⟩ := Console.keyboardHandler_line m.kern.proc.typingMask
          m.kern.proc.terminalProcessIndex m.kern.con hs code
        subst ht
        exact .edited hs rfl hedit hsame
      · exact .same (Console.keyboardHandler_otherLines _ _ _ status code t ht)
  | moved hm =>
    rcases Kernel.mouseHandler_line hm t with hsame | hsame
    · exact .same hsame
    · exact .clicked hsame
  | wrote heq =>
    rw [heq]
    exact .same ((Console.terminalWrite_drawn _ m.kern.con _).lines t)
  | mapped _ _ heq => rw [heq]; exact .same (.refl _)
  | @read p r buf ret shell hr hdone heq =>
    rw [heq]
    by_cases ht : t = r.term
    · subst ht
      rw [Console.setTerm_self]
      exact .taken shell ⟨rfl, p, r, buf, ret, hr, rfl, hdone⟩
    · rw [Console.setTerm_of_ne _ _ ht]
      exact .same (.refl _)

end Machine

/-! ## Invariants of the editors -/

structure LineStable (P : Terminal → Prop) : Prop where
  sameLine : ∀ {s s' : Terminal}, P s → SameLine s s' → P s'
  flagged : ∀ {s : Terminal}, P s → P { s with enterFlag := true }
  finishRead : ∀ {s : Terminal}, P s → ∀ shell, P (s.finishRead shell)

namespace Machine

variable {img : Image} {m m' : Machine} {e : Event} {P : Terminal → Prop}

theorem step_stable (hP : LineStable P) (h : step img m e = some m')
    (hm : ∀ t, P (m.kern.con.terminalStruct t))
    (hedit : ∀ status code s, e = .key status code → status ≠ 0 →
      Console.LineEdit (m.kern.proc.typingMask m.kern.con.curTerminal)
        (m.kern.con.codeChar code.toNat) code.toNat
        (m.kern.con.terminalStruct m.kern.con.curTerminal) s → P s) (t : Term) :
    P (m'.kern.con.terminalStruct t) := by
  have hkind := step_line h t
  generalize m'.kern.con.terminalStruct t = s' at hkind
  cases hkind with
  | same hsame => exact hP.sameLine (hm t) hsame
  | edited hs ht hline hsame =>
    subst ht
    exact hP.sameLine (hedit _ _ _ rfl hs hline) hsame
  | clicked hsame => exact hP.sameLine (hP.flagged (hm t)) hsame
  | taken shell => exact hP.finishRead (hm t) shell

theorem reach_terminals {ok : Machine → Event → Prop}
    (hboot : P ⟨fun _ => 0, 0, false, 0, 0, fun _ _ => 0, fun _ => 0, 0⟩)
    (hstep : ∀ m e m', (∀ t, P (m.kern.con.terminalStruct t)) → ok m e → step img m e = some m' →
      ∀ t, P (m'.kern.con.terminalStruct t)) (h : Reach (step img) Boot ok m) (t : Term) :
    P (m.kern.con.terminalStruct t) := by
  refine h.inv (I := fun m => ∀ t, P (m.kern.con.terminalStruct t)) (fun m hb t => ?_) hstep t
  rw [hb.terminals t]
  exact hboot

end Machine
end DeviceOS
