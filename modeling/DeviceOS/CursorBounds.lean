import DeviceOS.KeyDelivery
import DeviceOS.LineBounds

/-!
# DeviceOS.CursorBounds

The cursors and the screen. `putc` wraps at the end of a row, and backspace at its beginning; the
arrows subtract the length of a line from the column and store the difference as a byte.

* `StaysInside`: no cursor leaves the screen at any moment of a sequence of calls.
  `staysInside_iff`: it depends on the arguments of `set_cursor` alone.
* `putc_inPage`: with the cursor on the screen, `putc` stores in the 80*25 cells of its page.
* `Wraps`: an arrow subtracts more than the column.
* `cursor_stays_inside`: nothing else moves a cursor off the screen.
-/

namespace DeviceOS

open EventSystem (Reach run)

namespace Console

variable {c c' c'' : Console}

/-! ## Where output goes -/

/-- Only the 80*25 cells of the target's page change in memory. -/
structure InPage (c c' : Console) : Prop where
  drawn : Drawn c c'
  vram : ∀ a, (∀ i, i < 2 * (numRows * numCols) → a ≠ c.phys (c.videoMem + i)) →
    c'.vram a = c.vram a

theorem Drawn.phys (h : Drawn c c') (a : Nat) : c'.phys a = c.phys a := by
  simp only [Console.phys, h.vidmapped, h.vidmemPage]

theorem InPage.refl (c : Console) : InPage c c := ⟨.refl c, fun _ _ => rfl⟩

theorem InPage.trans (h1 : InPage c c') (h2 : InPage c' c'') : InPage c c'' := by
  refine ⟨h1.drawn.trans h2.drawn, fun a ha => (h2.vram a fun i hi => ?_).trans (h1.vram a ha)⟩
  rw [h1.drawn.videoMem, h1.drawn.phys]
  exact ha i hi

theorem foldl_inPage {f : Console → Nat → Console} {l : List Nat}
    (hf : ∀ d, ∀ i ∈ l, InPage d (f d i)) : ∀ c : Console, InPage c (l.foldl f c) := by
  induction l with
  | nil => intro c; exact .refl c
  | cons i l ih =>
    intro c
    exact (hf c i List.mem_cons_self).trans
      (ih (fun d j hj => hf d j (List.mem_cons_of_mem i hj)) (f c i))

theorem poke_inPage (c : Console) {i : Nat} (hi : i < 2 * (numRows * numCols)) (b : UInt8) :
    InPage c (c.poke (c.videoMem + i) b) :=
  ⟨poke_drawn c _ b, fun _ ha => Function.update_of_ne (ha i hi) ..⟩

/-- Two stores to the bytes of cell `i`. -/
theorem pokes_inPage (c : Console) {i : Nat} (hi : i < numRows * numCols) (a b : UInt8) :
    InPage c ((c.poke (c.videoMem + 2 * i) a).poke (c.videoMem + 2 * i + 1) b) := by
  refine (poke_inPage c (i := 2 * i) (by omega) a).trans ?_
  exact poke_inPage (c.poke (c.videoMem + 2 * i) a) (i := 2 * i + 1) (by omega) b

theorem setCursor_inPage (c : Console) (x y : Nat) : InPage c (c.setCursor x y) :=
  ⟨setCursor_drawn c x y, fun a _ => by rw [setCursor_vram]⟩

theorem shiftScreen_inPage (c : Console) : InPage c c.shiftScreen := by
  have hcopy : ∀ d, ∀ i ∈ List.range ((numRows - 1) * numCols),
      InPage d (d.copyCell i (i + numCols)) := by
    intro d i hi
    rw [List.mem_range] at hi
    exact pokes_inPage d (Nat.lt_trans hi (by decide)) _ _
  have hblank : ∀ d, ∀ i ∈ List.range numCols,
      InPage d (d.putCell ((numRows - 1) * numCols + i) 32 c.attrib) := by
    intro d i hi
    rw [List.mem_range] at hi
    refine pokes_inPage d ?_ _ _
    simp only [numRows, numCols] at hi ⊢
    omega
  exact ((foldl_inPage hcopy c).trans (foldl_inPage hblank _)).trans (setCursor_inPage _ 0 24)

/-- The cell at the cursor of the target. -/
def cellAtCursor (c : Console) : Nat := numCols * c.getCursorY + c.getCursorX

theorem putc_inPage (h : c.cellAtCursor < numRows * numCols) (ch : UInt8) :
    InPage c (c.putc ch) := by
  have hcell : InPage c (c.putCell (numCols * c.getCursorY + c.getCursorX) ch c.attrib) :=
    pokes_inPage c h ch c.attrib
  simp only [putc]
  split
  · split
    · exact shiftScreen_inPage c
    · exact setCursor_inPage c _ _
  · split
    · split
      · exact hcell.trans (shiftScreen_inPage _)
      · exact hcell.trans (setCursor_inPage _ _ _)
    · exact hcell.trans (setCursor_inPage _ _ _)

/-! ## Sequences of calls -/

variable {tpi : Option Term}

/-- At every moment of the sequence all cursors are on the screen. -/
def StaysInside (tpi : Option Term) : List Call → Console → Prop
  | [], c => CursorsInside c
  | x :: calls, c => CursorsInside c ∧ StaysInside tpi calls (x.exec tpi c)

/-- Arguments that are on the screen. -/
def Call.Inside : Call → Prop
  | setCursor x y | updateTermStruct x y => x % 256 < numCols ∧ y % 256 < numRows
  | _ => True

theorem CursorsInside.placed_iff (h : CursorsInside c) {x y : Nat}
    (hs : c'.terminalStruct = c.placed x y) : CursorsInside c' ↔ x < numCols ∧ y < numRows := by
  constructor
  · intro h'
    have ht := h' c.target
    rwa [hs, placed, Function.update_self] at ht
  · intro hxy t
    rw [hs]
    by_cases ht : t = c.target
    · subst ht
      rw [placed, Function.update_self]
      exact hxy
    · rw [placed_of_ne c x y ht]
      exact h t

theorem editLine_inside (h : CursorsInside c) (t : Term) (f : Terminal → Terminal) :
    CursorsInside (c.editLine t f) := by
  intro u
  obtain ⟨hx, hy⟩ := editLine_cursor c t f u
  rw [hx, hy]
  exact h u

theorem switchTerminal_inside (h : CursorsInside c) (tpi : Option Term) (keycode : Nat) :
    CursorsInside (c.switchTerminal tpi keycode) := by
  unfold switchTerminal
  split
  · rename_i hk
    dsimp only
    have hn := h ⟨(keycode + 256 - 0x3B) % 256, hk⟩
    have hx : (c.terminalStruct ⟨(keycode + 256 - 0x3B) % 256, hk⟩).cursorX % 256 < numCols :=
      Nat.lt_of_le_of_lt (Nat.mod_le _ _) hn.1
    have hy : (c.terminalStruct ⟨(keycode + 256 - 0x3B) % 256, hk⟩).cursorY % 256 < numRows :=
      Nat.lt_of_le_of_lt (Nat.mod_le _ _) hn.2
    refine (CursorsInside.placed_iff ?_ (setCursor_placed _ _ _)).mpr ⟨hx, hy⟩
    split <;> exact h
  · exact h

theorem Call.exec_inside_iff (tpi : Option Term) (h : CursorsInside c) (x : Call) :
    CursorsInside (x.exec tpi c) ↔ x.Inside := by
  cases x with
  | putc ch =>
    obtain ⟨x, y, hx, hy, hs⟩ := putc_placed c ch
    exact iff_of_true ((h.placed_iff hs).mpr ⟨hx, hy⟩) trivial
  | shiftScreen =>
    exact iff_of_true ((h.placed_iff (shiftScreen_placed c)).mpr ⟨by decide, by decide⟩) trivial
  | clearScreen =>
    exact iff_of_true ((h.placed_iff (clearScreen_placed c)).mpr ⟨by decide, by decide⟩) trivial
  | setCursor x y => exact h.placed_iff (setCursor_placed c x y)
  | updateTermStruct x y => exact h.placed_iff (updateTermStruct_placed c x y)
  | edit t f => exact iff_of_true (editLine_inside h t f) trivial
  | modifiers => exact iff_of_true h trivial
  | page => exact iff_of_true h trivial
  | aim => exact iff_of_true h trivial
  | display keycode => exact iff_of_true (switchTerminal_inside h tpi keycode) trivial

theorem staysInside_iff (tpi : Option Term) (calls : List Call) : ∀ {c : Console}, CursorsInside c →
    (StaysInside tpi calls c ↔ ∀ x ∈ calls, x.Inside) := by
  induction calls with
  | nil => intro c h; simpa [StaysInside] using h
  | cons x calls ih =>
    intro c h
    rw [StaysInside, List.forall_mem_cons]
    by_cases hx : x.Inside
    · have hnext := (Call.exec_inside_iff tpi h x).mpr hx
      rw [ih hnext]
      simp [h, hx]
    · have hnext := mt (Call.exec_inside_iff tpi h x).mp hx
      refine iff_of_false (fun hs => hnext ?_) (fun ha => hx ha.1)
      cases calls with
      | nil => exact hs.2
      | cons y calls => exact hs.2.1

theorem StaysInside.last {calls : List Call} : ∀ {c : Console}, StaysInside tpi calls c →
    CursorsInside (runCalls tpi calls c) := by
  induction calls with
  | nil => intro c h; exact h
  | cons x calls ih => intro c h; exact ih h.2

/-- Every `putc` of the sequence finds the cursor on the screen. -/
theorem StaysInside.putc {pre post : List Call} {ch : UInt8} : ∀ {c : Console},
    StaysInside tpi (pre ++ .putc ch :: post) c →
      (runCalls tpi pre c).cellAtCursor < numRows * numCols := by
  induction pre with
  | nil =>
    intro c h
    have hin := h.1 c.target
    simp only [numCols, numRows] at hin
    simp only [runCalls, List.foldl_nil, cellAtCursor, getCursorX, getCursorY, numCols, numRows]
    omega
  | cons x pre ih => intro c h; exact ih h.2

theorem writeCalls_inside (tpi : Option Term) (c : Console) (bytes : List UInt8) :
    ∀ x ∈ writeCalls tpi c bytes, x.Inside := by
  intro x hx
  simp only [writeCalls, List.cons_append, List.mem_cons, List.mem_append, List.mem_map,
    List.not_mem_nil, or_false] at hx
  rcases hx with rfl | ⟨_, _, rfl⟩ | rfl <;> exact trivial

/-! ## The arrows -/

/-- A difference of a column and a length, stored as a byte, is a column exactly when it is not
negative. -/
theorem u8_sub_lt {x n : Nat} (hx : x < numCols) (hn : n ≤ 72) :
    u8 ((x : Int) - n) % 256 < numCols ↔ n ≤ x := by
  simp only [u8, numCols] at *
  omega

/-- The length that an arrow blanks out: that of the row that is shown. -/
def shownLength (s : Terminal) : Nat :=
  if s.commandPos = 0 then s.keyboardIdx else s.commandIdx s.commandPos

/-- The scan code is an arrow, and there is a row to go to. -/
def Redraws (typing : Bool) (s : Terminal) (code : Nat) : Prop :=
  typing = true ∧ ((code = 0x48 ∧ s.commandPos < 9 ∧ s.commandIdx (s.commandPos + 1) ≠ 0) ∨
    (code = 0x50 ∧ 0 < s.commandPos))

/-- The arrow subtracts more than the column of the cursor. -/
def ArrowWraps (typing : Bool) (s : Terminal) (code : Nat) : Prop :=
  Redraws typing s code ∧ (s.cursorX < shownLength s ∨ s.cursorX < s.keyboardIdx)

theorem redrawCalls_inside {s : Terminal} {t : Term} {x y erase pos : Nat} (hx : x < numCols)
    (hy : y < numRows) (he : erase ≤ 72) (hk : s.keyboardIdx ≤ 72) :
    (∀ z ∈ redrawCalls s t x y erase pos, z.Inside) ↔ erase ≤ x ∧ s.keyboardIdx ≤ x := by
  have hy' : y % 256 < numRows := Nat.lt_of_le_of_lt (Nat.mod_le _ _) hy
  have h1 := u8_sub_lt hx he
  have h2 := u8_sub_lt hx hk
  constructor
  · intro h
    have hfirst : Call.Inside (.setCursor (u8 (x - erase)) y) := h _ (by simp [redrawCalls])
    have hsecond : Call.Inside (.setCursor (u8 (x - s.keyboardIdx)) y) :=
      h _ (by simp [redrawCalls])
    exact ⟨h1.mp hfirst.1, h2.mp hsecond.1⟩
  · rintro ⟨hle, hle'⟩ z hz
    simp only [redrawCalls, List.cons_append, List.append_assoc, List.mem_cons, List.mem_append,
      List.mem_replicate, List.mem_map, List.not_mem_nil, or_false] at hz
    rcases hz with rfl | ⟨_, rfl⟩ | rfl | ⟨_, _, rfl⟩ | rfl
    · exact ⟨h1.mpr hle, hy'⟩
    · trivial
    · exact ⟨h2.mpr hle', hy'⟩
    · trivial
    · trivial

theorem shownLength_le {s : Terminal} (h : InBounds s) : shownLength s ≤ 72 := by
  simp only [shownLength]
  split
  · exact h.line.1
  · exact (h.rows _).1

/-- Saving the draft does not change what is shown: row 0 gets the line. -/
theorem toOlder_lengths (s : Terminal) : s.toOlder.keyboardIdx = s.keyboardIdx ∧
    s.toOlder.commandIdx (s.toOlder.commandPos - 1) = shownLength s := by
  simp only [Terminal.toOlder, shownLength]
  by_cases h0 : s.commandPos = 0
  · have h1 : s.commandPos + 1 = 1 := by omega
    rw [if_pos h1, if_pos h0]
    exact ⟨rfl, by simp [Terminal.saveDraft, h0]⟩
  · have h1 : ¬ s.commandPos + 1 = 1 := by omega
    rw [if_neg h1, if_neg h0]
    exact ⟨rfl, rfl⟩

variable (typing : Term → Bool)

theorem upArrowCalls_inside (c : Console) (t : Term) {x y : Nat} (hx : x < numCols) (hy : y < numRows)
    (hb : InBounds (c.terminalStruct t)) :
    (∀ z ∈ c.upArrowCalls typing t x y, z.Inside) ↔
      ¬ (Redraws (typing c.curTerminal) (c.terminalStruct t) 0x48 ∧
        (x < shownLength (c.terminalStruct t) ∨ x < (c.terminalStruct t).keyboardIdx)) := by
  simp only [upArrowCalls]
  split
  · rename_i hty
    refine iff_of_true (by simp) ?_
    rintro ⟨⟨hty', _⟩, _⟩
    rw [hty] at hty'
    cases hty'
  · rename_i hty
    split
    · rename_i hpos
      refine iff_of_true (by simp [Call.Inside]) ?_
      rintro ⟨⟨_, ⟨_, hlt, _⟩ | ⟨hcode, _⟩⟩, _⟩
      · omega
      · cases hcode
    · rename_i hpos
      split
      · rename_i hzero
        refine iff_of_true (by simp) ?_
        rintro ⟨⟨_, ⟨_, _, hne⟩ | ⟨hcode, _⟩⟩, _⟩
        · exact hne hzero
        · cases hcode
      · rename_i hne
        have hred : Redraws (typing c.curTerminal) (c.terminalStruct t) 0x48 :=
          ⟨by simpa using hty, Or.inl ⟨rfl, by omega, hne⟩⟩
        obtain ⟨hidx, hlen⟩ := toOlder_lengths (c.terminalStruct t)
        rw [List.forall_mem_cons, hlen, redrawCalls_inside hx hy (shownLength_le hb) (hidx ▸ hb.line.1),
          hidx]
        simp only [Call.Inside, true_and, hred]
        omega

theorem downArrowCalls_inside (c : Console) (t : Term) {x y : Nat} (hx : x < numCols)
    (hy : y < numRows) (hb : InBounds (c.terminalStruct t)) :
    (∀ z ∈ c.downArrowCalls typing t x y, z.Inside) ↔
      ¬ (Redraws (typing c.curTerminal) (c.terminalStruct t) 0x50 ∧
        (x < shownLength (c.terminalStruct t) ∨ x < (c.terminalStruct t).keyboardIdx)) := by
  simp only [downArrowCalls]
  split
  · rename_i hty
    refine iff_of_true (by simp) ?_
    rintro ⟨⟨hty', _⟩, _⟩
    rw [hty] at hty'
    cases hty'
  · rename_i hty
    split
    · rename_i hpos
      refine iff_of_true (by simp) ?_
      rintro ⟨⟨_, ⟨hcode, _⟩ | ⟨_, hlt⟩⟩, _⟩
      · cases hcode
      · omega
    · rename_i hpos
      have hred : Redraws (typing c.curTerminal) (c.terminalStruct t) 0x50 :=
        ⟨by simpa using hty, Or.inr ⟨rfl, by omega⟩⟩
      rw [List.forall_mem_cons, redrawCalls_inside hx hy (hb.rows _).1 hb.line.1]
      simp only [Call.Inside, true_and, hred, shownLength, if_neg hpos]
      omega

theorem writeKeyboardCharCalls_inside (c : Console) (code kidx : Nat) (kbuf : Nat → UInt8) :
    ∀ z ∈ c.writeKeyboardCharCalls typing code kidx kbuf, z.Inside := by
  simp only [writeKeyboardCharCalls]
  split
  · simp [Call.Inside]
  · split <;> simp [Call.Inside]

theorem backspaceCalls_inside {x y : Nat} (hx : x < numCols) (hy : y < numRows) (t : Term)
    (kidx : Nat) (kbuf : Nat → UInt8) : ∀ z ∈ backspaceCalls t x y kidx kbuf, z.Inside := by
  simp only [numCols, numRows] at hx hy
  simp only [backspaceCalls]
  split
  · have hxy : (if x = 0 then 79 else x - 1) % 256 < numCols ∧
        (if x = 0 then y - 1 else y) % 256 < numRows := by
      simp only [numCols, numRows]
      split <;> omega
    simpa [Call.Inside] using hxy
  · simp

theorem enterKeyCalls_inside (c : Console) (t : Term) (y : Nat) :
    ∀ z ∈ c.enterKeyCalls typing t y, z.Inside := by
  simp only [enterKeyCalls]
  split
  · simp
  · split <;> simp [Call.Inside]

theorem Call.Plain.inside {x : Call} (h : x.Plain) : x.Inside := by
  cases x with
  | putc | clearScreen | modifiers => trivial
  | _ => exact h.elim

/-- The arrows are the only keys that can move the cursor off the screen. -/
theorem handleCodeCalls_inside (c : Console) (code : Nat) (t : Term) {x y : Nat} (hx : x < numCols)
    (hy : y < numRows) (hb : InBounds (c.terminalStruct t)) (kidx : Nat) (kbuf : Nat → UInt8) :
    (∀ z ∈ c.handleCodeCalls typing code t x y kidx kbuf, z.Inside) ↔
      ¬ (Redraws (typing c.curTerminal) (c.terminalStruct t) code ∧
        (x < shownLength (c.terminalStruct t) ∨ x < (c.terminalStruct t).keyboardIdx)) := by
  have hother : code ≠ 0x48 → code ≠ 0x50 →
      ¬ (Redraws (typing c.curTerminal) (c.terminalStruct t) code ∧
        (x < shownLength (c.terminalStruct t) ∨ x < (c.terminalStruct t).keyboardIdx)) := by
    rintro h1 h2 ⟨⟨_, ⟨hcode, _⟩ | ⟨hcode, _⟩⟩, _⟩
    · exact h1 hcode
    · exact h2 hcode
  have h := handleCodeCalls_spec typing c code t x y kidx kbuf
  generalize c.handleCodeCalls typing code t x y kidx kbuf = calls at h ⊢
  cases h with
  | backspace =>
    exact iff_of_true (backspaceCalls_inside hx hy t kidx kbuf) (hother (by omega) (by omega))
  | enter => exact iff_of_true (enterKeyCalls_inside typing c t y) (hother (by omega) (by omega))
  | up => exact upArrowCalls_inside typing c t hx hy hb
  | down => exact downArrowCalls_inside typing c t hx hy hb
  | plain _ hup hdown hplain =>
    exact iff_of_true (fun z hz => (hplain z hz).inside) (hother hup hdown)
  | char hup hdown =>
    exact iff_of_true (writeKeyboardCharCalls_inside typing c code kidx kbuf) (hother hup hdown)

end Console

namespace Kernel

variable {k k' : Kernel}

theorem togglePaint_inside (h : k.con.CursorsInside) : k.togglePaint.1.con.CursorsInside := by
  have hclear : k.con.clearScreen.CursorsInside :=
    (h.placed_iff (Console.clearScreen_placed k.con)).mpr ⟨by decide, by decide⟩
  simp only [togglePaint]
  split
  · exact Console.editLine_inside hclear k.con.curTerminal fun s => { s with enterFlag := true }
  · exact hclear

theorem mouseHandler_inside {p : Packet} (h : k.mouseHandler p = some k')
    (hin : k.con.CursorsInside) : k'.con.CursorsInside := by
  have hdraw : ∀ {k1 : Kernel} {status : UInt8} {x y : Nat} {flag : Bool},
      k1.con.CursorsInside → (k1.drawPointer status x y flag).con.CursorsInside := by
    intro k1 status x y flag h1 u
    rw [drawPointer_terminalStruct]
    exact h1 u
  rcases mouseHandler_cases h with rfl | ⟨k1, x, y, flag, rfl, _, ⟨_, hc⟩ | ⟨_, hc⟩⟩
  · exact hin
  · exact hdraw (hc ▸ hin)
  · exact hdraw (hc ▸ togglePaint_inside hin)

end Kernel

namespace Machine

variable {img : Image} {m m' : Machine} {e : Event}

def KeyWraps (m : Machine) (status code : UInt8) : Prop :=
  status ≠ 0 ∧ Console.ArrowWraps (m.kern.proc.typingMask m.kern.con.curTerminal)
    (m.kern.con.terminalStruct m.kern.con.curTerminal) code.toNat

def Wraps (m : Machine) : Event → Prop
  | .key status code => KeyWraps m status code
  | _ => False

theorem keyCalls_inside_iff (ht : m.kern.con.Tidy) (hin : m.kern.con.CursorsInside)
    (hb : InBounds (m.kern.con.terminalStruct m.kern.con.curTerminal)) (status code : UInt8) :
    (∀ x ∈ m.kern.con.keyCalls m.kern.proc.typingMask status code, x.Inside) ↔
      ¬ KeyWraps m status code := by
  have hx : m.kern.con.getCursorX =
      (m.kern.con.terminalStruct m.kern.con.curTerminal).cursorX := by
    rw [Console.getCursorX, Console.target_eq ht.writeTermIdx]
  have hy : m.kern.con.getCursorY =
      (m.kern.con.terminalStruct m.kern.con.curTerminal).cursorY := by
    rw [Console.getCursorY, Console.target_eq ht.writeTermIdx]
  have hcur := hin m.kern.con.curTerminal
  by_cases hs : status = 0
  · exact iff_of_true (by simp [Console.keyCalls, hs]) fun h => h.1 hs
  · have hstart : InBounds (m.kern.con.keyStart.terminalStruct m.kern.con.curTerminal) := by
      rw [Console.keyStart_self]
      exact ⟨hb.line, hb.commandPos, hb.rows⟩
    have h := Console.handleCodeCalls_inside m.kern.proc.typingMask m.kern.con.keyStart code.toNat
      m.kern.con.curTerminal hcur.1 hcur.2 hstart
      (m.kern.con.terminalStruct m.kern.con.curTerminal).localIdx
      (m.kern.con.terminalStruct m.kern.con.curTerminal).localBuf
    rw [Console.keyStart_self] at h
    rw [Console.keyCalls, if_neg hs, hx, hy]
    simp only [List.forall_mem_append, List.forall_mem_cons, List.not_mem_nil, false_implies,
      implies_true, and_true, h]
    simp only [Console.Call.Inside, true_and, and_true, KeyWraps, ne_eq, hs, not_false_eq_true]
    exact Iff.rfl

theorem step_inside (ht : m.kern.con.Tidy) (hb : ∀ t, InBounds (m.kern.con.terminalStruct t))
    (hin : m.kern.con.CursorsInside) (hno : ¬ Wraps m e) (h : step img m e = some m') :
    m'.kern.con.CursorsInside := by
  cases step_console h with
  | same _ heq => rwa [heq]
  | still _ heq => rwa [heq]
  | start _ _ heq => rwa [heq]
  | resume _ _ heq => rw [heq]; exact hin
  | typed heq =>
    have hcalls := (keyCalls_inside_iff ht hin (hb _) _ _).mpr hno
    have hlast := ((Console.staysInside_iff m.kern.proc.terminalProcessIndex _ hin).mpr hcalls).last
    rw [Console.runCalls_keyCalls] at hlast
    rw [heq]
    exact hlast
  | moved hm => exact Kernel.mouseHandler_inside hm hin
  | @wrote _ _ _ bytes heq =>
    have hlast := ((Console.staysInside_iff m.kern.proc.terminalProcessIndex _ hin).mpr
      (Console.writeCalls_inside m.kern.proc.terminalProcessIndex m.kern.con bytes)).last
    rw [Console.runCalls_writeCalls] at hlast
    rwa [heq]
  | mapped _ _ heq => rw [heq]; exact hin
  | @read p r buf ret shell _ _ heq =>
    obtain ⟨hX, hY⟩ := (m.kern.con.terminalStruct r.term).finishRead_cursor shell
    rw [heq]
    intro u
    obtain ⟨hx, hy⟩ := Console.setTerm_cursor hX hY u
    rw [hx, hy]
    exact hin u

/-- All cursors are on the screen during a sequence of calls, so every `putc` in it finds the cursor
there and stores in the cells of its page. -/
structure OnScreen (tpi : Option Term) (calls : List Console.Call) (c : Console) : Prop where
  inside : Console.StaysInside tpi calls c
  cells : ∀ pre ch post, calls = pre ++ .putc ch :: post →
    Console.InPage (Console.runCalls tpi pre c) ((Console.runCalls tpi pre c).putc ch)

theorem onScreen_iff {tpi : Option Term} {calls : List Console.Call} {c : Console}
    (hin : c.CursorsInside) : OnScreen tpi calls c ↔ ∀ x ∈ calls, x.Inside := by
  rw [← Console.staysInside_iff tpi calls hin]
  refine ⟨fun h => h.inside, fun h => ⟨h, ?_⟩⟩
  rintro pre ch post rfl
  exact Console.putc_inPage h.putc ch

/-- In every run in which no arrow subtracts more than the column, the cursors are on the screen, and
they stay there during every call of `terminal_write`; a keyboard interrupt keeps them there, at every
moment of it, exactly when it is not such an arrow. -/
theorem cursor_stays_inside (img : Image) (m : Machine)
    (h : Reach (step img) Boot (fun m e => ¬ Wraps m e) m) :
    m.kern.con.CursorsInside ∧
    (∀ bytes, OnScreen m.kern.proc.terminalProcessIndex
      (Console.writeCalls m.kern.proc.terminalProcessIndex m.kern.con bytes) m.kern.con) ∧
    ∀ status code, OnScreen m.kern.proc.terminalProcessIndex
      (m.kern.con.keyCalls m.kern.proc.typingMask status code) m.kern.con ↔
        ¬ KeyWraps m status code := by
  have hinv : (m.kern.con.Tidy ∧ ∀ t, InBounds (m.kern.con.terminalStruct t)) ∧
      m.kern.con.CursorsInside := by
    refine h.inv (I := fun m => (m.kern.con.Tidy ∧ ∀ t, InBounds (m.kern.con.terminalStruct t)) ∧
      m.kern.con.CursorsInside) ?_ ?_
    · intro m hb
      have hall : Reach (step img) Boot (fun _ _ => True) m := .init hb
      refine ⟨⟨reach_tidy hall, reach_inBounds hall⟩, fun t => ?_⟩
      rw [hb.terminals t]
      exact ⟨by decide, by decide⟩
    · rintro m e m' ⟨⟨ht, hb⟩, hin⟩ hno hs
      exact ⟨⟨step_tidy hs ht, step_inBounds hs hb⟩, step_inside ht hb hin hno hs⟩
  obtain ⟨⟨ht, hb⟩, hin⟩ := hinv
  refine ⟨hin, fun bytes => ?_, fun status code => ?_⟩
  · exact (onScreen_iff hin).mpr (Console.writeCalls_inside _ _ bytes)
  · exact (onScreen_iff hin).trans (keyCalls_inside_iff ht hin (hb _) status code)

/-! ## Two runs -/

instance (typing : Bool) (s : Terminal) (code : Nat) : Decidable (Console.Redraws typing s code) :=
  inferInstanceAs (Decidable (typing = true ∧ ((code = 0x48 ∧ s.commandPos < 9 ∧
    s.commandIdx (s.commandPos + 1) ≠ 0) ∨ (code = 0x50 ∧ 0 < s.commandPos))))

instance (typing : Bool) (s : Terminal) (code : Nat) : Decidable (Console.ArrowWraps typing s code) :=
  inferInstanceAs (Decidable (Console.Redraws typing s code ∧
    (s.cursorX < Console.shownLength s ∨ s.cursorX < s.keyboardIdx)))

instance (m : Machine) (status code : UInt8) : Decidable (KeyWraps m status code) :=
  inferInstanceAs (Decidable (status ≠ 0 ∧
    Console.ArrowWraps (m.kern.proc.typingMask m.kern.con.curTerminal)
      (m.kern.con.terminalStruct m.kern.con.curTerminal) code.toNat))

/-- A test for events: no arrow wraps. -/
def noWrap (m : Machine) : Event → Bool
  | .key status code => !decide (KeyWraps m status code)
  | _ => true

theorem not_wraps (h : noWrap m e = true) : ¬ Wraps m e := by
  cases e with
  | key status code => simpa [noWrap, Wraps] using h
  | _ => exact not_false

/-- The first shell reads `a` and Enter, and the line is shown again with the arrow up. -/
def showsHistory : List Event :=
  [.tick 0 0, .read 0 (some fun _ => 0) 128, .key 1 0x1E] ++ List.replicate 5 .go ++
    [.key 1 0x1C, .go, .key 1 0x48]

/-- The arrow down now subtracts 1 from column 1. -/
theorem cursor_stays_inside_history : ∃ m : Machine,
    (m.kern.con.terminalStruct 0).commandPos = 1 ∧ m.kern.con.CursorsInside ∧
      OnScreen m.kern.proc.terminalProcessIndex
        (m.kern.con.keyCalls m.kern.proc.typingMask 1 0x50) m.kern.con := by
  have hrun : (run (fun m e => if noWrap m e then step disk m e else none) booted showsHistory).map
      (fun m => ((m.kern.con.terminalStruct 0).commandPos, noWrap m (.key 1 0x50))) =
        some (1, true) := by
    decide +kernel
  obtain ⟨m, hm, hp⟩ := Option.map_eq_some_iff.mp hrun
  obtain ⟨hpos, hno⟩ := Prod.mk.inj hp
  have hreach : Reach (step disk) Boot (fun m e => ¬ Wraps m e) m :=
    Reach.of_checked (fun _ _ => not_wraps) (.init boot_booted) hm
  obtain ⟨hin, _, hkey⟩ := cursor_stays_inside disk m hreach
  exact ⟨m, hpos, hin, (hkey 1 0x50).mpr (not_wraps hno)⟩

/-- Enter moves the cursor to column 0, and the line of the history is still there: the arrow down
subtracts 1 from column 0, and the cursor is in column 255. -/
theorem arrow_leaves_screen : ¬ ∀ (img : Image) (m : Machine),
    Reach (step img) Boot (fun _ _ => True) m → m.kern.con.CursorsInside := by
  intro h
  have hrun : (run (step disk) booted (showsHistory ++ [.key 1 0x1C, .key 1 0x50])).map
      (fun m => (m.kern.con.terminalStruct 0).cursorX) = some 255 := by
    decide +kernel
  obtain ⟨m, hm, hx⟩ := Option.map_eq_some_iff.mp hrun
  have hreach : Reach (step disk) Boot (fun _ _ => True) m :=
    Reach.of_any (.init boot_booted) hm
  have hin := (h disk m hreach 0).1
  rw [hx] at hin
  exact absurd hin (by decide)

end Machine
end DeviceOS
