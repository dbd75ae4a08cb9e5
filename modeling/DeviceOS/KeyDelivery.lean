import DeviceOS.ConsoleCalls

/-!
# DeviceOS.KeyDelivery

Keys reach only the displayed terminal.

* `Call.Local t`: a call that is for terminal `t` while `t` is displayed. All calls of
  `keyboard_handler` are, but for the one of `switch_terminal`.
* `CursorBytes`, `Tidy`: what every reachable console has in common. `switch_terminal` puts a cursor
  where it already is.
* `keys_reach_displayed`: a keyboard interrupt leaves the other terminals as they are, and over a
  whole run a terminal keeps the line that was typed while it was displayed.
-/

namespace DeviceOS

open EventSystem (Reach run Allowed)

namespace Console

variable {c c' c'' : Console} {t : Term}

def Call.Local (t : Term) : Call → Prop
  | edit u _ => u = t
  | aim _ | display _ => False
  | _ => True

/-- The cursor fields are `int32_t`, but what is stored there is one byte. -/
def CursorBytes (c : Console) : Prop :=
  ∀ t, (c.terminalStruct t).cursorX < 256 ∧ (c.terminalStruct t).cursorY < 256

/-- Only the record of the displayed terminal changes. -/
structure OnDisplayed (c c' : Console) : Prop where
  curTerminal : c'.curTerminal = c.curTerminal
  writeTermIdx : c'.writeTermIdx = c.writeTermIdx
  others : ∀ u, u ≠ c.curTerminal → c'.terminalStruct u = c.terminalStruct u
  bytes : CursorBytes c → CursorBytes c'

theorem OnDisplayed.refl (c : Console) : OnDisplayed c c := ⟨rfl, rfl, fun _ _ => rfl, id⟩

theorem OnDisplayed.trans (h1 : OnDisplayed c c') (h2 : OnDisplayed c' c'') : OnDisplayed c c'' where
  curTerminal := h2.curTerminal.trans h1.curTerminal
  writeTermIdx := h2.writeTermIdx.trans h1.writeTermIdx
  others u hu := (h2.others u (by rwa [h1.curTerminal])).trans (h1.others u hu)
  bytes h := h2.bytes (h1.bytes h)

theorem target_eq (hw : c.writeTermIdx = none) : c.target = c.curTerminal := by
  rw [target, hw]
  rfl

theorem CursorBytes.placed (h : CursorBytes c) {x y : Nat} (hx : x < 256) (hy : y < 256)
    (hs : c'.terminalStruct = c.placed x y) : CursorBytes c' := by
  intro t
  rw [hs]
  by_cases ht : t = c.target
  · subst ht
    rw [Console.placed, Function.update_self]
    exact ⟨hx, hy⟩
  · rw [placed_of_ne c x y ht]
    exact h t

theorem Drawn.onDisplayed (hd : Drawn c c') (hw : c.writeTermIdx = none) {x y : Nat} (hx : x < 256)
    (hy : y < 256) (hs : c'.terminalStruct = c.placed x y) : OnDisplayed c c' := by
  refine ⟨hd.curTerminal, hd.writeTermIdx, fun u hu => ?_, fun h => h.placed hx hy hs⟩
  rw [hs]
  exact placed_of_ne c x y (by rwa [target_eq hw])

theorem editLine_onDisplayed (c : Console) (f : Terminal → Terminal) :
    OnDisplayed c (c.editLine c.curTerminal f) := by
  refine ⟨rfl, rfl, fun u hu => setTerm_of_ne _ _ hu, fun h u => ?_⟩
  obtain ⟨hx, hy⟩ := editLine_cursor c c.curTerminal f u
  rw [hx, hy]
  exact h u

theorem Call.exec_onDisplayed (tpi : Option Term) (hw : c.writeTermIdx = none) {x : Call}
    (hx : x.Local c.curTerminal) : OnDisplayed c (x.exec tpi c) := by
  have hmod : ∀ n : Nat, n % 256 < 256 := fun n => Nat.mod_lt n (by decide)
  cases x with
  | putc ch =>
    obtain ⟨x, y, hx, hy, hs⟩ := putc_placed c ch
    exact (putc_drawn c ch).onDisplayed hw (Nat.lt_trans hx (by decide))
      (Nat.lt_trans hy (by decide)) hs
  | shiftScreen =>
    exact (shiftScreen_drawn c).onDisplayed hw (by decide) (by decide) (shiftScreen_placed c)
  | clearScreen =>
    exact (clearScreen_drawn c).onDisplayed hw (by decide) (by decide) (clearScreen_placed c)
  | setCursor x y =>
    exact (setCursor_drawn c x y).onDisplayed hw (hmod x) (hmod y) (setCursor_placed c x y)
  | updateTermStruct x y =>
    exact (updateTermStruct_drawn c x y).onDisplayed hw (hmod x) (hmod y)
      (updateTermStruct_placed c x y)
  | edit u f =>
    obtain rfl : u = c.curTerminal := hx
    exact editLine_onDisplayed c f
  | modifiers => exact ⟨rfl, rfl, fun _ _ => rfl, id⟩
  | page => exact ⟨rfl, rfl, fun _ _ => rfl, id⟩
  | aim => exact hx.elim
  | display => exact hx.elim

theorem runCalls_onDisplayed (tpi : Option Term) : ∀ {calls : List Call} {c : Console},
    c.writeTermIdx = none → (∀ x ∈ calls, x.Local c.curTerminal) →
      OnDisplayed c (runCalls tpi calls c) := by
  intro calls
  induction calls with
  | nil => intro c _ _; exact .refl c
  | cons x calls ih =>
    intro c hw hl
    have hstep := Call.exec_onDisplayed tpi hw (hl x List.mem_cons_self)
    refine hstep.trans (ih (hstep.writeTermIdx.trans hw) fun y hy => ?_)
    rw [hstep.curTerminal]
    exact hl y (List.mem_cons_of_mem _ hy)

/-! ## The calls of `keyboard_handler` -/

variable (typing : Term → Bool) (tpi : Option Term)

theorem redrawCalls_local (s : Terminal) (t : Term) (x y erase pos : Nat) :
    ∀ z ∈ redrawCalls s t x y erase pos, z.Local t := by
  intro z hz
  simp only [redrawCalls, List.cons_append, List.append_assoc, List.mem_cons, List.mem_append,
    List.mem_replicate, List.mem_map, List.not_mem_nil, or_false] at hz
  rcases hz with rfl | ⟨_, rfl⟩ | rfl | ⟨_, _, rfl⟩ | rfl
  · trivial
  · trivial
  · trivial
  · trivial
  · rfl

theorem writeKeyboardCharCalls_cases (c : Console) (code kidx : Nat) (kbuf : Nat → UInt8) :
    (c.switchTarget code = none ∧
      ∀ x ∈ c.writeKeyboardCharCalls typing code kidx kbuf, x.Local c.curTerminal) ∨
    (c.switchTarget code ≠ none ∧
      c.writeKeyboardCharCalls typing code kidx kbuf = [.display code]) := by
  simp only [writeKeyboardCharCalls]
  split
  · rename_i h
    refine Or.inr ⟨?_, rfl⟩
    rw [switchTarget, dif_pos ⟨h.2, by omega⟩]
    exact Option.some_ne_none _
  · rename_i h
    refine Or.inl ⟨?_, ?_⟩
    · rw [switchTarget, dif_neg (by intro h'; exact h ⟨by omega, h'.1⟩)]
    · split
      · simp [Call.Local]
      · simp

theorem Call.Plain.local {x : Call} (h : x.Plain) (t : Term) : x.Local t := by
  cases x with
  | putc | clearScreen | modifiers => trivial
  | _ => exact h.elim

theorem handleCodeCalls_cases (c : Console) (code x y kidx : Nat) (kbuf : Nat → UInt8) :
    (c.switchTarget code = none ∧
      ∀ z ∈ c.handleCodeCalls typing code c.curTerminal x y kidx kbuf, z.Local c.curTerminal) ∨
    (c.switchTarget code ≠ none ∧
      c.handleCodeCalls typing code c.curTerminal x y kidx kbuf = [.display code]) := by
  have h := handleCodeCalls_spec typing c code c.curTerminal x y kidx kbuf
  generalize c.handleCodeCalls typing code c.curTerminal x y kidx kbuf = calls at h ⊢
  cases h with
  | backspace =>
    refine Or.inl ⟨switchTarget_of_lt c (by omega), ?_⟩
    simp only [backspaceCalls]
    split
    · simp [Call.Local]
    · simp
  | enter =>
    refine Or.inl ⟨switchTarget_of_lt c (by omega), ?_⟩
    simp only [enterKeyCalls]
    split
    · simp
    · split <;> simp [Call.Local]
  | up =>
    refine Or.inl ⟨switchTarget_of_lt c (by omega), ?_⟩
    simp only [upArrowCalls]
    split
    · simp
    · split
      · simp [Call.Local]
      · split
        · simp
        · exact List.forall_mem_cons.mpr ⟨rfl, redrawCalls_local _ _ _ _ _ _⟩
  | down =>
    refine Or.inl ⟨switchTarget_of_lt c (by omega), ?_⟩
    simp only [downArrowCalls]
    split
    · simp
    · split
      · simp
      · exact List.forall_mem_cons.mpr ⟨rfl, redrawCalls_local _ _ _ _ _ _⟩
  | plain hcode _ _ hplain =>
    exact Or.inl ⟨switchTarget_of_lt c hcode, fun z hz => (hplain z hz).local _⟩
  | char => exact writeKeyboardCharCalls_cases typing c code kidx kbuf

theorem keyStart_calls (c : Console) (code : Nat) :
    let s := c.terminalStruct c.curTerminal
    (c.switchTarget code = none ∧ ∀ x ∈ c.keyStart.handleCodeCalls typing code c.curTerminal
      c.getCursorX c.getCursorY s.localIdx s.localBuf, x.Local c.curTerminal) ∨
    (c.switchTarget code ≠ none ∧ c.keyStart.handleCodeCalls typing code c.curTerminal c.getCursorX
      c.getCursorY s.localIdx s.localBuf = [.display code]) := by
  have hcur : c.keyStart.curTerminal = c.curTerminal := rfl
  have htarget : c.keyStart.switchTarget code = c.switchTarget code := rfl
  have h := handleCodeCalls_cases typing c.keyStart code c.getCursorX c.getCursorY
    (c.terminalStruct c.curTerminal).localIdx (c.terminalStruct c.curTerminal).localBuf
  rw [hcur, htarget] at h
  exact h

/-- The calls are for the displayed terminal, or the display is switched. -/
theorem keyCalls_cases (c : Console) (status code : UInt8) :
    (∀ x ∈ c.keyCalls typing status code, x.Local c.curTerminal) ∨
    (status ≠ 0 ∧ c.switchTarget code.toNat ≠ none) := by
  by_cases hs : status = 0
  · simp [keyCalls, hs]
  · rcases keyStart_calls typing c code.toNat with ⟨_, hl⟩ | ⟨hn, _⟩
    · refine Or.inl fun x hx => ?_
      simp only [keyCalls, if_neg hs, List.mem_append, List.mem_cons, List.not_mem_nil,
        or_false] at hx
      rcases hx with ((rfl | rfl) | hx) | rfl
      · rfl
      · trivial
      · exact hl x hx
      · trivial
    · exact Or.inr ⟨hs, hn⟩

/-- What every reachable console has in common: output goes to the screen, and cursors are bytes. -/
structure Tidy (c : Console) : Prop where
  writeTermIdx : c.writeTermIdx = none
  bytes : CursorBytes c

theorem OnDisplayed.tidy (h : OnDisplayed c c') (ht : Tidy c) : Tidy c' :=
  ⟨h.writeTermIdx.trans ht.writeTermIdx, h.bytes ht.bytes⟩

/-- Alt with F1, F2 or F3 clears the flag of the terminal that was displayed. -/
theorem keyboardHandler_switch (ht : Tidy c) {status code : UInt8} (hs : status ≠ 0)
    (hn : c.switchTarget code.toNat ≠ none) :
    (c.keyboardHandler typing tpi status code).writeTermIdx = none ∧
    (c.keyboardHandler typing tpi status code).terminalStruct =
      Function.update c.terminalStruct c.curTerminal
        (c.terminalStruct c.curTerminal).clearFlag := by
  have hcalls := ((keyStart_calls typing c code.toNat).resolve_left fun h => hn h.1).2
  have hstart : Tidy c.keyStart :=
    ⟨ht.writeTermIdx, (editLine_onDisplayed c Terminal.clearFlag).bytes ht.bytes⟩
  have hw := switchTerminal_writeTermIdx tpi c.keyStart code.toNat
  have hstruct := switchTerminal_terminalStruct hstart.writeTermIdx hstart.bytes tpi code.toNat
  rw [keyboardHandler_eq typing tpi c hs, ← runCalls_handleCode, hcalls]
  exact ⟨hw.trans ht.writeTermIdx, hstruct⟩

/-- A keyboard interrupt leaves the record of every other terminal as it is. -/
theorem keyboardHandler_others (ht : Tidy c) (status code : UInt8) :
    Tidy (c.keyboardHandler typing tpi status code) ∧ ∀ u, u ≠ c.curTerminal →
      (c.keyboardHandler typing tpi status code).terminalStruct u = c.terminalStruct u := by
  rcases keyCalls_cases typing c status code with hl | ⟨hs, hn⟩
  · have h := runCalls_onDisplayed tpi ht.writeTermIdx hl
    rw [runCalls_keyCalls] at h
    exact ⟨h.tidy ht, h.others⟩
  · obtain ⟨hw, hstruct⟩ := keyboardHandler_switch typing tpi ht hs hn
    refine ⟨⟨hw, fun u => ?_⟩, fun u hu => ?_⟩
    · rw [hstruct]
      by_cases hu : u = c.curTerminal
      · subst hu
        rw [Function.update_self]
        exact ht.bytes _
      · rw [Function.update_of_ne hu]
        exact ht.bytes u
    · rw [hstruct]
      exact Function.update_of_ne hu ..

theorem writeLoop_bytes (bytes : List UInt8) : ∀ {c : Console}, CursorBytes c →
    CursorBytes (bytes.foldl (fun d b => if b = 0 then d else d.putc b) c) := by
  induction bytes with
  | nil => intro c h; exact h
  | cons b bytes ih =>
    intro c h
    refine ih ?_
    show CursorBytes (if b = 0 then c else c.putc b)
    split
    · exact h
    · obtain ⟨x, y, hx, hy, hs⟩ := putc_placed c b
      exact h.placed (Nat.lt_trans hx (by decide)) (Nat.lt_trans hy (by decide)) hs

theorem terminalWrite_tidy (ht : Tidy c) (bytes : List UInt8) :
    Tidy (c.terminalWrite tpi bytes) := by
  refine ⟨rfl, writeLoop_bytes bytes ?_⟩
  split <;> exact ht.bytes

end Console

namespace Kernel

variable {k k' : Kernel}

theorem drawPointer_terminalStruct (k : Kernel) (status : UInt8) (x y : Nat) (paintFlag : Bool) :
    (k.drawPointer status x y paintFlag).con.terminalStruct = k.con.terminalStruct := by
  have hfold := fun (c : Console) (l : List (Nat × UInt8)) =>
    Console.foldl_terminalStruct (f := fun d p => d.poke (pointerCell p.1 0) p.2)
      (fun _ _ => rfl) l c
  simp only [drawPointer]
  split
  · split
    · exact hfold _ _
    · exact hfold _ _
  · split <;> rfl

theorem togglePaint_tidy (ht : k.con.Tidy) : k.togglePaint.1.con.Tidy := by
  have hclear : Console.OnDisplayed k.con k.con.clearScreen :=
    (Console.clearScreen_drawn k.con).onDisplayed ht.writeTermIdx (by decide) (by decide)
      (Console.clearScreen_placed k.con)
  have hflag : ∀ d : Console, d.Tidy → (d.setTerm d.curTerminal
      { d.terminalStruct d.curTerminal with enterFlag := true }).Tidy :=
    fun d hd => (Console.editLine_onDisplayed d fun s => { s with enterFlag := true }).tidy hd
  have hset := hflag _ (hclear.tidy ht)
  rw [hclear.curTerminal] at hset
  simp only [togglePaint]
  split
  · exact hset
  · exact hclear.tidy ht

theorem mouseHandler_tidy {p : Packet} (h : k.mouseHandler p = some k') (ht : k.con.Tidy) :
    k'.con.Tidy := by
  have hdraw : ∀ {k1 : Kernel} {status : UInt8} {x y : Nat} {flag : Bool}, k1.con.Tidy →
      (k1.drawPointer status x y flag).con.Tidy := by
    intro k1 status x y flag h1
    refine ⟨(drawPointer_drawn k1 status x y flag).writeTermIdx.trans h1.writeTermIdx, fun u => ?_⟩
    rw [drawPointer_terminalStruct]
    exact h1.bytes u
  rcases mouseHandler_cases h with rfl | ⟨k1, x, y, flag, rfl, _, ⟨_, hc⟩ | ⟨_, hc⟩⟩
  · exact ht
  · exact hdraw (hc ▸ ht)
  · exact hdraw (hc ▸ togglePaint_tidy ht)

end Kernel

namespace Machine

variable {img : Image} {m m' : Machine} {e : Event} {t : Term}

theorem step_tidy (h : step img m e = some m') (ht : m.kern.con.Tidy) : m'.kern.con.Tidy := by
  cases step_console h with
  | same _ heq => rwa [heq]
  | still _ heq => rwa [heq]
  | start _ _ heq => rwa [heq]
  | resume _ _ heq => rw [heq]; exact ⟨ht.writeTermIdx, ht.bytes⟩
  | typed heq => rw [heq]; exact (Console.keyboardHandler_others _ _ ht _ _).1
  | moved hm => exact Kernel.mouseHandler_tidy hm ht
  | wrote heq => rw [heq]; exact Console.terminalWrite_tidy _ ht _
  | mapped _ _ heq => rw [heq]; exact ⟨ht.writeTermIdx, ht.bytes⟩
  | @read p r buf ret shell _ _ heq =>
    obtain ⟨hX, hY⟩ := (m.kern.con.terminalStruct r.term).finishRead_cursor shell
    rw [heq]
    refine ⟨ht.writeTermIdx, fun u => ?_⟩
    obtain ⟨hx, hy⟩ := Console.setTerm_cursor hX hY u
    rw [hx, hy]
    exact ht.bytes u

theorem Boot.tidy (h : Boot m) : m.kern.con.Tidy := by
  refine ⟨h.writeTermIdx, fun t => ?_⟩
  rw [h.terminals t]
  exact ⟨by decide, by decide⟩

theorem reach_tidy (h : Reach (step img) Boot (fun _ _ => True) m) : m.kern.con.Tidy :=
  h.inv (I := fun m => m.kern.con.Tidy) (fun _ => Boot.tidy) fun _ _ _ ht _ hs => step_tidy hs ht

/-- What was typed on a terminal and what it remembers. -/
structure SameText (s s' : Terminal) : Prop where
  keyboardBuf : s'.keyboardBuf = s.keyboardBuf
  keyboardIdx : s'.keyboardIdx = s.keyboardIdx
  commandBuf : s'.commandBuf = s.commandBuf
  commandIdx : s'.commandIdx = s.commandIdx
  commandPos : s'.commandPos = s.commandPos

theorem SameText.refl (s : Terminal) : SameText s s := ⟨rfl, rfl, rfl, rfl, rfl⟩

theorem SameText.trans {s s' s'' : Terminal} (h1 : SameText s s') (h2 : SameText s' s'') :
    SameText s s'' where
  keyboardBuf := h2.keyboardBuf.trans h1.keyboardBuf
  keyboardIdx := h2.keyboardIdx.trans h1.keyboardIdx
  commandBuf := h2.commandBuf.trans h1.commandBuf
  commandIdx := h2.commandIdx.trans h1.commandIdx
  commandPos := h2.commandPos.trans h1.commandPos

/-- No key is typed on terminal `t`: another terminal is displayed, or the key switches the display.
And no `terminal_read` takes the line. -/
def Elsewhere (t : Term) (m : Machine) (e : Event) : Prop :=
  ¬ Completes m e t ∧ ∀ status code, e = .key status code → status = 0 ∨
    t ≠ m.kern.con.curTerminal ∨ m.kern.con.switchTarget code.toNat ≠ none

theorem step_sameText (ht : m.kern.con.Tidy) (he : Elsewhere t m e) (h : step img m e = some m') :
    SameText (m.kern.con.terminalStruct t) (m'.kern.con.terminalStruct t) := by
  have hline : ∀ {s s' : Terminal}, SameLine s s' → SameText s s' := fun h =>
    ⟨h.keyboardBuf, h.keyboardIdx, h.commandBuf, h.commandIdx, h.commandPos⟩
  by_cases hkey : ∃ status code, e = .key status code ∧ status ≠ 0 ∧ t = m.kern.con.curTerminal
  · obtain ⟨status, code, rfl, hs, rfl⟩ := hkey
    have hn := ((he.2 status code rfl).resolve_left hs).resolve_left (absurd rfl)
    cases step_cases h with
    | key heq =>
      rw [heq]
      show SameText _ ((m.kern.con.keyboardHandler m.kern.proc.typingMask
        m.kern.proc.terminalProcessIndex status code).terminalStruct m.kern.con.curTerminal)
      rw [(Console.keyboardHandler_switch _ _ ht hs hn).2, Function.update_self]
      exact ⟨rfl, rfl, rfl, rfl, rfl⟩
  · have hkind := step_line h t
    generalize m'.kern.con.terminalStruct t = s' at hkind
    cases hkind with
    | same hsame => exact hline hsame
    | @edited status code _ _ hs hcur => exact absurd ⟨status, code, rfl, hs, hcur⟩ hkey
    | clicked hsame =>
      exact ⟨hsame.keyboardBuf, hsame.keyboardIdx, hsame.commandBuf, hsame.commandIdx,
        hsame.commandPos⟩
    | taken shell hc => exact absurd hc he.1

/-- In every reachable state a keyboard interrupt leaves the whole record of every terminal that is
not displayed as it is, and Alt with a function key only clears the flag of the terminal that was
displayed; and over every run from there a terminal keeps its line and its history while nothing is
typed on it and nothing reads it. -/
theorem keys_reach_displayed (img : Image) (m : Machine)
    (h : Reach (step img) Boot (fun _ _ => True) m) :
    (∀ status code u, u ≠ m.kern.con.curTerminal →
      (key m.kern status code).con.terminalStruct u = m.kern.con.terminalStruct u) ∧
    (∀ status code, status ≠ 0 → m.kern.con.switchTarget code.toNat ≠ none →
      (key m.kern status code).con.terminalStruct =
        Function.update m.kern.con.terminalStruct m.kern.con.curTerminal
          (m.kern.con.terminalStruct m.kern.con.curTerminal).clearFlag) ∧
    ∀ t es m', Allowed (step img) (Elsewhere t) m es → run (step img) m es = some m' →
      SameText (m.kern.con.terminalStruct t) (m'.kern.con.terminalStruct t) := by
  have ht := reach_tidy h
  refine ⟨fun status code => (Console.keyboardHandler_others _ _ ht status code).2,
    fun status code hs hn => (Console.keyboardHandler_switch _ _ ht hs hn).2, ?_⟩
  intro t es m' ha hr
  refine (EventSystem.run_inv (I := fun m1 => m1.kern.con.Tidy ∧
    SameText (m.kern.con.terminalStruct t) (m1.kern.con.terminalStruct t)) ?_
    ⟨ht, .refl _⟩ ha hr).2
  rintro m1 e m2 ⟨ht1, hsame⟩ he hs
  exact ⟨step_tidy hs ht1, hsame.trans (step_sameText ht1 he hs)⟩

/-- `a` is typed on the first terminal; then the second one is displayed, and a key there leaves the
record of the first one as it is. -/
theorem keys_reach_displayed_second : ∃ m : Machine, m.kern.con.curTerminal = 1 ∧
    (m.kern.con.terminalStruct 0).keyboardIdx = 1 ∧
    (key m.kern 1 0x30).con.terminalStruct 0 = m.kern.con.terminalStruct 0 := by
  have hrun : (run (step disk) booted [.key 1 0x1E, .key 1 0x38, .key 1 0x3C]).map (fun m =>
      (m.kern.con.curTerminal, (m.kern.con.terminalStruct 0).keyboardIdx)) = some (1, 1) := by
    decide +kernel
  obtain ⟨m, hm, hp⟩ := Option.map_eq_some_iff.mp hrun
  obtain ⟨hcur, hidx⟩ := Prod.mk.inj hp
  have hreach : Reach (step disk) Boot (fun _ _ => True) m :=
    Reach.of_any (.init boot_booted) hm
  refine ⟨m, hcur, hidx, (keys_reach_displayed disk m hreach).1 1 0x30 0 ?_⟩
  rw [hcur]
  decide

end Machine
end DeviceOS
