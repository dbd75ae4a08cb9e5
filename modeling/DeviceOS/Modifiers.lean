import DeviceOS.LineEditor

/-!
# DeviceOS.Modifiers

`SHFT_PRESS`, `LCTRL_PRESS` and `ALT_PRESS` against the keys that are held down.

* `Modifier.held`: whether a key is held, from the scan codes that the handler has read.
* `modifiers_follow_keys`: control and alt are followed. The two shift keys share one flag, which
  the release of either clears, so it follows them until one is released while the other is held.
-/

namespace DeviceOS

open EventSystem (run withHistory)

namespace Console

variable (typing : Term → Bool) (tpi : Option Term)

/-- The three flags that say a key is held. -/
def pressed (c : Console) : Bool × Bool × Bool := (c.shftPress, c.lctrlPress, c.altPress)

@[simp] theorem setTerm_pressed (c : Console) (t : Term) (s : Terminal) :
    (c.setTerm t s).pressed = c.pressed := rfl

@[simp] theorem poke_pressed (c : Console) (a : Nat) (b : UInt8) :
    (c.poke a b).pressed = c.pressed := rfl

@[simp] theorem updateTermStruct_pressed (c : Console) (x y : Nat) :
    (c.updateTermStruct x y).pressed = c.pressed := rfl

@[simp] theorem setCursor_pressed (c : Console) (x y : Nat) :
    (c.setCursor x y).pressed = c.pressed := by
  unfold setCursor
  dsimp only
  split <;> rfl

theorem putCell_pressed (c : Console) (i : Nat) (ch attr : UInt8) :
    (c.putCell i ch attr).pressed = c.pressed := rfl

theorem copyCell_pressed (c : Console) (i j : Nat) : (c.copyCell i j).pressed = c.pressed := rfl

theorem foldl_pressed {α : Type} {f : Console → α → Console}
    (hf : ∀ c a, (f c a).pressed = c.pressed) (l : List α) :
    ∀ c : Console, (l.foldl f c).pressed = c.pressed := by
  induction l with
  | nil => intro c; rfl
  | cons a l ih => intro c; exact (ih (f c a)).trans (hf c a)

@[simp] theorem shiftScreen_pressed (c : Console) : c.shiftScreen.pressed = c.pressed := by
  simp only [shiftScreen, setCursor_pressed]
  refine (foldl_pressed (fun d i => ?_) _ _).trans (foldl_pressed (fun d i => ?_) _ c)
  · exact putCell_pressed d _ 32 _
  · exact copyCell_pressed d i _

@[simp] theorem putc_pressed (c : Console) (ch : UInt8) : (c.putc ch).pressed = c.pressed := by
  simp only [putc, advance]
  split
  · split <;> simp
  · split
    · split <;> simp [putCell_pressed]
    · simp [putCell_pressed]

@[simp] theorem puts_pressed (c : Console) (row : Nat → UInt8) :
    (c.puts row).pressed = c.pressed :=
  foldl_pressed putc_pressed _ c

@[simp] theorem clearScreen_pressed (c : Console) : c.clearScreen.pressed = c.pressed := by
  simp only [clearScreen, setCursor_pressed]
  exact foldl_pressed (fun d i => putCell_pressed d i 32 _) _ c

@[simp] theorem switchTerminal_pressed (c : Console) (keycode : Nat) :
    (c.switchTerminal tpi keycode).pressed = c.pressed := by
  simp only [switchTerminal]
  split
  · rw [setCursor_pressed]
    split <;> rfl
  · rfl

theorem terminalWrite_pressed (c : Console) (bytes : List UInt8) :
    (c.terminalWrite tpi bytes).pressed = c.pressed := by
  have hputs := foldl_pressed (f := fun d b => if b = 0 then d else d.putc b) (fun d b => by
      split
      · rfl
      · exact putc_pressed d b) bytes
    (if tpi ≠ some c.curTerminal then { c with writeTermIdx := tpi } else c)
  refine Eq.trans hputs ?_
  split <;> rfl

/-! ## The keyboard -/

theorem writeKeyboardChar_pressed (c : Console) (code kidx : Nat) (kbuf : Nat → UInt8) :
    (c.writeKeyboardChar typing tpi code kidx kbuf).pressed = c.pressed := by
  simp only [writeKeyboardChar]
  split
  · exact switchTerminal_pressed tpi c code
  · split
    · simp
    · rfl

theorem backspace_pressed (c : Console) (t : Term) (x y kidx : Nat) (kbuf : Nat → UInt8) :
    (c.backspace t x y kidx kbuf).pressed = c.pressed := by
  simp only [backspace]
  split
  · simp
  · rfl

theorem redraw_pressed (c : Console) (t : Term) (x y erase pos : Nat) :
    (c.redraw t x y erase pos).pressed = c.pressed := by
  have hblanks := foldl_pressed (f := fun (d : Console) (_ : Nat) => d.putc 32)
    (fun d _ => putc_pressed d 32) (List.range erase) (c.setCursor (u8 (x - erase)) y)
  simp only [redraw, setTerm_pressed, puts_pressed, setCursor_pressed]
  rw [hblanks, setCursor_pressed]

theorem upArrow_pressed (c : Console) (t : Term) (x y : Nat) :
    (c.upArrow typing t x y).pressed = c.pressed := by
  simp only [upArrow]
  split
  · rfl
  · split
    · rfl
    · split
      · rfl
      · rw [redraw_pressed, setTerm_pressed]

theorem downArrow_pressed (c : Console) (t : Term) (x y : Nat) :
    (c.downArrow typing t x y).pressed = c.pressed := by
  simp only [downArrow]
  split
  · rfl
  · split
    · rfl
    · rw [redraw_pressed, setTerm_pressed]

theorem enterKey_pressed (c : Console) (t : Term) (y : Nat) :
    (c.enterKey typing t y).pressed = c.pressed := by
  simp only [enterKey]
  split
  · rfl
  · rw [setTerm_pressed]
    split <;> simp

/-- The three flags after a scan code. -/
def pressedAfter (code : Nat) (p : Bool × Bool × Bool) : Bool × Bool × Bool :=
  if code = 0x2A ∨ code = 0x36 then (true, p.2)
  else if code = 0xAA ∨ code = 0xB6 then (false, p.2)
  else if code = 0x1D then (p.1, true, p.2.2)
  else if code = 0x9D then (p.1, false, p.2.2)
  else if code = 0x38 then (p.1, p.2.1, true)
  else if code = 0xB8 then (p.1, p.2.1, false)
  else p

theorem handleCode_pressed (c : Console) (code : Nat) (t : Term) (x y kidx : Nat)
    (kbuf : Nat → UInt8) :
    (c.handleCode typing tpi code t x y kidx kbuf).pressed = pressedAfter code c.pressed := by
  unfold handleCode
  split
  · exact backspace_pressed c t x y kidx kbuf
  · simp [pressedAfter]
  · rfl
  · rfl
  · rfl
  · rfl
  · rfl
  · rfl
  · rfl
  · rfl
  · rfl
  · rfl
  · exact enterKey_pressed typing c t y
  · exact upArrow_pressed typing c t x y
  · exact downArrow_pressed typing c t x y
  · split
    · exact clearScreen_pressed c
    · exact writeKeyboardChar_pressed typing tpi c _ kidx kbuf
  · refine (writeKeyboardChar_pressed typing tpi c _ kidx kbuf).trans ?_
    unfold pressedAfter
    grind

theorem keyboardHandler_pressed (c : Console) {status : UInt8} (hs : status ≠ 0) (code : UInt8) :
    (c.keyboardHandler typing tpi status code).pressed = pressedAfter code.toNat c.pressed := by
  rw [keyboardHandler_eq typing tpi c hs]
  exact handleCode_pressed typing tpi c.keyStart code.toNat _ _ _ _ _

end Console

/-! ## The mouse -/

theorem Kernel.drawPointer_pressed (k : Kernel) (status : UInt8) (x y : Nat) (paintFlag : Bool) :
    (k.drawPointer status x y paintFlag).con.pressed = k.con.pressed := by
  have hpaint := fun (c : Console) (l : List (Nat × UInt8)) =>
    Console.foldl_pressed (fun d (p : Nat × UInt8) => d.poke_pressed (pointerCell p.1 0) p.2) l c
  have hback : ∀ (c : Console) (p : Nat), Console.pressed { c with vidmemPage := p } = c.pressed :=
    fun _ _ => rfl
  simp only [drawPointer, hback]
  split
  · rw [hpaint]
    split <;> rfl
  · split <;> rfl

theorem Kernel.togglePaint_pressed (k : Kernel) : k.togglePaint.1.con.pressed = k.con.pressed := by
  simp only [togglePaint]
  split
  · rw [Console.setTerm_pressed, Console.clearScreen_pressed]
  · exact Console.clearScreen_pressed k.con

theorem Kernel.mouseHandler_pressed {k k' : Kernel} {p : Packet} (h : k.mouseHandler p = some k') :
    k'.con.pressed = k.con.pressed := by
  rcases mouseHandler_cases h with rfl | ⟨k1, x, y, flag, rfl, _, ⟨_, hc⟩ | ⟨_, hc⟩⟩
  · rfl
  · rw [drawPointer_pressed, hc]
  · rw [drawPointer_pressed, hc, togglePaint_pressed]

/-! ## Keys -/

/-- The four keys that set a flag while they are held. -/
inductive Modifier where
  | lshift | rshift | lctrl | lalt
  deriving DecidableEq

namespace Modifier

def make : Modifier → Nat
  | lshift => 0x2A
  | rshift => 0x36
  | lctrl => 0x1D
  | lalt => 0x38

def release : Modifier → Nat
  | lshift => 0xAA
  | rshift => 0xB6
  | lctrl => 0x9D
  | lalt => 0xB8

/-- The key is held after `codes`, the scan codes so far with the last one first: of its two codes
the make code came last. -/
def held (k : Modifier) : List Nat → Bool
  | [] => false
  | code :: past => if code = k.make then true else if code = k.release then false else k.held past

end Modifier

open Modifier (lshift rshift lctrl lalt)

/-- Of the four codes of the shift keys, a make code came last. -/
def shiftMade : List Nat → Bool
  | [] => false
  | code :: past =>
    if code = lshift.make ∨ code = rshift.make then true
    else if code = lshift.release ∨ code = rshift.release then false
    else shiftMade past

/-- Every release is of a key that is held. -/
def Alternate : List Nat → Prop
  | [] => True
  | code :: past => (∀ k : Modifier, code = k.release → k.held past = true) ∧ Alternate past

/-- No shift key is released while the other one is held. -/
def ShiftsApart : List Nat → Prop
  | [] => True
  | code :: past =>
    (code = lshift.release → rshift.held past = false) ∧
      (code = rshift.release → lshift.held past = false) ∧ ShiftsApart past

theorem shiftMade_held (codes : List Nat) (h : shiftMade codes = true) :
    lshift.held codes = true ∨ rshift.held codes = true := by
  induction codes with
  | nil => cases h
  | cons code past ih =>
    simp only [shiftMade, Modifier.held, Modifier.make, Modifier.release] at h ih ⊢
    grind

theorem ShiftsApart.shiftMade {codes : List Nat} (h : ShiftsApart codes) :
    shiftMade codes = true ↔ lshift.held codes = true ∨ rshift.held codes = true := by
  induction codes with
  | nil => simp [DeviceOS.shiftMade, Modifier.held]
  | cons code past ih =>
    have hpast := ih h.2.2
    simp only [ShiftsApart, DeviceOS.shiftMade, Modifier.held, Modifier.make,
      Modifier.release] at h hpast ⊢
    grind

/-- The release that is not apart is where the flag and the keys part. -/
theorem shiftsApart_iff (codes : List Nat) :
    (∀ past, past <:+ codes →
      (shiftMade past = true ↔ lshift.held past = true ∨ rshift.held past = true)) ↔
      ShiftsApart codes := by
  constructor
  · intro h
    induction codes with
    | nil => trivial
    | cons code past ih =>
      have hlast := h (code :: past) (List.suffix_refl _)
      have hpast := ih fun l hl => h l (hl.trans (List.suffix_cons code past))
      simp only [ShiftsApart, shiftMade, Modifier.held, Modifier.make,
        Modifier.release] at hlast hpast ⊢
      grind
  · intro h past hp
    induction codes with
    | nil =>
      rw [List.suffix_nil.mp hp]
      exact ShiftsApart.shiftMade trivial
    | cons code codes ih =>
      rcases List.suffix_cons_iff.mp hp with rfl | hp
      · exact h.shiftMade
      · exact ih h.2.2 hp

namespace Machine

variable {img : Image} {m m' : Machine} {e : Event}

/-- Every event but a keyboard interrupt keeps the three flags. -/
theorem step_pressed (h : step img m e = some m') :
    (∃ status code, e = .key status code ∧ status ≠ 0 ∧
      m'.kern.con.pressed = Console.pressedAfter code.toNat m.kern.con.pressed) ∨
    (∀ status code, e = .key status code → status = 0) ∧
      m'.kern.con.pressed = m.kern.con.pressed := by
  cases step_console h with
  | same hspare heq =>
    refine Or.inr ⟨?_, by rw [heq]⟩
    rintro status code rfl
    exact hspare.elim
  | still _ heq => exact Or.inr ⟨fun _ _ he => (by cases he), by rw [heq]⟩
  | start _ _ heq => exact Or.inr ⟨fun _ _ he => (by cases he), by rw [heq]⟩
  | resume _ _ heq => exact Or.inr ⟨fun _ _ he => (by cases he), by rw [heq]; rfl⟩
  | @typed status code heq =>
    subst heq
    by_cases hs : status = 0
    · subst hs
      refine Or.inr ⟨?_, rfl⟩
      intro _ _ he
      cases he
      rfl
    · exact Or.inl ⟨status, code, rfl, hs, Console.keyboardHandler_pressed _ _ _ hs code⟩
  | moved hm => exact Or.inr ⟨fun _ _ he => (by cases he), Kernel.mouseHandler_pressed hm⟩
  | wrote heq =>
    exact Or.inr ⟨fun _ _ he => (by cases he), by rw [heq, Console.terminalWrite_pressed]⟩
  | mapped _ _ heq => exact Or.inr ⟨fun _ _ he => (by cases he), by rw [heq]; rfl⟩
  | read _ _ heq => exact Or.inr ⟨fun _ _ he => (by cases he), by rw [heq]; rfl⟩

/-- The scan codes that the handler has read, the last one first. -/
def recordCode (_ : Machine) (e : Event) (codes : List Nat) : List Nat :=
  match e with
  | .key status code => if status = 0 then codes else code.toNat :: codes
  | _ => codes

/-- The machine with the scan codes that its keyboard handler has read. -/
def codesStep (img : Image) : Machine × List Nat → Event → Option (Machine × List Nat) :=
  withHistory (step img) recordCode

/-- The flags after `codes`. `throughout` is about the codes up to any moment. -/
structure FollowsKeys (c : Console) (codes : List Nat) : Prop where
  lctrl : c.lctrlPress = true ↔ lctrl.held codes = true
  alt : c.altPress = true ↔ lalt.held codes = true
  shft : c.shftPress = true ↔ shiftMade codes = true
  someShift : c.shftPress = true → lshift.held codes = true ∨ rshift.held codes = true
  apart : ShiftsApart codes →
    (c.shftPress = true ↔ lshift.held codes = true ∨ rshift.held codes = true)
  throughout : ShiftsApart codes ↔ ∀ past, past <:+ codes →
    (shiftMade past = true ↔ lshift.held past = true ∨ rshift.held past = true)

theorem pressed_step {s s' : Machine × List Nat}
    (h : s.1.kern.con.pressed = (shiftMade s.2, lctrl.held s.2, lalt.held s.2))
    (hs : codesStep img s e = some s') :
    s'.1.kern.con.pressed = (shiftMade s'.2, lctrl.held s'.2, lalt.held s'.2) := by
  obtain ⟨m, codes⟩ := s
  obtain ⟨m', codes'⟩ := s'
  obtain ⟨hm, rfl⟩ := EventSystem.withHistory_eq_some.mp hs
  simp only at h hm ⊢
  rcases step_pressed hm with ⟨status, code, rfl, hst, hp⟩ | ⟨hkey, hp⟩
  · rw [hp, h]
    simp only [recordCode, if_neg hst, Console.pressedAfter, shiftMade, Modifier.held,
      Modifier.make, Modifier.release]
    grind
  · have hrec : recordCode m e codes = codes := by
      cases e with
      | key status code => simp only [recordCode, if_pos (hkey status code rfl)]
      | _ => rfl
    rw [hp, h, hrec]

/-- In every run that begins with nothing held, after every scan code: the flags of control and alt
say whether the key is held. The flag of the shift keys says whether the last of their codes was a
make code; that is whether one of them is held, until one is released while the other is held. -/
theorem modifiers_follow_keys (img : Image) (m : Machine) (hs : m.kern.con.shftPress = false)
    (hl : m.kern.con.lctrlPress = false) (ha : m.kern.con.altPress = false) (es : List Event)
    (s : Machine × List Nat) (h : run (codesStep img) (m, []) es = some s) :
    FollowsKeys s.1.kern.con s.2 := by
  have hflags : s.1.kern.con.pressed = (shiftMade s.2, lctrl.held s.2, lalt.held s.2) := by
    have hallowed : EventSystem.Allowed (codesStep img) (fun _ _ => True) (m, []) es :=
      EventSystem.Allowed.of_forall (fun _ _ _ => trivial) _
    refine EventSystem.run_inv
      (I := fun s => s.1.kern.con.pressed = (shiftMade s.2, lctrl.held s.2, lalt.held s.2))
      (fun _ _ _ hi _ hstep => pressed_step hi hstep) ?_ hallowed h
    simp only [Console.pressed, hs, hl, ha]
    rfl
  simp only [Console.pressed, Prod.mk.injEq] at hflags
  obtain ⟨h1, h2, h3⟩ := hflags
  refine ⟨by rw [h2], by rw [h3], by rw [h1], ?_, ?_, (shiftsApart_iff s.2).symm⟩
  · rw [h1]
    exact shiftMade_held s.2
  · rw [h1]
    exact fun hapart => hapart.shiftMade

/-- Left shift (with a repeat), right shift, a letter, and left shift released. -/
def twoShifts : List Event :=
  [.tick 0 0, .key 1 0x2A, .key 1 0x2A, .key 1 0x36, .key 1 0x1E, .key 1 0xAA]

theorem modifiers_follow_keys_two : ∃ s : Machine × List Nat,
    s.2 = [0xAA, 0x1E, 0x36, 0x2A, 0x2A] ∧ FollowsKeys s.1.kern.con s.2 := by
  have hrun : (run (codesStep disk) (booted, []) twoShifts).map Prod.snd =
      some [0xAA, 0x1E, 0x36, 0x2A, 0x2A] := by
    decide +kernel
  obtain ⟨s, hs, hcodes⟩ := Option.map_eq_some_iff.mp hrun
  exact ⟨s, hcodes, modifiers_follow_keys disk booted rfl rfl rfl twoShifts s hs⟩

/-- Right shift is still held, and its flag is clear. -/
theorem shift_released_while_other_held :
    ¬ ∀ (img : Image) (m : Machine), m.kern.con.pressed = (false, false, false) →
      ∀ (es : List Event) (s : Machine × List Nat), run (codesStep img) (m, []) es = some s →
        Alternate s.2 → (s.1.kern.con.shftPress = true ↔
          lshift.held s.2 = true ∨ rshift.held s.2 = true) := by
  intro h
  have hrun : (run (codesStep disk) (booted, []) twoShifts).map
      (fun s => (s.1.kern.con.shftPress, s.2)) = some (false, [0xAA, 0x1E, 0x36, 0x2A, 0x2A]) := by
    decide +kernel
  obtain ⟨s, hs, hout⟩ := Option.map_eq_some_iff.mp hrun
  simp only [Prod.mk.injEq] at hout
  obtain ⟨hflag, hcodes⟩ := hout
  have halt : Alternate s.2 := by
    rw [hcodes]
    refine ⟨fun k hk => ?_, fun k hk => ?_, fun k hk => ?_, fun k hk => ?_, fun k hk => ?_, trivial⟩
    all_goals cases k <;> first | rfl | cases hk
  have hclaim := (h disk booted rfl twoShifts s hs halt).mpr (by rw [hcodes]; exact Or.inr rfl)
  rw [hflag] at hclaim
  cases hclaim

end Machine
end DeviceOS
