import DeviceOS.PointerOverlay

/-!
# DeviceOS.MousePointer

The run with the mouse and the run without it.

`mouse_handler` puts the pointer on the screen as a character, and keeps the one that was there in
`prev_char`. Nothing else knows of it: output, scrolling and a display switch treat the pointer as
text, and `prev_char` stays.

* `Transparent`: without the pointer the screen is that of the run without packets, and so are the
  saved pages of the terminals that are not displayed.
* `Harmless`: a step that does not disturb the cell under the pointer.
* `pointer_is_transparent`: runs of such steps.
-/

namespace DeviceOS

open EventSystem (Allowed Reach run run_cons withHistory withHistory_eq_some)
open Overlays (Agrees Overlay)

/-- None of the three buttons is pressed. -/
def Packet.Buttonless (p : Packet) : Prop := p.status &&& 7 = 0

/-- The character that the next packet puts back. -/
def Mouse.restored (mo : Mouse) : UInt8 := if mo.prevChar = 0 then 83 else mo.prevChar

namespace Kernel

variable {k k' : Kernel}

def pointerAt (k : Kernel) : Nat := pointerCell k.mouse.mouseX k.mouse.mouseY

/-- What the pointer covers, once it is on the screen. -/
def covered (k : Kernel) (drawn : Bool) : Option UInt8 :=
  if drawn then some k.mouse.prevChar else none

/-- `mouse_handler` returns early. -/
def drops (k : Kernel) (p : Packet) : Bool :=
  p.status &&& 0xC0 ≠ 0 ||
    (!k.proc.typingMask k.con.curTerminal && !k.mouse.paint k.con.curTerminal)

/-- The bytes that a `write` hands to `terminal_write`. -/
def output (k : Kernel) (fd : Int) (buf : Option (Nat → UInt8)) (nbytes : Int) :
    Option (List UInt8) :=
  k.currPid.bind fun q =>
    match fdOf fd, buf with
    | some w, some b =>
      let e := (k.proc.pcb q).fdarray w
      if k.proc.pcbArray q = false ∨ nbytes < 0 ∨ e.flags = false then none
      else if e.fopsPtr = some .write then some ((List.range nbytes.toNat).map b)
      else none
    | _, _ => none

/-- What a `write` draws on the console `c`. -/
def drawOutput (k : Kernel) (fd : Int) (buf : Option (Nat → UInt8)) (nbytes : Int) (c : Console) :
    Console :=
  match k.output fd buf nbytes with
  | some bytes => c.terminalWrite k.proc.terminalProcessIndex bytes
  | none => c

theorem write_withCon (k : Kernel) (fd : Int) (buf : Option (Nat → UInt8)) (nbytes : Int)
    (c : Console) (mo : Mouse) : ({ k with con := c, mouse := mo } : Kernel).write fd buf nbytes =
      (k.write fd buf nbytes).map fun r =>
        (r.1, { r.2 with con := k.drawOutput fd buf nbytes c, mouse := mo }) := by
  have hq : ({ k with con := c, mouse := mo } : Kernel).currPid = k.currPid := rfl
  unfold write drawOutput output
  rw [hq]
  cases k.currPid with
  | none => rfl
  | some q =>
    cases fdOf fd with
    | none => rfl
    | some w =>
      cases buf with
      | none => rfl
      | some b =>
        simp only [Option.bind_some]
        split
        · rfl
        · cases ((k.proc.pcb q).fdarray w).fopsPtr with
          | none => rfl
          | some ops => cases ops <;> rfl

theorem write_draws {fd nbytes : Int} {buf : Option (Nat → UInt8)} {r : Reply}
    (h : k.write fd buf nbytes = some (r, k')) :
    k'.con = k.drawOutput fd buf nbytes k.con ∧ k'.mouse = k.mouse := by
  have hself := k.write_withCon fd buf nbytes k.con k.mouse
  have hk : ({ k with con := k.con, mouse := k.mouse } : Kernel) = k := rfl
  rw [hk, h, Option.map_some, Option.some.injEq, Prod.mk.injEq] at hself
  have hcon := congrArg Kernel.con hself.2
  have hmouse := congrArg Kernel.mouse hself.2
  exact ⟨hcon, hmouse⟩

/-! ## A packet -/

theorem moveTo_le (old : Nat) (rel : Int) (limit : Nat) : moveTo old rel limit ≤ limit := by
  unfold moveTo
  dsimp only
  split
  · omega
  · split
    · omega
    · omega

theorem pointerCell_onScreen {x y : Nat} (hx : x < 80) (hy : y < 25) :
    Console.OnScreen (pointerCell x y) := by
  refine ⟨Console.numCols * y + x, ?_, rfl⟩
  simp only [Console.numRows, Console.numCols]
  omega

/-- What a packet does that is not dropped: the old cell gets back the character that it had, and
the pointer is drawn in the new one. -/
structure Moved (k k' : Kernel) : Prop where
  proc : k'.proc = k.proc
  rtc : k'.rtc = k.rtc
  con : k'.con = k.con.withVram (Function.update (Function.update k.con.vram k.pointerAt
    k.mouse.restored) k'.pointerAt 0xDB)
  prevChar : k'.mouse.prevChar =
    Function.update k.con.vram k.pointerAt k.mouse.restored k'.pointerAt
  paint : k'.mouse.paint = k.mouse.paint
  inside : k'.mouse.mouseX < 80 ∧ k'.mouse.mouseY < 25

theorem drawPointer_moved (k : Kernel) (hoff : ∀ t, k.mouse.paint t = false) (status : UInt8)
    {x y : Nat} (hx : x < 80) (hy : y < 25) : Moved k (k.drawPointer status x y false) := by
  have hpaint : ¬ (k.mouse.paint k.con.curTerminal = true ∧ status &&& 1 ≠ 0) := by
    rw [hoff]
    simp
  have hpoke : ∀ d : Console, d.vidmemPage = vidmemIndex → ∀ a b,
      d.poke a b = d.withVram (Function.update d.vram a b) := by
    intro d hd a b
    simp only [Console.poke, Console.phys_identity hd]
  simp only [drawPointer, if_neg hpaint, Bool.false_eq_true, if_false]
  rw [hpoke { k.con with vidmemPage := vidmemIndex } rfl, hpoke _ rfl, Console.peek,
    Console.phys_identity rfl]
  exact ⟨rfl, rfl, rfl, rfl, rfl, hx, hy⟩

theorem mouseHandler_moved {p : Packet} (h : k.mouseHandler p = some k') (hp : p.Buttonless)
    (hoff : ∀ t, k.mouse.paint t = false) : if k.drops p then k' = k else Moved k k' := by
  have hright : p.status &&& 2 = 0 := by
    calc p.status &&& 2 = (p.status &&& 7) &&& 2 := by rw [UInt8.and_assoc]; rfl
      _ = 0 := by rw [hp]; rfl
  simp only [mouseHandler, rightButton, if_pos hright, Option.map_some] at h
  by_cases hbits : p.status &&& 0xC0 = 0
  · rw [if_neg (by simp [hbits])] at h
    by_cases htyping : k.proc.typingMask k.con.curTerminal = false
    · have hdrop : k.drops p = true := by simp [drops, htyping, hoff]
      rw [if_pos ⟨htyping, hoff _⟩] at h
      cases h
      rw [if_pos hdrop]
    · have hkeep : ¬ k.drops p = true := by simp [drops, hbits, htyping]
      rw [if_neg fun hc => htyping hc.1] at h
      cases h
      rw [if_neg hkeep]
      have hmoved := drawPointer_moved
        { k with mouse := { k.mouse with rightClick := false } } hoff p.status
        (Nat.lt_succ_of_le (moveTo_le k.mouse.mouseX (relative p.status 0x10 p.deltaX) 79))
        (Nat.lt_succ_of_le (moveTo_le k.mouse.mouseY (-relative p.status 0x20 p.deltaY) 24))
      exact ⟨hmoved.proc, hmoved.rtc, hmoved.con, hmoved.prevChar, hmoved.paint, hmoved.inside⟩
  · have hdrop : k.drops p = true := by simp [drops, hbits]
    rw [if_pos hbits] at h
    cases h
    rw [if_pos hdrop]

end Kernel

namespace Machine

variable {img : Image} {m m' : Machine} {e : Event}

/-! ## Two runs -/

/-- Whether the pointer has been put on the screen. -/
def pointerStep (img : Image) : Machine × Bool → Event → Option (Machine × Bool) :=
  withHistory (step img) fun m e drawn =>
    match e with
    | .mouse p => drawn || !m.kern.drops p
    | _ => drawn

def isMouse : Event → Bool
  | .mouse _ => true
  | _ => false

/-- The screen of `m`, with the character that the pointer covers in its cell, is the screen of
`m'`. The saved pages of the terminals that are not displayed are the same, and so is everything
but text pages and mouse. -/
structure Transparent (m : Machine) (drawn : Bool) (m' : Machine) : Prop where
  screen : ∀ i < 2000, m'.kern.con.vram (0xB8000 + 2 * i) =
    if drawn = true ∧ 0xB8000 + 2 * i = m.kern.pointerAt then m.kern.mouse.prevChar
    else m.kern.con.vram (0xB8000 + 2 * i)
  saved : ∀ t, t ≠ m.kern.con.curTerminal → ∀ i < 0x1000,
    m'.kern.con.vram (Console.vmemTerm t + i) = m.kern.con.vram (Console.vmemTerm t + i)
  same : ∃ v mo, m' = m.withScreen v mo

/-- The step leaves the cell under the pointer alone, or stores there what the pointer covers; and a
packet puts back what the screen shows without the pointer. -/
def Harmless (s : Machine × Bool) : Event → Prop
  | .mouse p => s.1.kern.drops p = true ∨
      (s.1.kern.covered s.2).getD (s.1.kern.con.vram s.1.kern.pointerAt) = s.1.kern.mouse.restored
  | .key status code => Console.CallsKeep s.1.kern.proc.terminalProcessIndex s.1.kern.pointerAt
      (s.1.kern.covered s.2) (s.1.kern.con.keyCalls s.1.kern.proc.typingMask status code) s.1.kern.con
  | .write fd buf nbytes => ∀ bytes, s.1.kern.output fd buf nbytes = some bytes →
      Console.CallsKeep s.1.kern.proc.terminalProcessIndex s.1.kern.pointerAt
        (s.1.kern.covered s.2) (Console.writeCalls s.1.kern.proc.terminalProcessIndex s.1.kern.con
          bytes) s.1.kern.con
  | _ => True

instance (s : Machine × Bool) : ∀ e : Event, Decidable (Harmless s e)
  | .mouse p => inferInstanceAs (Decidable (s.1.kern.drops p = true ∨
      (s.1.kern.covered s.2).getD (s.1.kern.con.vram s.1.kern.pointerAt) = s.1.kern.mouse.restored))
  | .key status code => inferInstanceAs (Decidable (Console.CallsKeep
      s.1.kern.proc.terminalProcessIndex s.1.kern.pointerAt (s.1.kern.covered s.2)
      (s.1.kern.con.keyCalls s.1.kern.proc.typingMask status code) s.1.kern.con))
  | .write fd buf nbytes => inferInstanceAs (Decidable (∀ bytes ∈ s.1.kern.output fd buf nbytes,
      Console.CallsKeep s.1.kern.proc.terminalProcessIndex s.1.kern.pointerAt
        (s.1.kern.covered s.2) (Console.writeCalls s.1.kern.proc.terminalProcessIndex s.1.kern.con
          bytes) s.1.kern.con))
  | .tick _ _ | .rtc | .go | .execute _ _ _ | .halt _ | .haltCall _ | .read _ _ _ | .open' _
  | .close _ | .getargs _ _ | .vidmap _ | .setHandler | .sigreturn => isTrue trivial

/-- The invariant: the machine, and the machine of the run without packets. -/
structure Matched (s : Machine × Bool) (m' : Machine) : Prop where
  paint : ∀ t, s.1.kern.mouse.paint t = false
  inside : s.1.kern.mouse.mouseX < 80 ∧ s.1.kern.mouse.mouseY < 25
  overlay : ∃ v mo, m' = s.1.withScreen v mo ∧ Overlay s.1.kern.pointerAt (s.1.kern.covered s.2)
    (Console.Saved s.1.kern.con.curTerminal) s.1.kern.con.vram v

theorem Matched.onScreen {s : Machine × Bool} (h : Matched s m') :
    Console.OnScreen s.1.kern.pointerAt :=
  Kernel.pointerCell_onScreen h.inside.1 h.inside.2

theorem Matched.overlaid {s : Machine × Bool} (h : Matched s m') :
    ∃ v mo, m' = s.1.withScreen v mo ∧ Console.Overlaid s.1.kern.pointerAt (s.1.kern.covered s.2)
      s.1.kern.con (s.1.kern.con.withVram v) := by
  obtain ⟨v, mo, rfl, hov⟩ := h.overlay
  exact ⟨v, mo, rfl, v, rfl, hov⟩

theorem Matched.transparent {s : Machine × Bool} (h : Matched s m') : Transparent s.1 s.2 m' := by
  have hon := h.onScreen
  obtain ⟨v, mo, rfl, hov⟩ := h.overlay
  refine ⟨fun i hi => ?_, fun t ht i hi => ?_, v, mo, rfl⟩
  · have hsaved : ¬ Console.Saved s.1.kern.con.curTerminal (0xB8000 + 2 * i) := by
      simp only [Console.Saved, Console.vmemTerm]
      omega
    change v (0xB8000 + 2 * i) = _
    by_cases hp : 0xB8000 + 2 * i = s.1.kern.pointerAt
    · rw [hp, hov.cell]
      unfold Kernel.covered
      cases s.2 with
      | true => simp
      | false => simp
    · rw [if_neg fun hc => hp hc.2]
      exact hov.apart _ hp hsaved
  · have hne := Fin.val_ne_of_ne ht
    obtain ⟨j, hj, heq⟩ := hon
    simp only [Console.numRows, Console.numCols, Console.video] at hj heq
    change v (Console.vmemTerm t + i) = _
    refine hov.apart _ ?_ ?_
    · rw [heq]
      simp only [Console.vmemTerm]
      omega
    · simp only [Console.Saved, Console.vmemTerm]
      omega

theorem Matched.init (hoff : ∀ t, m.kern.mouse.paint t = false)
    (hx : m.kern.mouse.mouseX < 80) (hy : m.kern.mouse.mouseY < 25) : Matched (m, false) m := by
  have hon : Console.OnScreen m.kern.pointerAt := Kernel.pointerCell_onScreen hx hy
  exact ⟨hoff, ⟨hx, hy⟩, m.kern.con.vram, m.kern.mouse, rfl, .refl _ (hon.not_saved _)⟩

/-- A packet: the run without packets stays where it is. -/
theorem Matched.packet {s s' : Machine × Bool} (h : Matched s m') {p : Packet} (hp : p.Buttonless)
    (hk : Harmless s (.mouse p)) (hs : pointerStep img s (.mouse p) = some s') : Matched s' m' := by
  obtain ⟨hstep, hdrawn⟩ := withHistory_eq_some.mp hs
  obtain ⟨m1, drawn1⟩ := s'
  dsimp only at hstep hdrawn
  cases step_cases hstep with
  | mouse hmouse hctl =>
    have hmoved := Kernel.mouseHandler_moved hmouse hp h.paint
    by_cases hdrop : s.1.kern.drops p = true
    · rw [if_pos hdrop] at hmoved
      obtain ⟨k1, c1⟩ := m1
      obtain rfl : k1 = s.1.kern := hmoved
      obtain rfl : c1 = s.1.ctl := hctl
      have hsame : drawn1 = s.2 := by rw [hdrawn, hdrop, Bool.not_true, Bool.or_false]
      rw [hsame]
      exact h
    · rw [if_neg hdrop] at hmoved
      have htrue : drawn1 = true := by
        rw [hdrawn]
        simp [hdrop]
      obtain ⟨v, mo, rfl, hov⟩ := h.overlay
      have hon : Console.OnScreen m1.kern.pointerAt :=
        Kernel.pointerCell_onScreen hmoved.inside.1 hmoved.inside.2
      have hnext := hov.move (g := 0xDB) (hk.resolve_left hdrop) (hon.not_saved _)
      refine ⟨fun t => by rw [hmoved.paint]; exact h.paint t, hmoved.inside, v, mo, ?_, ?_⟩
      · simp only [withScreen, Kernel.withScreen, hmoved.proc, hmoved.rtc, hmoved.con, hctl]
      · rw [htrue, Kernel.covered, if_pos rfl, hmoved.prevChar, hmoved.con]
        exact hnext

/-- An event that draws nothing does not change the display either. -/
theorem step_keepsDisplay (he : DrawsNothing e) (h : step img m e = some m') :
    m'.kern.con.curTerminal = m.kern.con.curTerminal := by
  cases step_console h with
  | same _ hcon => rw [hcon]
  | still _ heq => rw [heq]
  | start _ _ hcon => rw [hcon]
  | resume _ _ hcon => rw [hcon]
  | typed => exact he.elim
  | moved => exact he.elim
  | wrote => exact he.elim
  | mapped _ _ hcon => rw [hcon]
  | read _ _ hcon => rw [hcon, Console.setTerm_curTerminal]

/-- An event that draws nothing is the same in both runs. -/
theorem Matched.quiet {s s' : Machine × Bool} (h : Matched s m') (he : DrawsNothing e)
    (hs : pointerStep img s e = some s') : ∃ m1', step img m' e = some m1' ∧ Matched s' m1' := by
  obtain ⟨hstep, hdrawn⟩ := withHistory_eq_some.mp hs
  obtain ⟨hvram, hmouse⟩ := step_keepsScreen he hstep
  have hcur := step_keepsDisplay he hstep
  have hsame : s'.2 = s.2 := by
    rw [hdrawn]
    cases e with
    | mouse p => exact he.elim
    | _ => rfl
  obtain ⟨v, mo, rfl, hov⟩ := h.overlay
  refine ⟨s'.1.withScreen v mo, by rw [step_withScreen s.1 he, hstep]; rfl, ?_⟩
  refine ⟨by rw [hmouse]; exact h.paint, by rw [hmouse]; exact h.inside, v, mo, rfl, ?_⟩
  rw [hvram, hcur, hsame, Kernel.covered, Kernel.pointerAt, hmouse]
  exact hov

/-- A key or a `write` that keeps the cell under the pointer: the consoles differ by the pointer
again. -/
theorem Matched.drawn {s s' : Machine × Bool} (h : Matched s m')
    (hmouse : s'.1.kern.mouse = s.1.kern.mouse) (hdrawn : s'.2 = s.2) {c' : Console} (mo : Mouse)
    (hov : Console.Overlaid s.1.kern.pointerAt (s.1.kern.covered s.2) s'.1.kern.con c')
    {m1' : Machine} (hm1 : m1' = ⟨{ s'.1.kern with con := c', mouse := mo }, s'.1.ctl⟩) :
    Matched s' m1' := by
  obtain ⟨v', rfl, hov⟩ := hov
  refine ⟨by rw [hmouse]; exact h.paint, by rw [hmouse]; exact h.inside, v', mo, hm1, ?_⟩
  rw [hdrawn, Kernel.covered, Kernel.pointerAt, hmouse]
  exact hov

theorem Matched.key {s s' : Machine × Bool} (h : Matched s m') {status code : UInt8}
    (hk : Harmless s (.key status code)) (hs : pointerStep img s (.key status code) = some s') :
    ∃ m1', step img m' (.key status code) = some m1' ∧ Matched s' m1' := by
  obtain ⟨hstep, hdrawn⟩ := withHistory_eq_some.mp hs
  have hm : s'.1 = ⟨Machine.key s.1.kern status code, s.1.ctl⟩ := (Option.some.inj hstep).symm
  have hon := h.onScreen
  obtain ⟨v, mo, rfl, hcons⟩ := h.overlaid
  have hnext : Console.Overlaid s.1.kern.pointerAt (s.1.kern.covered s.2) s'.1.kern.con
      ((s.1.kern.con.withVram v).keyboardHandler s.1.kern.proc.typingMask
        s.1.kern.proc.terminalProcessIndex status code) := by
    rw [hm]
    exact hcons.keyboardHandler hon hk
  have hmouse : s'.1.kern.mouse = s.1.kern.mouse := by
    rw [hm]
    rfl
  refine ⟨⟨Machine.key (s.1.kern.withScreen v mo) status code, s.1.ctl⟩, rfl,
    h.drawn hmouse hdrawn mo hnext ?_⟩
  rw [hm]
  rfl

theorem Matched.write {s s' : Machine × Bool} (h : Matched s m') {fd nbytes : Int}
    {buf : Option (Nat → UInt8)} (hk : Harmless s (.write fd buf nbytes))
    (hs : pointerStep img s (.write fd buf nbytes) = some s') :
    ∃ m1', step img m' (.write fd buf nbytes) = some m1' ∧ Matched s' m1' := by
  obtain ⟨hstep, hdrawn⟩ := withHistory_eq_some.mp hs
  have hon := h.onScreen
  obtain ⟨v, mo, rfl, hcons⟩ := h.overlaid
  have hnext : Console.Overlaid s.1.kern.pointerAt (s.1.kern.covered s.2)
      (s.1.kern.drawOutput fd buf nbytes s.1.kern.con)
      (s.1.kern.drawOutput fd buf nbytes (s.1.kern.con.withVram v)) := by
    unfold Kernel.drawOutput
    cases hout : s.1.kern.output fd buf nbytes with
    | none => exact hcons
    | some bytes => exact hcons.terminalWrite hon (hk bytes hout)
  cases step_cases hstep with
  | @write _ _ _ p r hc hx hc' =>
    obtain ⟨hcon, hmouse⟩ := Kernel.write_draws hx
    have hother := s.1.kern.write_withCon fd buf nbytes (s.1.kern.con.withVram v) mo
    rw [hx, Option.map_some] at hother
    have hcall : step img (s.1.withScreen v mo) (.write fd buf nbytes) =
        some ⟨{ s'.1.kern with
          con := s.1.kern.drawOutput fd buf nbytes (s.1.kern.con.withVram v)
          mouse := mo }, .user p⟩ := by
      simp only [step, call, withScreen, hc, syscall, hother]
      rfl
    rw [← hcon] at hnext
    exact ⟨_, hcall, h.drawn hmouse hdrawn mo hnext (by rw [hc'])⟩

/-- A step of the run with the mouse, and what the run without packets does meanwhile. -/
theorem Matched.next {s s' : Machine × Bool} (h : Matched s m')
    (he : ∀ p, e = .mouse p → p.Buttonless) (hk : Harmless s e)
    (hs : pointerStep img s e = some s') :
    (isMouse e = true ∧ Matched s' m') ∨
      (isMouse e = false ∧ ∃ m1', step img m' e = some m1' ∧ Matched s' m1') := by
  cases e with
  | mouse p => exact Or.inl ⟨rfl, h.packet (he p rfl) hk hs⟩
  | key status code => exact Or.inr ⟨rfl, h.key hk hs⟩
  | write fd buf nbytes => exact Or.inr ⟨rfl, h.write hk hs⟩
  | _ => exact Or.inr ⟨rfl, h.quiet trivial hs⟩

theorem Matched.run {es : List Event} : ∀ {s s' : Machine × Bool} {m' : Machine}, Matched s m' →
    (∀ p, .mouse p ∈ es → p.Buttonless) → Allowed (pointerStep img) Harmless s es →
      EventSystem.run (pointerStep img) s es = some s' →
        ∃ m1', EventSystem.run (step img) m' (es.filter fun e => !isMouse e) = some m1' ∧
          Matched s' m1' := by
  induction es with
  | nil =>
    intro s s' m' h _ _ hrun
    cases hrun
    exact ⟨m', rfl, h⟩
  | cons e es ih =>
    intro s s' m' h hes hok hrun
    obtain ⟨s1, hs, hrest⟩ := run_cons.mp hrun
    have hes' : ∀ p, .mouse p ∈ es → p.Buttonless := fun p hp => hes p (List.mem_cons_of_mem e hp)
    have he : ∀ p, e = .mouse p → p.Buttonless := fun p hp =>
      hes p (by rw [hp]; exact List.mem_cons_self)
    rcases h.next he hok.1 hs with ⟨hm, hnext⟩ | ⟨hm, m1, hstep, hnext⟩
    · rw [List.filter_cons_of_neg (by simp [hm])]
      exact ih hnext hes' (hok.2 s1 hs) hrest
    · obtain ⟨m2, hrun', hlast⟩ := ih hnext hes' (hok.2 s1 hs) hrest
      rw [List.filter_cons_of_pos (by simp [hm])]
      exact ⟨m2, run_cons.mpr ⟨m1, hstep, hrun'⟩, hlast⟩

/-- Every run with packets but no button, from a machine without paint mode whose pointer has not
been drawn yet: as long as no step disturbs the cell under the pointer, the run without the packets
is the same but for the pointer. -/
theorem pointer_is_transparent (img : Image) (m : Machine) (es : List Event) (s : Machine × Bool)
    (hoff : ∀ t, m.kern.mouse.paint t = false)
    (hpos : m.kern.mouse.mouseX < 80 ∧ m.kern.mouse.mouseY < 25)
    (hes : ∀ p, .mouse p ∈ es → p.Buttonless)
    (hok : Allowed (pointerStep img) Harmless (m, false) es)
    (hrun : run (pointerStep img) (m, false) es = some s) :
    ∃ m', run (step img) m (es.filter fun e => !isMouse e) = some m' ∧
      Transparent s.1 s.2 m' := by
  obtain ⟨m', hrun', h⟩ := (Matched.init hoff hpos.1 hpos.2).run hes hok hrun
  exact ⟨m', hrun', h.transparent⟩

/-- The machine after boot, with an `S` in every cell. -/
def lettered : Machine :=
  { booted with kern := { booted.kern with con := { booted.kern.con with vram := fun _ => 83 } } }

/-- The pointer goes to the second cell, and `a` is typed in the first one. -/
def moveAndType : List Event := [.mouse ⟨8, 0, 0⟩, .mouse ⟨8, 4, 0⟩, .key 1 0x1E]

theorem pointer_is_transparent_typing :
    ∃ s m', run (pointerStep disk) (lettered, false) moveAndType = some s ∧
      run (step disk) lettered [.key 1 0x1E] = some m' ∧ Transparent s.1 s.2 m' := by
  have hchecked : (run (fun s e => if decide (Harmless s e) then pointerStep disk s e else none)
      (lettered, false) moveAndType).isSome = true := by decide +kernel
  obtain ⟨s, hs⟩ := Option.isSome_iff_exists.mp hchecked
  obtain ⟨hok, hrun⟩ := Allowed.of_checked (fun _ _ => of_decide_eq_true) hs
  have hes : ∀ p, .mouse p ∈ moveAndType → p.Buttonless := by
    intro p hp
    obtain rfl | rfl : p = ⟨8, 0, 0⟩ ∨ p = ⟨8, 4, 0⟩ := by simpa [moveAndType] using hp
    · rfl
    · rfl
  obtain ⟨m', hrun', h⟩ := pointer_is_transparent disk lettered moveAndType s (fun _ => rfl)
    (by decide) hes hok hrun
  exact ⟨s, m', hrun, hrun', h⟩

/-- Shell 0 writes an `S`, the pointer is drawn on it, and Alt-F2 displays terminal 1. -/
def drawAndSwitch : List Event :=
  [.tick 0 0, .write 1 (some fun _ => 83) 1, .mouse ⟨8, 0, 0⟩, .key 1 0x38, .key 1 0x3C]

/-- The pointer is saved with the page of terminal 0, where the other run saves the `S`. -/
theorem pointer_saved_with_page : ¬ ∀ (img : Image) (m : Machine) (es : List Event)
    (s : Machine × Bool), Boot m → (∀ p, .mouse p ∈ es → p.Buttonless) →
    run (pointerStep img) (m, false) es = some s →
    ∃ m', run (step img) m (es.filter fun e => !isMouse e) = some m' ∧
      Transparent s.1 s.2 m' := by
  intro h
  have hwith : (run (pointerStep disk) (booted, false) drawAndSwitch).map (fun s =>
      (s.1.kern.con.curTerminal, s.1.kern.con.vram (Console.vmemTerm 0))) = some (1, 0xDB) := by
    decide +kernel
  have hwithout : (run (step disk) booted (drawAndSwitch.filter fun e => !isMouse e)).map
      (fun m => m.kern.con.vram (Console.vmemTerm 0)) = some 83 := by
    decide +kernel
  obtain ⟨s, hs, hcell⟩ := Option.map_eq_some_iff.mp hwith
  have hes : ∀ p, .mouse p ∈ drawAndSwitch → p.Buttonless := by
    intro p hp
    obtain rfl : p = ⟨8, 0, 0⟩ := by simpa [drawAndSwitch] using hp
    rfl
  obtain ⟨m', hm, hsheet⟩ := h disk booted drawAndSwitch s boot_booted hes hs
  rw [hm, Option.map_some, Option.some.injEq] at hwithout
  rw [Prod.mk.injEq] at hcell
  have hsaved := hsheet.saved 0 (by rw [hcell.1]; decide) 0 (by omega)
  rw [Nat.add_zero, hcell.2, hwithout] at hsaved
  revert hsaved
  decide

end Machine
end DeviceOS
