import DeviceOS.Lib.AccessLog
import DeviceOS.MousePointer

/-!
# DeviceOS.MousePosition

Where `mouse_handler` moves the pointer, and which cells of the screen it stores to.

* `relWord`, `clampWord`: the arithmetic of the handler on `uint32_t` and `int32_t`. `newX_toNat`,
  `newY_toNat`: it is that of `Kernel.relative` and `Kernel.moveTo`.
* `Packet.movementX`, `Packet.movementY`: the movement that a packet reports, as a number of nine
  bits in two's complement. `newX_eq`, `newY_eq`: a quarter of it is added to the position.
* `mouseHandlerLogged`: the handler with the text cells that it stores to.
  `mouseHandlerLogged_result`: apart from the log it is `Kernel.mouseHandler`.
* `Tracks`, `mouseHandlerLogged_tracks`: one packet, from any state with the pointer on the screen.
* `handlerStep`, `pointer_tracks_packets`: any sequence of packets, with anything in between.
  `Machine.reach_handler`: runs of the machine are such sequences.
-/

namespace DeviceOS

open AccessLog (Logged)

/-! ## Words -/

/-- `delta - ((status << shift) & 0x100)`, divided by 4. -/
def relWord (status delta : UInt8) (shift : Nat) : BitVec 32 :=
  (delta.toBitVec.setWidth 32 - ((status.toBitVec.setWidth 32 <<< shift) &&& 0x100)).sdiv 4

def clampWord (z limit : BitVec 32) : BitVec 32 :=
  if z.slt 0 then 0 else if limit.slt z then limit else z

/-- The nine bits of a movement: a sign bit of the status byte above the eight bits of `delta`. -/
def movement (sign : Bool) (delta : UInt8) : Int := (BitVec.cons sign delta.toBitVec).toInt

def Packet.movementX (p : Packet) : Int := movement (p.status.toBitVec.getLsbD 4) p.deltaX
def Packet.movementY (p : Packet) : Int := movement (p.status.toBitVec.getLsbD 5) p.deltaY

theorem movement_eq (sign : Bool) (delta : UInt8) :
    movement sign delta = delta.toNat - if sign then 0x100 else 0 := by
  have hlt := delta.toNat_lt
  have hnat : (BitVec.cons sign delta.toBitVec).toNat = sign.toNat <<< 8 + delta.toNat := by
    rw [BitVec.toNat_cons', Nat.shiftLeft_eq]
    rfl
  rw [movement, BitVec.toInt_eq_toNat_cond, hnat]
  cases sign with
  | false => simp; omega
  | true => simp; omega

theorem movement_bounds (sign : Bool) (delta : UInt8) :
    -256 ≤ movement sign delta ∧ movement sign delta < 256 := by
  have hlt := delta.toNat_lt
  rw [movement_eq]
  split
  · omega
  · omega

/-- A quarter of a movement, rounded toward zero. -/
theorem quarter_bounds (sign : Bool) (delta : UInt8) :
    -64 ≤ (movement sign delta).tdiv 4 ∧ (movement sign delta).tdiv 4 < 64 := by
  obtain ⟨hlow, hhigh⟩ := movement_bounds sign delta
  have hfour : Int.sign 4 = 1 := rfl
  rw [Int.tdiv_eq_ediv, hfour]
  split
  · omega
  · omega

theorem signWord (status : UInt8) {shift : Nat} (h : shift ≤ 8) :
    (status.toBitVec.setWidth 32 <<< shift) &&& 0x100 =
      if status.toBitVec.getLsbD (8 - shift) then 0x100 else 0 := by
  have hbit : (status.toBitVec.setWidth 32 <<< shift).getLsbD 8 =
      status.toBitVec.getLsbD (8 - shift) := by
    rw [BitVec.getLsbD_shiftLeft, BitVec.getLsbD_setWidth]
    have h1 : ¬ 8 < shift := by omega
    have h2 : 8 - shift < 32 := by omega
    simp [h1, h2]
  have hpow : (0x100 : BitVec 32) = BitVec.twoPow 32 8 := by decide
  rw [hpow, BitVec.and_twoPow, hbit]
  rfl

theorem relWord_toInt (status delta : UInt8) (shift : Nat) (h : shift ≤ 8) :
    (relWord status delta shift).toInt =
      (movement (status.toBitVec.getLsbD (8 - shift)) delta).tdiv 4 := by
  have hlt := delta.toNat_lt
  have hdelta : (delta.toBitVec.setWidth 32).toInt = delta.toNat := by
    rw [BitVec.toInt_eq_toNat_of_lt]
    · simp
    · simp
      omega
  have hsub : (delta.toBitVec.setWidth 32 -
      if status.toBitVec.getLsbD (8 - shift) then (0x100 : BitVec 32) else 0).toInt =
        movement (status.toBitVec.getLsbD (8 - shift)) delta := by
    rw [BitVec.toInt_sub, hdelta, movement_eq]
    split
    · rw [Int.bmod_eq_of_le_mul_two]
      · rfl
      · simp; omega
      · simp; omega
    · rw [Int.bmod_eq_of_le_mul_two]
      · rfl
      · simp; omega
      · simp; omega
  obtain ⟨hlow, hhigh⟩ := quarter_bounds (status.toBitVec.getLsbD (8 - shift)) delta
  rw [relWord, signWord status h, BitVec.toInt_sdiv, hsub]
  have hfour : (4 : BitVec 32).toInt = 4 := rfl
  rw [hfour, Int.bmod_eq_of_le_mul_two]
  · omega
  · omega

theorem and_bit_eq_zero (status : UInt8) {bit : UInt8} {i : Nat}
    (h : bit.toBitVec = BitVec.twoPow 8 i) (hi : i < 8) :
    status &&& bit = 0 ↔ status.toBitVec.getLsbD i = false := by
  rw [← UInt8.toBitVec_inj, UInt8.toBitVec_and, h, BitVec.and_twoPow]
  have hne : BitVec.twoPow 8 i ≠ 0 := by
    intro hzero
    have hbit := congrArg (fun x => x.getLsbD i) hzero
    simp [hi] at hbit
  cases status.toBitVec.getLsbD i with
  | false => simp
  | true => simpa using hne

theorem relative_eq (status delta : UInt8) {bit : UInt8} {i : Nat}
    (h : bit.toBitVec = BitVec.twoPow 8 i) (hi : i < 8) :
    Kernel.relative status bit delta = (movement (status.toBitVec.getLsbD i) delta).tdiv 4 := by
  rw [Kernel.relative, movement_eq]
  have hbit := and_bit_eq_zero status h hi
  cases hb : status.toBitVec.getLsbD i with
  | false => rw [if_pos (hbit.2 hb), if_neg (by simp)]
  | true => rw [if_neg (fun hzero => by simp [hbit.1 hzero] at hb), if_pos rfl]

theorem clampWord_toNat {z : BitVec 32} {old limit : Nat} {rel : Int}
    (hz : z.toInt = Int.bmod (old + rel) (2 ^ 32)) (hlimit : limit < 2 ^ 31) :
    (clampWord z (BitVec.ofNat 32 limit)).toNat = Kernel.moveTo old rel limit := by
  have hnat : (BitVec.ofNat 32 limit).toNat = limit := by
    rw [BitVec.toNat_ofNat]
    omega
  have hint : (BitVec.ofNat 32 limit).toInt = limit := by
    rw [BitVec.toInt_eq_toNat_of_lt (by omega), hnat]
  have hzero : (0 : BitVec 32).toInt = 0 := rfl
  unfold clampWord Kernel.moveTo
  simp only [BitVec.slt_iff_toInt_lt, hint, hzero, ← hz]
  split
  · rfl
  · split
    · exact hnat
    · -- a number that is not negative is the same as an unsigned one
      rw [BitVec.toInt_eq_toNat_cond] at *
      split
      · rfl
      · have := z.isLt
        omega

namespace Kernel

/-- `new_mouse_x`. -/
def newX (k : Kernel) (p : Packet) : BitVec 32 :=
  clampWord (BitVec.ofNat 32 k.mouse.mouseX + relWord p.status p.deltaX 4) 79

/-- `new_mouse_y`. -/
def newY (k : Kernel) (p : Packet) : BitVec 32 :=
  clampWord (BitVec.ofNat 32 k.mouse.mouseY - relWord p.status p.deltaY 3) 24

variable (k : Kernel) (p : Packet)

theorem newX_toNat :
    (k.newX p).toNat = moveTo k.mouse.mouseX (relative p.status 0x10 p.deltaX) 79 := by
  have hrel := relWord_toInt p.status p.deltaX 4 (by decide)
  have hbit : (0x10 : UInt8).toBitVec = BitVec.twoPow 8 4 := by decide
  refine clampWord_toNat ?_ (by decide)
  rw [relative_eq p.status p.deltaX hbit (by decide), BitVec.toInt_add, hrel, BitVec.toInt_ofNat',
    Int.bmod_add_bmod]

theorem newY_toNat :
    (k.newY p).toNat = moveTo k.mouse.mouseY (-relative p.status 0x20 p.deltaY) 24 := by
  have hrel := relWord_toInt p.status p.deltaY 3 (by decide)
  have hbit : (0x20 : UInt8).toBitVec = BitVec.twoPow 8 5 := by decide
  refine clampWord_toNat ?_ (by decide)
  rw [relative_eq p.status p.deltaY hbit (by decide), BitVec.toInt_sub, hrel, BitVec.toInt_ofNat',
    Int.bmod_sub_bmod, Int.sub_eq_add_neg]

theorem moveTo_eq {old limit : Nat} {rel : Int} (hold : old ≤ limit) (hlimit : limit < 100)
    (hrel : -64 ≤ rel ∧ rel ≤ 64) :
    (moveTo old rel limit : Int) = max 0 (min (limit : Int) (old + rel)) := by
  have hsum : Int.bmod (old + rel) (2 ^ 32) = old + rel :=
    Int.bmod_eq_of_le_mul_two (by omega) (by omega)
  unfold moveTo
  rw [hsum]
  dsimp only
  split
  · omega
  · split
    · omega
    · omega

theorem newX_eq (hx : k.mouse.mouseX ≤ 79) :
    ((k.newX p).toNat : Int) = max 0 (min 79 (k.mouse.mouseX + p.movementX.tdiv 4)) := by
  have hbit : (0x10 : UInt8).toBitVec = BitVec.twoPow 8 4 := by decide
  obtain ⟨hlow, hhigh⟩ := quarter_bounds (p.status.toBitVec.getLsbD 4) p.deltaX
  rw [newX_toNat, relative_eq p.status p.deltaX hbit (by decide)]
  exact moveTo_eq hx (by decide) ⟨hlow, hhigh.le⟩

theorem newY_eq (hy : k.mouse.mouseY ≤ 24) :
    ((k.newY p).toNat : Int) = max 0 (min 24 (k.mouse.mouseY - p.movementY.tdiv 4)) := by
  have hbit : (0x20 : UInt8).toBitVec = BitVec.twoPow 8 5 := by decide
  obtain ⟨hlow, hhigh⟩ := quarter_bounds (p.status.toBitVec.getLsbD 5) p.deltaY
  have hneg : -64 ≤ -p.movementY.tdiv 4 ∧ -p.movementY.tdiv 4 ≤ 64 := by
    simp only [Packet.movementY]
    omega
  rw [newY_toNat, relative_eq p.status p.deltaY hbit (by decide)]
  exact moveTo_eq hy (by decide) hneg

end Kernel

/-! ## The handler with its stores

The log is the list of the text cells that are stored to, as indices into the page. -/

open AccessLog.Logged

namespace Console

def clearLogged (c : Console) : Logged Nat Console :=
  foldl (fun d i => access i (access i (done (d.putCell i 32 c.attrib)))) c
    (List.range (numRows * numCols))

def clearScreenLogged (c : Console) : Logged Nat Console :=
  c.clearLogged.map fun d => d.setCursor 0 0

/-- `*(uint8_t *)(video_mem + ((NUM_COLS * y + x) << 1)) = b`. -/
def pokeCell (c : Console) (x y : Nat) (b : UInt8) : Logged Nat Console :=
  access (numCols * y + x) (done (c.poke (Kernel.pointerCell x y) b))

theorem clearScreenLogged_result (c : Console) : c.clearScreenLogged.result = c.clearScreen := by
  have hclear : c.clearLogged.result = c.clear := result_foldl (fun _ _ => rfl) _ _
  rw [clearScreenLogged, result_map, hclear]
  rfl

theorem clearScreenLogged_within (c : Console) : c.clearScreenLogged.Within (· < 2000) := by
  have hclear : c.clearLogged.Within (· < 2000) := by
    refine within_foldl (fun d i hi => ?_) c
    have hlt : i < 2000 := List.mem_range.1 hi
    simp [hlt]
  simpa [clearScreenLogged] using hclear

theorem pokeCell_within {c : Console} {x y : Nat} {b : UInt8} (hx : x ≤ 79) (hy : y ≤ 24) :
    (c.pokeCell x y b).Within (· < 2000) := by
  have hlt : numCols * y + x < 2000 := by
    simp only [numCols]
    omega
  simp [pokeCell, hlt]

end Console

namespace Kernel

def togglePaintLogged (k : Kernel) : Logged Nat (Kernel × Bool) :=
  let t := k.con.curTerminal
  let on := k.mouse.paint t
  k.con.clearScreenLogged.map fun c1 =>
    let c2 := if on then c1.setTerm t { c1.terminalStruct t with enterFlag := true } else c1
    ({ k with
        con := c2
        mouse := { k.mouse with prevChar := 32, paint := Function.update k.mouse.paint t !on }
        proc := { k.proc with typingMask := Function.update k.proc.typingMask t on } }, !on)

/-- `shell_mask[(uint8_t) pid_arr[cur_terminal]]`; `stray` is the byte at index 255, which is read
when the displayed terminal has no process. -/
def shellShown (k : Kernel) (stray : Bool) : Bool :=
  match k.proc.pidArr k.con.curTerminal with
  | none => stray
  | some q => k.proc.shellMask q

def toggleIfLogged (k : Kernel) (shell : Bool) : Logged Nat (Kernel × Bool) :=
  if shell then k.togglePaintLogged else done (k, false)

def rightButtonLogged (k : Kernel) (stray : Bool) (status : UInt8) : Logged Nat (Kernel × Bool) :=
  if status &&& 2 = 0 then
    done ({ k with mouse := { k.mouse with rightClick := false } }, false)
  else
    (if k.mouse.rightClick then done (k, false) else k.toggleIfLogged (k.shellShown stray)).map
      fun r => ({ r.1 with mouse := { r.1.mouse with rightClick := true } }, r.2)

/-- The stores for the old cell and the new one, and the next `prev_char`. -/
def drawCellsLogged (k : Kernel) (status : UInt8) (newX newY : Nat) (c : Console) :
    Logged Nat (Console × UInt8) :=
  let m := k.mouse
  if m.paint c.curTerminal ∧ status &&& 1 ≠ 0 then
    (c.pokeCell m.mouseX m.mouseY 0xDB).bind fun c1 =>
      (c1.pokeCell newX newY 0xDB).map fun c2 => (c2, m.prevChar)
  else
    (c.pokeCell m.mouseX m.mouseY (if m.prevChar = 0 then 83 else m.prevChar)).bind fun c1 =>
      (c1.pokeCell newX newY 0xDB).map fun c2 => (c2, c1.peek (pointerCell newX newY))

/-- The letters of `PAINT`, if the paint mode has just been turned on. -/
def drawTitleLogged (c : Console) (paintFlag : Bool) : Logged Nat Console :=
  if paintFlag then
    foldl (fun d (p : Nat × UInt8) => d.pokeCell p.1 0 p.2) c
      [(0, 80), (1, 65), (2, 73), (3, 78), (4, 84)]
  else done c

def drawPointerLogged (k : Kernel) (status : UInt8) (newX newY : Nat) (paintFlag : Bool) :
    Logged Nat Kernel :=
  (k.drawCellsLogged status newX newY { k.con with vidmemPage := vidmemIndex }).bind fun r =>
    (drawTitleLogged r.1 paintFlag).map fun c2 =>
      { k with
        con := { c2 with vidmemPage := k.con.vidmemPage }
        mouse := { k.mouse with prevChar := r.2, mouseX := newX, mouseY := newY } }

def mouseHandlerLogged (k : Kernel) (stray : Bool) (p : Packet) : Logged Nat Kernel :=
  let t := k.con.curTerminal
  if p.status &&& 0xC0 ≠ 0 then done k
  else if k.proc.typingMask t = false ∧ k.mouse.paint t = false then done k
  else
    (k.rightButtonLogged stray p.status).bind fun r =>
      r.1.drawPointerLogged p.status (k.newX p).toNat (k.newY p).toNat r.2

variable {k k' : Kernel} {stray : Bool}

theorem togglePaintLogged_result (k : Kernel) : k.togglePaintLogged.result = k.togglePaint := by
  rw [togglePaintLogged, result_map, Console.clearScreenLogged_result]
  rfl

theorem toggleIfLogged_result (shell : Bool) (k : Kernel) :
    (k.toggleIfLogged shell).result = if shell then k.togglePaint else (k, false) := by
  cases shell with
  | false => rfl
  | true => exact k.togglePaintLogged_result

theorem drawCellsLogged_result (k : Kernel) (status : UInt8) (newX newY : Nat) (c : Console) :
    (k.drawCellsLogged status newX newY c).result =
      let m := k.mouse
      let old := pointerCell m.mouseX m.mouseY
      let new := pointerCell newX newY
      if m.paint c.curTerminal ∧ status &&& 1 ≠ 0 then
        ((c.poke old 0xDB).poke new 0xDB, m.prevChar)
      else
        let c1 := c.poke old (if m.prevChar = 0 then 83 else m.prevChar)
        (c1.poke new 0xDB, c1.peek new) := by
  unfold drawCellsLogged
  dsimp only
  split
  · rfl
  · rfl

theorem drawTitleLogged_result (c : Console) (paintFlag : Bool) :
    (drawTitleLogged c paintFlag).result =
      if paintFlag then
        [(0, 80), (1, 65), (2, 73), (3, 78), (4, 84)].foldl
          (fun d (p : Nat × UInt8) => d.poke (pointerCell p.1 0) p.2) c
      else c := by
  cases paintFlag with
  | false => rfl
  | true => exact result_foldl (fun _ _ => rfl) _ _

theorem drawPointerLogged_result (k : Kernel) (status : UInt8) (newX newY : Nat)
    (paintFlag : Bool) : (k.drawPointerLogged status newX newY paintFlag).result =
      k.drawPointer status newX newY paintFlag := by
  rw [drawPointerLogged, result_bind, result_map, drawCellsLogged_result, drawTitleLogged_result]
  rfl

theorem rightButtonLogged_result {status : UInt8} {r : Kernel × Bool}
    (h : k.rightButton status = some r) : (k.rightButtonLogged stray status).result = r := by
  unfold rightButton at h
  unfold rightButtonLogged
  split
  · rename_i hbit
    rw [if_pos hbit] at h
    cases h
    rfl
  · rename_i hbit
    rw [if_neg hbit] at h
    rw [result_map]
    cases hclick : k.mouse.rightClick with
    | true =>
      simp only [hclick, if_true, Option.map_some] at h
      cases h
      rfl
    | false =>
      cases hq : k.proc.pidArr k.con.curTerminal with
      | none => simp [hclick, hq] at h
      | some q =>
        simp only [hclick, hq, Bool.false_eq_true, if_false, Option.map_some] at h
        have hshell : k.shellShown stray = k.proc.shellMask q := by simp only [shellShown, hq]
        cases h
        rw [if_neg (by simp), hshell, toggleIfLogged_result]

/-- Whatever is read behind the end of `shell_mask`, the result is that of `mouseHandler`. -/
theorem mouseHandlerLogged_result {p : Packet} (h : k.mouseHandler p = some k') :
    (k.mouseHandlerLogged stray p).result = k' := by
  unfold mouseHandler at h
  unfold mouseHandlerLogged
  dsimp only at h ⊢
  split
  · rename_i hover
    rw [if_pos hover] at h
    cases h
    rfl
  · rename_i hover
    rw [if_neg hover] at h
    split
    · rename_i hidle
      rw [if_pos hidle] at h
      cases h
      rfl
    · rename_i hidle
      rw [if_neg hidle] at h
      obtain ⟨r, hr, rfl⟩ := Option.map_eq_some_iff.1 h
      rw [result_bind, rightButtonLogged_result hr, drawPointerLogged_result, newX_toNat,
        newY_toNat]

/-! ## One packet -/

/-- The pointer is on the screen. -/
structure PointerInside (k : Kernel) : Prop where
  x : k.mouse.mouseX ≤ 79
  y : k.mouse.mouseY ≤ 24

theorem newX_le (k : Kernel) (p : Packet) : (k.newX p).toNat ≤ 79 := by
  rw [newX_toNat]
  exact moveTo_le _ _ _

theorem newY_le (k : Kernel) (p : Packet) : (k.newY p).toNat ≤ 24 := by
  rw [newY_toNat]
  exact moveTo_le _ _ _

/-- The screen is cleared, and the pointer stays where it is. -/
theorem togglePaintLogged_keeps (k : Kernel) : k.togglePaintLogged.Within (· < 2000) ∧
    k.togglePaintLogged.result.1.mouse.mouseX = k.mouse.mouseX ∧
    k.togglePaintLogged.result.1.mouse.mouseY = k.mouse.mouseY := by
  unfold togglePaintLogged
  dsimp only
  rw [within_map, result_map]
  exact ⟨Console.clearScreenLogged_within k.con, rfl, rfl⟩

theorem toggleIfLogged_keeps (k : Kernel) (shell : Bool) :
    (k.toggleIfLogged shell).Within (· < 2000) ∧
      (k.toggleIfLogged shell).result.1.mouse.mouseX = k.mouse.mouseX ∧
      (k.toggleIfLogged shell).result.1.mouse.mouseY = k.mouse.mouseY := by
  unfold toggleIfLogged
  split
  · exact k.togglePaintLogged_keeps
  · exact ⟨within_done _, rfl, rfl⟩

/-- The right button clears the screen at most, and leaves the pointer where it is. -/
theorem rightButtonLogged_keeps (k : Kernel) (stray : Bool) (status : UInt8) :
    (k.rightButtonLogged stray status).Within (· < 2000) ∧
      (k.rightButtonLogged stray status).result.1.mouse.mouseX = k.mouse.mouseX ∧
      (k.rightButtonLogged stray status).result.1.mouse.mouseY = k.mouse.mouseY := by
  unfold rightButtonLogged
  split
  · exact ⟨within_done _, rfl, rfl⟩
  · cases k.mouse.rightClick with
    | true =>
      rw [if_pos rfl, within_map]
      exact ⟨within_done _, rfl, rfl⟩
    | false =>
      have hkeeps := k.toggleIfLogged_keeps (k.shellShown stray)
      rw [if_neg (by simp), within_map]
      generalize k.toggleIfLogged (k.shellShown stray) = x at hkeeps ⊢
      exact hkeeps

theorem drawCellsLogged_within (hk : k.PointerInside) (status : UInt8) {newX newY : Nat}
    (hx : newX ≤ 79) (hy : newY ≤ 24) (c : Console) :
    (k.drawCellsLogged status newX newY c).Within (· < 2000) := by
  unfold drawCellsLogged
  dsimp only
  split
  · rw [within_bind, within_map]
    exact ⟨Console.pokeCell_within hk.x hk.y, Console.pokeCell_within hx hy⟩
  · rw [within_bind, within_map]
    exact ⟨Console.pokeCell_within hk.x hk.y, Console.pokeCell_within hx hy⟩

theorem drawTitleLogged_within (c : Console) (paintFlag : Bool) :
    (drawTitleLogged c paintFlag).Within (· < 2000) := by
  have hletters : ∀ p ∈ ([(0, 80), (1, 65), (2, 73), (3, 78), (4, 84)] : List (Nat × UInt8)),
      p.1 ≤ 79 := by decide
  unfold drawTitleLogged
  split
  · exact within_foldl (fun d p hp => Console.pokeCell_within (hletters p hp) (by decide)) c
  · exact within_done c

theorem drawPointerLogged_within (hk : k.PointerInside) (status : UInt8) {newX newY : Nat}
    (hx : newX ≤ 79) (hy : newY ≤ 24) (paintFlag : Bool) :
    (k.drawPointerLogged status newX newY paintFlag).Within (· < 2000) := by
  rw [drawPointerLogged, within_bind, within_map]
  exact ⟨drawCellsLogged_within hk status hx hy _, drawTitleLogged_within _ _⟩

/-- What a run of `mouse_handler` with the packet `p` does on the kernel `k`. -/
structure Tracks (k : Kernel) (p : Packet) (x : Logged Nat Kernel) : Prop where
  cells : x.Within (· < 2000)
  inside : x.result.PointerInside
  dropped : k.drops p = true → x.result = k
  movedX : k.drops p = false → (x.result.mouse.mouseX : Int) =
    max 0 (min 79 (k.mouse.mouseX + p.movementX.tdiv 4))
  movedY : k.drops p = false → (x.result.mouse.mouseY : Int) =
    max 0 (min 24 (k.mouse.mouseY - p.movementY.tdiv 4))

theorem mouseHandlerLogged_dropped {p : Packet} (h : k.drops p = true) (stray : Bool) :
    k.mouseHandlerLogged stray p = done k := by
  unfold mouseHandlerLogged
  dsimp only
  by_cases hover : p.status &&& 0xC0 ≠ 0
  · rw [if_pos hover]
  · have hidle : k.proc.typingMask k.con.curTerminal = false ∧
        k.mouse.paint k.con.curTerminal = false := by
      simpa [drops, hover] using h
    rw [if_neg hover, if_pos hidle]

theorem mouseHandlerLogged_moved {p : Packet} (h : k.drops p = false) (stray : Bool) :
    k.mouseHandlerLogged stray p = (k.rightButtonLogged stray p.status).bind fun r =>
      r.1.drawPointerLogged p.status (k.newX p).toNat (k.newY p).toNat r.2 := by
  unfold mouseHandlerLogged
  dsimp only
  rw [drops, Bool.or_eq_false_iff] at h
  have hover : ¬ p.status &&& 0xC0 ≠ 0 := by simpa using h.1
  have hbusy : ¬ (k.proc.typingMask k.con.curTerminal = false ∧
      k.mouse.paint k.con.curTerminal = false) := by simpa using h.2
  rw [if_neg hover, if_neg hbusy]

theorem mouseHandlerLogged_tracks (hk : k.PointerInside) (stray : Bool) (p : Packet) :
    Tracks k p (k.mouseHandlerLogged stray p) := by
  cases hdrop : k.drops p with
  | true =>
    rw [mouseHandlerLogged_dropped hdrop]
    refine ⟨within_done _, hk, fun _ => rfl, fun h => ?_, fun h => ?_⟩
    · rw [hdrop] at h
      cases h
    · rw [hdrop] at h
      cases h
  | false =>
    obtain ⟨hcells, hx, hy⟩ := k.rightButtonLogged_keeps stray p.status
    have hsame : (k.rightButtonLogged stray p.status).result.1.PointerInside :=
      ⟨hx.le.trans hk.x, hy.le.trans hk.y⟩
    rw [mouseHandlerLogged_moved hdrop]
    refine ⟨?_, ⟨k.newX_le p, k.newY_le p⟩, fun h => ?_, fun _ => k.newX_eq p hk.x,
      fun _ => k.newY_eq p hk.y⟩
    · rw [within_bind]
      exact ⟨hcells, drawPointerLogged_within hsame p.status (k.newX_le p) (k.newY_le p) _⟩
    · rw [hdrop] at h
      cases h

/-! ## Runs -/

end Kernel

open EventSystem (Reach)

/-- A packet, or anything else that happens in the system. -/
inductive PointerEvent where
  | packet (stray : Bool) (p : Packet)
  | other (k : Kernel)

/-- `mouse_x` and `mouse_y` are written by `mouse_handler` only. All else may change between two
packets: the display, the buttons, the paint and typing modes. -/
def handlerStep (k : Kernel) : PointerEvent → Option Kernel
  | .packet stray p => some (k.mouseHandlerLogged stray p).result
  | .other k' =>
    if k'.mouse.mouseX = k.mouse.mouseX ∧ k'.mouse.mouseY = k.mouse.mouseY then some k' else none

/-- The initial values of the globals. -/
def AtOrigin (k : Kernel) : Prop := k.mouse.mouseX = 0 ∧ k.mouse.mouseY = 0

theorem Kernel.PointerInside.step {k k' : Kernel} (hk : k.PointerInside) {e : PointerEvent}
    (h : handlerStep k e = some k') : k'.PointerInside := by
  cases e with
  | packet stray p =>
    cases h
    exact (Kernel.mouseHandlerLogged_tracks hk stray p).inside
  | other k1 =>
    simp only [handlerStep] at h
    split at h
    · rename_i hsame
      cases h
      exact ⟨hsame.1.le.trans hk.x, hsame.2.le.trans hk.y⟩
    · cases h

theorem pointerInside_of_reach {k : Kernel} (h : Reach handlerStep AtOrigin (fun _ _ => True) k) :
    k.PointerInside := by
  refine h.inv ?_ fun k e k' hk _ hs => hk.step hs
  rintro k ⟨hx, hy⟩
  exact ⟨by omega, by omega⟩

namespace Machine

variable {img : Image} {m m' : Machine}

theorem step_mouse {e : Event} (he : ∀ p, e ≠ .mouse p) (h : step img m e = some m') :
    m'.kern.mouse = m.kern.mouse := by
  by_cases hdraws : DrawsNothing e
  · exact (step_keepsScreen hdraws h).2
  · cases step_cases h with
    | mouse => exact absurd rfl (he _)
    | key heq =>
      rw [heq]
      rfl
    | write _ hx => exact (Kernel.write_draws hx).2
    | _ => exact absurd trivial hdraws

/-- The kernel in a run of the machine is in a run of the mouse handler. -/
theorem reach_handler (h : Reach (step img) (fun m => AtOrigin m.kern) (fun _ _ => True) m) :
    Reach handlerStep AtOrigin (fun _ _ => True) m.kern := by
  induction h with
  | init h => exact .init h
  | @step m m' e _ _ hs ih =>
    by_cases he : ∃ p, e = .mouse p
    · obtain ⟨p, rfl⟩ := he
      cases step_cases hs with
      | mouse hk _ =>
        have hresult : handlerStep m.kern (.packet false p) = some m'.kern :=
          congrArg some (Kernel.mouseHandlerLogged_result hk)
        exact .step ih trivial hresult
    · have hmouse := step_mouse (fun p hp => he ⟨p, hp⟩) hs
      have hkeep : handlerStep m.kern (.other m'.kern) = some m'.kern := by
        simp [handlerStep, hmouse]
      exact .step ih trivial hkeep

end Machine

/-- After any sequence of packets, with anything happening in between, the next packet moves the
pointer by what it reports, or is dropped; the pointer and the stores stay on the screen. -/
theorem pointer_tracks_packets (k : Kernel) (h : Reach handlerStep AtOrigin (fun _ _ => True) k)
    (stray : Bool) (p : Packet) : Kernel.Tracks k p (k.mouseHandlerLogged stray p) :=
  Kernel.mouseHandlerLogged_tracks (pointerInside_of_reach h) stray p

/-- The pointer goes ten cells to the right, and 64 cells to the left again. -/
theorem pointer_tracks_packets_back : ∃ k : Kernel, k.mouse.mouseX = 10 ∧
    Kernel.Tracks k ⟨0x18, 0, 0⟩ (k.mouseHandlerLogged false ⟨0x18, 0, 0⟩) := by
  refine ⟨(Machine.booted.kern.mouseHandlerLogged false ⟨8, 40, 0⟩).result, by decide, ?_⟩
  exact pointer_tracks_packets _ (.step (e := .packet false ⟨8, 40, 0⟩) (.init ⟨rfl, rfl⟩) trivial
    rfl) false ⟨0x18, 0, 0⟩

/-- A display on which nobody types or paints. -/
def quietKernel : Kernel :=
  let k := Machine.booted.kern
  { k with proc := { k.proc with typingMask := fun _ => false } }

theorem quiet_pointer_stays : ¬ ∀ (k : Kernel),
    Reach handlerStep AtOrigin (fun _ _ => True) k → ∀ (stray : Bool) (p : Packet),
      ((k.mouseHandlerLogged stray p).result.mouse.mouseX : Int) =
        max 0 (min 79 (k.mouse.mouseX + p.movementX.tdiv 4)) := by
  intro h
  have hmoved := h quietKernel (.init ⟨rfl, rfl⟩) false ⟨8, 40, 0⟩
  exact absurd hmoved (by decide)

end DeviceOS
