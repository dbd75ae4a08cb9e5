import DeviceOS.Lib.EventSystem
import DeviceOS.Lib.Pic8259
import Mathlib.Data.List.Induction

/-!
# DeviceOS.InterruptController

`i8259.c`: the driver of the two interrupt controllers, on the ports of the chips.

* `i8259Init`, `enableIrq`, `disableIrq`, `sendEoi`: the bytes that they write, in this order.
* `irqLine`: the line that a number means to `enable_irq` and `disable_irq`.
* `enableIrq_line`, `disableIrq_line`, `sendEoi_eq`: what they do, once the chips have been
  initialised. `i8259Init_eq`: the initialisation, from any state of the chips.
* `irq_masks_exact`: every sequence of calls with any numbers.
-/

namespace DeviceOS

open EventSystem (run run_append run_cons)
open Pic8259 (Chip Pair Programmed has bit masterLine slaveLine)

def pic1Command : BitVec 16 := 0x20
def pic1Data : BitVec 16 := 0x21
def pic2Command : BitVec 16 := 0xA0
def pic2Data : BitVec 16 := 0xA1

/-- `outb` to a port of the controllers: the low byte of `data`. -/
def outb (data : BitVec 32) (port : BitVec 16) (p : Pair) : Option Pair :=
  let v := data.setWidth 8
  if port = pic1Command then (p.master.command v).map fun c => { p with master := c }
  else if port = pic1Data then some { p with master := p.master.data v }
  else if port = pic2Command then (p.slave.command v).map fun c => { p with slave := c }
  else if port = pic2Data then some { p with slave := p.slave.data v }
  else none

/-- `inb` from a data port: the mask. -/
def inb (port : BitVec 16) (p : Pair) : Option (BitVec 32) :=
  if port = pic1Data then some (p.master.imr.setWidth 32)
  else if port = pic2Data then some (p.slave.imr.setWidth 32)
  else none

/-! ## `i8259.c` -/

/-- `PIC1_DATA` or `PIC2_DATA`, and the number of the line there. -/
def portOf (irqNum : BitVec 32) : BitVec 16 × BitVec 32 :=
  if irqNum < 8 then (pic1Data, irqNum) else (pic2Data, irqNum - 8)

/-- `1 << irq_num`. The processor takes the count modulo 32; the standard leaves it open from 32
on. -/
def irqBit (irqNum : BitVec 32) : BitVec 32 := (1 : BitVec 32) <<< (irqNum &&& 31)

def enableIrq (irqNum : BitVec 32) (p : Pair) : Option Pair :=
  let (port, irqNum) := portOf irqNum
  (inb port p).bind fun b => outb (b &&& ~~~irqBit irqNum) port p

def disableIrq (irqNum : BitVec 32) (p : Pair) : Option Pair :=
  let (port, irqNum) := portOf irqNum
  (inb port p).bind fun b => outb (b ||| irqBit irqNum) port p

def sendEoi (irqNum : BitVec 32) (p : Pair) : Option Pair :=
  if 8 ≤ irqNum then
    (outb (0x60 ||| irqNum - 8) pic2Command p).bind fun p => outb (0x60 ||| 2) pic1Command p
  else outb (0x60 ||| irqNum) pic1Command p

def i8259Init (p : Pair) : Option Pair := do
  let p ← outb 0x11 pic1Command p
  let p ← outb 0x11 pic2Command p
  let p ← outb 0x20 pic1Data p
  let p ← outb 0x28 pic2Data p
  let p ← outb 0x04 pic1Data p
  let p ← outb 0x02 pic2Data p
  let p ← outb 0x01 pic1Data p
  let p ← outb 0x01 pic2Data p
  let p ← outb 0xFF pic1Data p
  let p ← outb 0xFF pic2Data p
  enableIrq 2 p

/-! ## The lines -/

def irqNum (irq : Fin 16) : BitVec 32 := BitVec.ofNat 32 irq

/-- The line whose bit of the mask a call changes. From 8 on the count of the shift is the number
less 8, modulo 32; what it shifts out of the low byte changes nothing. -/
def irqLine (irqNum : BitVec 32) : Option (Fin 16) :=
  let n := if irqNum.toNat < 8 then irqNum.toNat else 8 + (irqNum.toNat - 8) % 32
  if h : n < 16 then some ⟨n, h⟩ else none

theorem irqLine_master {irq : BitVec 32} (h : irq.toNat < 8) :
    irqLine irq = some (masterLine ⟨irq.toNat, h⟩) := by
  simp only [irqLine, if_pos h]
  exact dif_pos (by omega)

theorem irqLine_slave {irq : BitVec 32} (h : 8 ≤ irq.toNat) {i : Fin 8}
    (hi : (irq.toNat - 8) % 32 = i) : irqLine irq = some (slaveLine i) := by
  simp only [irqLine, if_neg (Nat.not_lt.mpr h), hi]
  rw [dif_pos (by omega)]
  exact congrArg some (Fin.ext (Nat.add_comm ..))

theorem irqLine_none {irq : BitVec 32} (h : 8 ≤ irq.toNat) (hi : 8 ≤ (irq.toNat - 8) % 32) :
    irqLine irq = none := by
  simp only [irqLine, if_neg (Nat.not_lt.mpr h)]
  exact dif_neg (by omega)

@[simp] theorem irqLine_irqNum (irq : Fin 16) : irqLine (irqNum irq) = some irq := by
  revert irq
  decide

theorem portOf_master {irq : BitVec 32} (h : irq.toNat < 8) : portOf irq = (pic1Data, irq) :=
  if_pos h

theorem portOf_slave {irq : BitVec 32} (h : 8 ≤ irq.toNat) : portOf irq = (pic2Data, irq - 8) :=
  if_neg (Nat.not_lt.mpr h)

/-- The bit in 32 bits. -/
theorem irqBit_byte (n : BitVec 32) (j : Nat) :
    (irqBit n).getLsbD j = decide (n.toNat % 32 = j) := by
  have hcount : (n &&& 31).toNat = n.toNat % 32 := by
    rw [BitVec.toNat_and]
    exact Nat.and_two_pow_sub_one_eq_mod n.toNat 5
  have hlt : n.toNat % 32 < 32 := Nat.mod_lt _ (by decide)
  rw [irqBit, BitVec.shiftLeft_eq', hcount]
  simp only [BitVec.getLsbD_shiftLeft, BitVec.ofNat_eq_ofNat, BitVec.getLsbD_one]
  by_cases h : n.toNat % 32 = j
  · simp [← h, hlt]
  · simp [h]
    omega

theorem clear_byte (x : BitVec 8) {n : BitVec 32} {i : Fin 8} (h : n.toNat % 32 = i) :
    (x.setWidth 32 &&& ~~~irqBit n).setWidth 8 = x &&& ~~~bit i := by
  apply BitVec.eq_of_getLsbD_eq
  intro j hj
  have h32 : j < 32 := by omega
  simp only [BitVec.getLsbD_setWidth, BitVec.getLsbD_and, BitVec.getLsbD_not, irqBit_byte, h, bit,
    BitVec.getLsbD_twoPow, hj, h32, i.isLt, decide_true, Bool.true_and]

theorem set_byte (x : BitVec 8) {n : BitVec 32} {i : Fin 8} (h : n.toNat % 32 = i) :
    (x.setWidth 32 ||| irqBit n).setWidth 8 = x ||| bit i := by
  apply BitVec.eq_of_getLsbD_eq
  intro j hj
  have h32 : j < 32 := by omega
  simp only [BitVec.getLsbD_setWidth, BitVec.getLsbD_or, irqBit_byte, h, bit,
    BitVec.getLsbD_twoPow, hj, h32, i.isLt, decide_true, Bool.true_and]

/-- A bit above the low byte. -/
theorem high_byte {n : BitVec 32} (h : 8 ≤ n.toNat % 32) {j : Nat} (hj : j < 8) :
    (irqBit n).getLsbD j = false := by
  rw [irqBit_byte]
  exact decide_eq_false (by omega)

theorem clear_none (x : BitVec 8) {n : BitVec 32} (h : 8 ≤ n.toNat % 32) :
    (x.setWidth 32 &&& ~~~irqBit n).setWidth 8 = x := by
  apply BitVec.eq_of_getLsbD_eq
  intro j hj
  have h32 : j < 32 := by omega
  simp only [BitVec.getLsbD_setWidth, BitVec.getLsbD_and, BitVec.getLsbD_not, high_byte h hj, hj, h32,
    decide_true, Bool.true_and, Bool.not_false, Bool.and_true]

theorem set_none (x : BitVec 8) {n : BitVec 32} (h : 8 ≤ n.toNat % 32) :
    (x.setWidth 32 ||| irqBit n).setWidth 8 = x := by
  apply BitVec.eq_of_getLsbD_eq
  intro j hj
  have h32 : j < 32 := by omega
  simp only [BitVec.getLsbD_setWidth, BitVec.getLsbD_or, high_byte h hj, hj, h32, decide_true,
    Bool.true_and, Bool.or_false]

variable {p : Pair} {b₁ b₂ : BitVec 8}

/-- A new mask for one chip. -/
theorem outb_data_master (h : p.master.expects = .mask) (w : BitVec 32) :
    outb w pic1Data p = some { p with master := { p.master with imr := w.setWidth 8 } } := by
  have hne : ¬ pic1Data = pic1Command := by decide
  simp only [outb, if_neg hne, if_pos, Chip.data, h]

theorem outb_data_slave (h : p.slave.expects = .mask) (w : BitVec 32) :
    outb w pic2Data p = some { p with slave := { p.slave with imr := w.setWidth 8 } } := by
  have h1 : ¬ pic2Data = pic1Command := by decide
  have h2 : ¬ pic2Data = pic1Data := by decide
  have h3 : ¬ pic2Data = pic2Command := by decide
  simp only [outb, if_neg h1, if_neg h2, if_neg h3, if_pos, Chip.data, h]

/-- A call that changes a mask with `f`: at an input, `f` is `g`, and it leaves the other bits. -/
theorem irq_line (h : Programmed p b₁ b₂) (irq : BitVec 32) (f : BitVec 32 → BitVec 32 → BitVec 32)
    (g : Fin 8 → BitVec 8 → BitVec 8)
    (hbit : ∀ (x : BitVec 8) (n : BitVec 32) (i : Fin 8), n.toNat % 32 = i →
      (f (x.setWidth 32) (irqBit n)).setWidth 8 = g i x)
    (hnone : ∀ (x : BitVec 8) (n : BitVec 32), 8 ≤ n.toNat % 32 →
      (f (x.setWidth 32) (irqBit n)).setWidth 8 = x) :
    ((inb (portOf irq).1 p).bind fun b => outb (f b (irqBit (portOf irq).2)) (portOf irq).1 p) =
      some ((irqLine irq).elim p (p.onChip fun i c => { c with imr := g i c.imr })) := by
  have hne : ¬ pic2Data = pic1Data := by decide
  rcases Nat.lt_or_ge irq.toNat 8 with h8 | h8
  · rw [portOf_master h8, irqLine_master h8, Option.elim_some, Pair.onChip_master]
    simp only [inb, if_pos, Option.bind_some, outb_data_master h.expects.1,
      hbit _ irq ⟨irq.toNat, h8⟩ (Nat.mod_eq_of_lt (by omega))]
  · have hsub : (irq - 8).toNat % 32 = (irq.toNat - 8) % 32 :=
      congrArg (· % 32) (BitVec.toNat_sub_of_le (x := irq) (y := 8) h8)
    rw [portOf_slave h8]
    simp only [inb, if_neg hne, if_pos, Option.bind_some, outb_data_slave h.expects.2]
    rcases Nat.lt_or_ge ((irq.toNat - 8) % 32) 8 with hi | hi
    · rw [hbit _ _ ⟨_, hi⟩ hsub, irqLine_slave h8 (i := ⟨_, hi⟩) rfl, Option.elim_some,
        Pair.onChip_slave]
    · rw [hnone _ _ (by omega), irqLine_none h8 hi]
      rfl

theorem enableIrq_line (h : Programmed p b₁ b₂) (irq : BitVec 32) :
    enableIrq irq p = some ((irqLine irq).elim p p.unmask) :=
  irq_line h irq (fun b v => b &&& ~~~v) (fun i x => x &&& ~~~bit i)
    (fun x _ _ hi => clear_byte x hi) fun x _ hn => clear_none x hn

theorem disableIrq_line (h : Programmed p b₁ b₂) (irq : BitVec 32) :
    disableIrq irq p = some ((irqLine irq).elim p p.mask) :=
  irq_line h irq (fun b v => b ||| v) (fun i x => x ||| bit i) (fun x _ _ hi => set_byte x hi)
    fun x _ hn => set_none x hn

theorem enableIrq_eq (h : Programmed p b₁ b₂) (irq : Fin 16) :
    enableIrq (irqNum irq) p = some (p.unmask irq) := by
  rw [enableIrq_line h, irqLine_irqNum, Option.elim_some]

/-! ## The end of an interrupt -/

/-- `EOI | irq_num` is the command for this input. -/
theorem eoi_command (c : Chip) (i : Fin 8) :
    c.command ((0x60 ||| BitVec.ofNat 32 i).setWidth 8) = some (c.endOne i) := by
  have hbyte : ∀ i : Fin 8, ¬ (0x60 ||| BitVec.ofNat 32 i).setWidth 8 &&& 0x1F = 0x11 ∧
      (0x60 ||| BitVec.ofNat 32 i).setWidth 8 &&& 0xF8 = 0x60 ∧
      ((0x60 ||| BitVec.ofNat 32 i).setWidth 8 &&& 7).toNat = i := by
    decide
  obtain ⟨hicw1, hocw2, hinput⟩ := hbyte i
  rw [Chip.command, if_neg hicw1, if_pos hocw2, hinput]
  rfl

theorem outb_eoi_master (p : Pair) (i : Fin 8) :
    outb (0x60 ||| BitVec.ofNat 32 i) pic1Command p = some (p.endOne (masterLine i)) := by
  rw [Pair.endOne, Pair.onChip_master]
  simp only [outb, if_pos, eoi_command, Option.map_some]

theorem outb_eoi_slave (p : Pair) (i : Fin 8) :
    outb (0x60 ||| BitVec.ofNat 32 i) pic2Command p = some (p.endOne (slaveLine i)) := by
  have h1 : ¬ pic2Command = pic1Command := by decide
  have h2 : ¬ pic2Command = pic1Data := by decide
  rw [Pair.endOne, Pair.onChip_slave]
  simp only [outb, if_neg h1, if_neg h2, if_pos, eoi_command, Option.map_some]

theorem sendEoi_eq (p : Pair) (irq : Fin 16) : sendEoi (irqNum irq) p = some (p.finish irq) := by
  rcases Pic8259.line_cases irq with ⟨i, rfl⟩ | ⟨i, rfl⟩
  · have hlt : ∀ i : Fin 8, ¬ 8 ≤ irqNum (masterLine i) := by decide
    have h8 : ¬ 8 ≤ (masterLine i).val := Nat.not_le.mpr i.isLt
    rw [sendEoi, if_neg (hlt i), Pair.finish, if_neg h8]
    exact outb_eoi_master p i
  · have hge : ∀ i : Fin 8, 8 ≤ irqNum (slaveLine i) ∧
        irqNum (slaveLine i) - 8 = BitVec.ofNat 32 i := by decide
    have h8 : 8 ≤ (slaveLine i).val := Nat.le_add_left ..
    rw [sendEoi, if_pos (hge i).1, (hge i).2, outb_eoi_slave, Option.bind_some, Pair.finish, if_pos h8]
    exact outb_eoi_master _ 2

/-! ## Every sequence of calls -/

/-- The chips after `i8259_init`. -/
def initialised : Pair :=
  ⟨⟨0, 0, 0xFB, 0x20, 4, 1, .mask⟩, ⟨0, 0, 0xFF, 0x28, 2, 1, .mask⟩⟩

theorem i8259Init_eq (p : Pair) : i8259Init p = some initialised := by
  simp [i8259Init, outb, inb, enableIrq, irqBit, portOf, pic1Command, pic1Data, pic2Command, pic2Data,
    Chip.command, Chip.data, initialised]

theorem programmed_initialised : Programmed initialised 0x20 0x28 :=
  ⟨⟨rfl, rfl⟩, ⟨rfl, rfl⟩, ⟨rfl, rfl⟩, rfl, rfl⟩

theorem masked_initialised (irq : Fin 16) : initialised.masked irq = decide (irq ≠ 2) := by
  revert irq
  decide

/-- A call of `enable_irq` or of `disable_irq`. -/
structure IrqCall where
  enable : Bool
  irq : BitVec 32

def IrqCall.exec (p : Pair) (c : IrqCall) : Option Pair :=
  if c.enable then enableIrq c.irq p else disableIrq c.irq p

/-- What the last call for the line was, if there was one. -/
def lastCall (cs : List IrqCall) (irq : Fin 16) : Option Bool :=
  (cs.reverse.find? fun c => irqLine c.irq = some irq).map IrqCall.enable

theorem lastCall_append (cs : List IrqCall) (c : IrqCall) (irq : Fin 16) :
    lastCall (cs ++ [c]) irq =
      if irqLine c.irq = some irq then some c.enable else lastCall cs irq := by
  unfold lastCall
  rw [List.reverse_append, List.reverse_singleton, List.singleton_append, List.find?_cons]
  by_cases h : irqLine c.irq = some irq
  · simp [h]
  · simp [h]

/-- One call changes the mask of its line only. -/
theorem IrqCall.exec_eq (h : Programmed p b₁ b₂) (c : IrqCall) :
    ∃ p', c.exec p = some p' ∧ Programmed p' b₁ b₂ ∧
      ∀ irq, p'.masked irq = if irqLine c.irq = some irq then !c.enable else p.masked irq := by
  cases henable : c.enable with
  | true =>
    rw [exec, if_pos henable, enableIrq_line h]
    refine ⟨_, rfl, ?_⟩
    cases irqLine c.irq with
    | none => exact ⟨h, fun irq => (if_neg (Option.some_ne_none irq).symm).symm⟩
    | some l =>
      refine ⟨h.onChip (f := Chip.unmask) (fun _ _ => ⟨rfl, rfl, rfl, rfl⟩) l, fun irq => ?_⟩
      rw [Option.elim_some, Pair.masked_unmask]
      by_cases heq : l = irq
      · simp [heq]
      · simp [heq, Ne.symm heq]
  | false =>
    rw [exec, if_neg (by simp [henable]), disableIrq_line h]
    refine ⟨_, rfl, ?_⟩
    cases irqLine c.irq with
    | none => exact ⟨h, fun irq => (if_neg (Option.some_ne_none irq).symm).symm⟩
    | some l =>
      refine ⟨h.onChip (f := Chip.mask) (fun _ _ => ⟨rfl, rfl, rfl, rfl⟩) l, fun irq => ?_⟩
      rw [Option.elim_some, Pair.masked_mask]
      by_cases heq : l = irq
      · simp [heq]
      · simp [heq, Ne.symm heq]

/-- After `i8259_init`, in whatever state the chips were, and any calls of `enable_irq` and
`disable_irq` with any numbers, a line is masked if the last call for it was `disable_irq`, or if there
was none; only line 2 is not masked from the beginning. The vectors are those from 0x20 on. -/
theorem irq_masks_exact (p : Pair) (cs : List IrqCall) :
    ∃ p', (i8259Init p).bind (fun p => run IrqCall.exec p cs) = some p' ∧
      Programmed p' 0x20 0x28 ∧
      ∀ irq, p'.masked irq = match lastCall cs irq with
        | some enabled => !enabled
        | none => decide (irq ≠ 2) := by
  rw [i8259Init_eq, Option.bind_some]
  induction cs using List.reverseRecOn with
  | nil => exact ⟨initialised, rfl, programmed_initialised, masked_initialised⟩
  | append_singleton cs c ih =>
    obtain ⟨p₁, hrun, hprog, hmasked⟩ := ih
    obtain ⟨p₂, hexec, hprog', hmasked'⟩ := c.exec_eq hprog
    refine ⟨p₂, run_append.mpr ⟨p₁, hrun, run_cons.mpr ⟨p₂, hexec, rfl⟩⟩, hprog', fun irq => ?_⟩
    rw [hmasked', hmasked, lastCall_append]
    split
    · rfl
    · rfl

end DeviceOS
