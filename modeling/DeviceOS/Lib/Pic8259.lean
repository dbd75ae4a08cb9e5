import Mathlib.Data.Fin.Basic
import Mathlib.Data.List.FinRange
import Mathlib.Order.Fin.Basic
import Mathlib.Order.Defs.LinearOrder

/-!
# Lib.Pic8259

Two 8259A interrupt controllers, one behind the other, in the edge-triggered, fully nested mode.

* `Chip`: the requests, the interrupts in service, the mask and the initialisation words of one
  controller. `Chip.command`, `Chip.data`: what the processor writes to its two ports.
* `Pair.acknowledge`: the processor takes an interrupt and is told its vector.
* `Programmed`: after the initialisation. Sixteen lines then stand for the inputs of both chips:
  `requested`, `masked`, `inService`.
* `acknowledge_of_idle`: with nothing in service the first unmasked request in the order of `rank`
  is taken, and it is the only one that is no longer requested. `acknowledge_of_not_open`: without
  one, nothing is taken.
-/

namespace Pic8259

/-- What the next byte at the data port means. -/
inductive Expects where
  | icw2 | icw3 | icw4 | mask
  deriving DecidableEq

/-- One controller. `irr` are the requests, `isr` the interrupts in service, and `imr` the mask.
`cascade` is ICW3. -/
structure Chip where
  irr : BitVec 8
  isr : BitVec 8
  imr : BitVec 8
  base : BitVec 8
  cascade : BitVec 8
  icw4 : BitVec 8
  expects : Expects
  deriving DecidableEq

def has (x : BitVec 8) (i : Fin 8) : Bool := x.getLsbD i

def bit (i : Fin 8) : BitVec 8 := .twoPow 8 i

namespace Chip

/-- A byte at the command port: ICW1 for two chips and edges, or a specific end of interrupt. The
other commands are not covered. -/
def command (c : Chip) (v : BitVec 8) : Option Chip :=
  if v &&& 0x1F = 0x11 then some { c with irr := 0, isr := 0, imr := 0, expects := .icw2 }
  else if v &&& 0xF8 = 0x60 then
    some { c with isr := c.isr &&& ~~~(.twoPow 8 (v &&& 7).toNat) }
  else none

/-- A byte at the data port. -/
def data (c : Chip) (v : BitVec 8) : Chip :=
  match c.expects with
  | .icw2 => { c with base := v &&& 0xF8, expects := .icw3 }
  | .icw3 => { c with cascade := v, expects := .icw4 }
  | .icw4 => { c with icw4 := v, expects := .mask }
  | .mask => { c with imr := v }

/-- Input `i` is requested and not masked, and nothing at or above it is in service. -/
def grants (c : Chip) (lines : Fin 8 → Bool) (i : Fin 8) : Bool :=
  lines i && !has c.imr i && decide (∀ j ≤ i, has c.isr j = false)

/-- The input that the chip asks the processor to serve. Input 0 comes first. -/
def asks (c : Chip) (lines : Fin 8 → Bool) : Option (Fin 8) := Fin.find? (c.grants lines)

def serve (c : Chip) (i : Fin 8) : Chip :=
  { c with irr := c.irr &&& ~~~bit i, isr := c.isr ||| bit i }

def requests (c : Chip) (i : Fin 8) : Bool := has c.irr i

def raise (i : Fin 8) (c : Chip) : Chip := { c with irr := c.irr ||| bit i }
def mask (i : Fin 8) (c : Chip) : Chip := { c with imr := c.imr ||| bit i }
def unmask (i : Fin 8) (c : Chip) : Chip := { c with imr := c.imr &&& ~~~bit i }
def endOne (i : Fin 8) (c : Chip) : Chip := { c with isr := c.isr &&& ~~~bit i }

end Chip

structure Pair where
  master : Chip
  slave : Chip
  deriving DecidableEq

namespace Pair

/-- The inputs of the master: the slave drives the ones that ICW3 names. -/
def lines (p : Pair) (i : Fin 8) : Bool :=
  if has p.master.cascade i then (p.slave.asks p.slave.requests).isSome else p.master.requests i

/-- The acknowledge cycle in the 8086 mode: the vector, and the chips after it. The slave answers
only when its number is that of the input. -/
def acknowledge (p : Pair) : Option (BitVec 8 × Pair) :=
  if p.master.icw4 = 1 ∧ p.slave.icw4 = 1 then
    (p.master.asks p.lines).bind fun i =>
      if has p.master.cascade i then
        if p.slave.cascade.toNat = i then
          (p.slave.asks p.slave.requests).map fun j =>
            (p.slave.base + BitVec.ofNat 8 j.val, ⟨p.master.serve i, p.slave.serve j⟩)
        else none
      else some (p.master.base + BitVec.ofNat 8 i.val, ⟨p.master.serve i, p.slave⟩)
  else none

end Pair

/-! ## One chip -/

theorem has_and_not_bit (x : BitVec 8) (i j : Fin 8) :
    has (x &&& ~~~bit i) j = (has x j && decide (j ≠ i)) := by
  have hi := i.isLt
  have hj := j.isLt
  simp only [has, bit, BitVec.getLsbD_and, BitVec.getLsbD_not, BitVec.getLsbD_twoPow, hi, hj,
    decide_true, Bool.true_and, ne_eq, Fin.ext_iff, decide_not, eq_comm]

theorem has_or_bit (x : BitVec 8) (i j : Fin 8) :
    has (x ||| bit i) j = (has x j || decide (j = i)) := by
  have hi := i.isLt
  simp only [has, bit, BitVec.getLsbD_or, BitVec.getLsbD_twoPow, hi, decide_true, Bool.true_and,
    Fin.ext_iff, eq_comm]

namespace Chip

variable {c : Chip} {lines : Fin 8 → Bool} {i : Fin 8}

theorem asks_eq_some :
    c.asks lines = some i ↔ c.grants lines i = true ∧ ∀ j < i, c.grants lines j = false :=
  Fin.find?_eq_some_iff

theorem asks_isSome : (c.asks lines).isSome = true ↔ ∃ i, c.grants lines i = true :=
  Fin.isSome_find?_iff

/-- With nothing in service every unmasked request is granted. -/
theorem grants_of_idle (h : ∀ i, has c.isr i = false) (i : Fin 8) :
    c.grants lines i = true ↔ lines i = true ∧ has c.imr i = false := by
  simp [grants, h]

theorem serve_irr (c : Chip) (i j : Fin 8) :
    has (c.serve i).irr j = (has c.irr j && decide (j ≠ i)) := has_and_not_bit ..

theorem serve_isr (c : Chip) (i j : Fin 8) :
    has (c.serve i).isr j = (has c.isr j || decide (j = i)) := has_or_bit ..

end Chip

/-! ## Sixteen lines -/

/-- Line `irq` in a register of the two chips. -/
def Pair.view (f : Chip → BitVec 8) (p : Pair) (irq : Fin 16) : Bool :=
  if h : irq.val < 8 then has (f p.master) ⟨irq, h⟩ else has (f p.slave) ⟨irq - 8, by omega⟩

namespace Pair

def requested (p : Pair) : Fin 16 → Bool := p.view Chip.irr
def masked (p : Pair) : Fin 16 → Bool := p.view Chip.imr
def inService (p : Pair) : Fin 16 → Bool := p.view Chip.isr

/-- A device asks for an interrupt that is not masked. Line 2 belongs to the slave. -/
def Open (p : Pair) (irq : Fin 16) : Prop :=
  p.requested irq = true ∧ p.masked irq = false ∧ irq ≠ 2

end Pair

/-- Input `i` of the slave as a line. -/
def slaveLine (i : Fin 8) : Fin 16 := ⟨i.val + 8, by omega⟩

def masterLine (i : Fin 8) : Fin 16 := ⟨i.val, by omega⟩

/-- Line `n` of the sixteen. -/
def line (n : Nat) : Fin 16 := Fin.ofNat 16 n

section Lines

variable {i j : Fin 8}

theorem masterLine_inj : masterLine i = masterLine j ↔ i = j := by
  simp [masterLine, Fin.ext_iff]

theorem slaveLine_inj : slaveLine i = slaveLine j ↔ i = j := by
  simp [slaveLine, Fin.ext_iff]

theorem masterLine_ne_slaveLine : masterLine i ≠ slaveLine j := by
  simp only [masterLine, slaveLine, ne_eq, Fin.mk.injEq]
  omega

end Lines

theorem line_cases (irq : Fin 16) : (∃ i, irq = masterLine i) ∨ ∃ i, irq = slaveLine i := by
  by_cases h : irq.val < 8
  · exact Or.inl ⟨⟨irq.val, h⟩, rfl⟩
  · exact Or.inr ⟨⟨irq.val - 8, by omega⟩, Fin.ext (by simp only [slaveLine]; omega)⟩

@[simp] theorem view_master (f : Chip → BitVec 8) (p : Pair) (i : Fin 8) :
    p.view f (masterLine i) = has (f p.master) i := dif_pos i.isLt

@[simp] theorem view_slave (f : Chip → BitVec 8) (p : Pair) (i : Fin 8) :
    p.view f (slaveLine i) = has (f p.slave) i := by
  rw [Pair.view, dif_neg (by simp [slaveLine])]
  simp [slaveLine]

namespace Pair

/-! ### What happens at a line -/

/-- Changes the chip of a line. -/
def onChip (f : Fin 8 → Chip → Chip) (p : Pair) (irq : Fin 16) : Pair :=
  if h : irq.val < 8 then { p with master := f ⟨irq, h⟩ p.master }
  else { p with slave := f ⟨irq - 8, by omega⟩ p.slave }

/-- An edge at the line. -/
def raise : Pair → Fin 16 → Pair := onChip Chip.raise

def mask : Pair → Fin 16 → Pair := onChip Chip.mask

def unmask : Pair → Fin 16 → Pair := onChip Chip.unmask

def endOne : Pair → Fin 16 → Pair := onChip Chip.endOne

/-- The end of the interrupt of a line, at both chips if it is the slave's. -/
def finish (p : Pair) (irq : Fin 16) : Pair :=
  if 8 ≤ irq.val then (p.endOne irq).endOne 2 else p.endOne irq

theorem onChip_master (f : Fin 8 → Chip → Chip) (p : Pair) (i : Fin 8) :
    onChip f p (masterLine i) = { p with master := f i p.master } := dif_pos i.isLt

theorem onChip_slave (f : Fin 8 → Chip → Chip) (p : Pair) (i : Fin 8) :
    onChip f p (slaveLine i) = { p with slave := f i p.slave } := by
  rw [onChip, dif_neg (by simp [slaveLine])]
  simp [slaveLine]

section View

variable (r : Chip → BitVec 8) (f : Fin 8 → Chip → Chip)

/-- A change of bit `i` of register `r` at the line's chip. -/
theorem view_onChip (g : Bool → Bool → Bool)
    (hf : ∀ i c k, has (r (f i c)) k = g (decide (k = i)) (has (r c) k))
    (hg : ∀ b, g false b = b) (p : Pair) (irq j : Fin 16) :
    (onChip f p irq).view r j = g (decide (j = irq)) (p.view r j) := by
  rcases line_cases irq with ⟨i, rfl⟩ | ⟨i, rfl⟩
  · rw [onChip_master]
    rcases line_cases j with ⟨k, rfl⟩ | ⟨k, rfl⟩
    · simp [hf, masterLine_inj]
    · simp [hg, masterLine_ne_slaveLine.symm]
  · rw [onChip_slave]
    rcases line_cases j with ⟨k, rfl⟩ | ⟨k, rfl⟩
    · simp [hg, masterLine_ne_slaveLine]
    · simp [hf, slaveLine_inj]

/-- A register that is left alone. -/
theorem view_onChip_same (hf : ∀ i c, r (f i c) = r c) (p : Pair) (irq : Fin 16) :
    (onChip f p irq).view r = p.view r := by
  funext j
  exact view_onChip r f (fun _ b => b) (fun i c k => by rw [hf]) (fun _ => rfl) p irq j

/-- A bit that is set, and one that is cleared. -/
theorem view_set (hf : ∀ i c, r (f i c) = r c ||| bit i) (p : Pair) (irq j : Fin 16) :
    (onChip f p irq).view r j = (p.view r j || decide (j = irq)) :=
  view_onChip r f (fun d b => b || d) (fun i c k => by rw [hf, has_or_bit]) (by simp) p irq j

theorem view_clear (hf : ∀ i c, r (f i c) = r c &&& ~~~bit i) (p : Pair) (irq j : Fin 16) :
    (onChip f p irq).view r j = (p.view r j && !decide (j = irq)) :=
  view_onChip r f (fun d b => b && !d) (fun i c k => by rw [hf, has_and_not_bit]; simp) (by simp)
    p irq j

end View

theorem requested_raise (p : Pair) (irq j : Fin 16) :
    (p.raise irq).requested j = (p.requested j || decide (j = irq)) :=
  view_set Chip.irr Chip.raise (fun _ _ => rfl) p irq j

theorem masked_mask (p : Pair) (irq j : Fin 16) :
    (p.mask irq).masked j = (p.masked j || decide (j = irq)) :=
  view_set Chip.imr Chip.mask (fun _ _ => rfl) p irq j

theorem masked_unmask (p : Pair) (irq j : Fin 16) :
    (p.unmask irq).masked j = (p.masked j && !decide (j = irq)) :=
  view_clear Chip.imr Chip.unmask (fun _ _ => rfl) p irq j

theorem inService_endOne (p : Pair) (irq j : Fin 16) :
    (p.endOne irq).inService j = (p.inService j && !decide (j = irq)) :=
  view_clear Chip.isr Chip.endOne (fun _ _ => rfl) p irq j

@[simp] theorem masked_raise (p : Pair) (irq : Fin 16) : (p.raise irq).masked = p.masked :=
  view_onChip_same Chip.imr Chip.raise (fun _ _ => rfl) p irq

@[simp] theorem inService_raise (p : Pair) (irq : Fin 16) :
    (p.raise irq).inService = p.inService :=
  view_onChip_same Chip.isr Chip.raise (fun _ _ => rfl) p irq

@[simp] theorem requested_unmask (p : Pair) (irq : Fin 16) :
    (p.unmask irq).requested = p.requested :=
  view_onChip_same Chip.irr Chip.unmask (fun _ _ => rfl) p irq

@[simp] theorem inService_unmask (p : Pair) (irq : Fin 16) :
    (p.unmask irq).inService = p.inService :=
  view_onChip_same Chip.isr Chip.unmask (fun _ _ => rfl) p irq

@[simp] theorem masked_endOne (p : Pair) (irq : Fin 16) : (p.endOne irq).masked = p.masked :=
  view_onChip_same Chip.imr Chip.endOne (fun _ _ => rfl) p irq

@[simp] theorem requested_endOne (p : Pair) (irq : Fin 16) :
    (p.endOne irq).requested = p.requested :=
  view_onChip_same Chip.irr Chip.endOne (fun _ _ => rfl) p irq

theorem inService_finish (p : Pair) (irq j : Fin 16) :
    (p.finish irq).inService j =
      (p.inService j && !decide (j = irq ∨ j = 2 ∧ 8 ≤ irq.val)) := by
  unfold finish
  split
  · rename_i h8
    rw [inService_endOne, inService_endOne]
    simp [h8, Bool.and_assoc]
  · rename_i h8
    rw [inService_endOne]
    simp [h8]

@[simp] theorem masked_finish (p : Pair) (irq : Fin 16) : (p.finish irq).masked = p.masked := by
  unfold finish
  split
  · rw [masked_endOne, masked_endOne]
  · exact masked_endOne p irq

@[simp] theorem requested_finish (p : Pair) (irq : Fin 16) :
    (p.finish irq).requested = p.requested := by
  unfold finish
  split
  · rw [requested_endOne, requested_endOne]
  · exact requested_endOne p irq

end Pair

/-! ## The order of the lines -/

/-- The order in which the lines are served: the slave comes in place of line 2. -/
def rank (irq : Fin 16) : Nat :=
  if irq.val < 2 then irq.val else if irq.val < 8 then irq.val + 8 else irq.val - 6

/-- The vector of a line. -/
def vector (b₁ b₂ : BitVec 8) (irq : Fin 16) : BitVec 8 :=
  if irq.val < 8 then b₁ + BitVec.ofNat 8 irq else b₂ + BitVec.ofNat 8 (irq.val - 8)

/-- Both chips have been initialised, with the slave at input 2. -/
structure Programmed (p : Pair) (b₁ b₂ : BitVec 8) : Prop where
  base : p.master.base = b₁ ∧ p.slave.base = b₂
  cascade : p.master.cascade = 4 ∧ p.slave.cascade = 2
  icw4 : p.master.icw4 = 1 ∧ p.slave.icw4 = 1
  expects : p.master.expects = .mask ∧ p.slave.expects = .mask

/-- The initialisation words of two chips are the same. -/
structure Chip.SameSetup (c c' : Chip) : Prop where
  base : c'.base = c.base
  cascade : c'.cascade = c.cascade
  icw4 : c'.icw4 = c.icw4
  expects : c'.expects = c.expects

theorem Programmed.onChip {p : Pair} {b₁ b₂ : BitVec 8} (h : Programmed p b₁ b₂)
    {f : Fin 8 → Chip → Chip} (hf : ∀ i c, Chip.SameSetup c (f i c)) (irq : Fin 16) :
    Programmed (Pair.onChip f p irq) b₁ b₂ := by
  unfold Pair.onChip
  split
  · have hc := hf ⟨irq.val, ‹_›⟩ p.master
    exact ⟨⟨hc.base.trans h.base.1, h.base.2⟩, ⟨hc.cascade.trans h.cascade.1, h.cascade.2⟩,
      ⟨hc.icw4.trans h.icw4.1, h.icw4.2⟩, hc.expects.trans h.expects.1, h.expects.2⟩
  · have hc := hf ⟨irq.val - 8, by omega⟩ p.slave
    exact ⟨⟨h.base.1, hc.base.trans h.base.2⟩, ⟨h.cascade.1, hc.cascade.trans h.cascade.2⟩,
      ⟨h.icw4.1, hc.icw4.trans h.icw4.2⟩, h.expects.1, hc.expects.trans h.expects.2⟩

theorem Programmed.finish {p : Pair} {b₁ b₂ : BitVec 8} (h : Programmed p b₁ b₂) (irq : Fin 16) :
    Programmed (p.finish irq) b₁ b₂ := by
  have hone : ∀ {p : Pair} (irq), Programmed p b₁ b₂ → Programmed (p.endOne irq) b₁ b₂ :=
    fun irq hp => hp.onChip (f := Chip.endOne) (fun _ _ => ⟨rfl, rfl, rfl, rfl⟩) irq
  unfold Pair.finish
  split
  · exact hone 2 (hone irq h)
  · exact hone irq h

/-- `p'` is `p` after the interrupt of line `irq` has been taken. -/
structure Taken (p p' : Pair) (irq : Fin 16) : Prop where
  masked : p'.masked = p.masked
  requested : ∀ j, j ≠ 2 → p'.requested j = (p.requested j && decide (j ≠ irq))
  inService : ∀ j, p'.inService j = (p.inService j || decide (j = irq ∨ j = 2 ∧ 8 ≤ irq.val))

section Acknowledge

variable {p p' : Pair} {b₁ b₂ : BitVec 8} {irq : Fin 16} {i j : Fin 8}

theorem taken_master (p : Pair) (i : Fin 8) :
    Taken p ⟨p.master.serve i, p.slave⟩ (masterLine i) where
  masked := by
    funext j
    rfl
  requested := by
    intro j hj
    rcases line_cases j with ⟨j, rfl⟩ | ⟨j, rfl⟩
    · simp [Pair.requested, Chip.serve_irr, masterLine_inj]
    · simp [Pair.requested, masterLine_ne_slaveLine.symm]
  inService := by
    intro j
    have h8 : ¬ 8 ≤ (masterLine i).val := by simp [masterLine]
    rcases line_cases j with ⟨j, rfl⟩ | ⟨j, rfl⟩
    · simp [Pair.inService, Chip.serve_isr, masterLine_inj, h8]
    · simp [Pair.inService, masterLine_ne_slaveLine.symm, h8]

theorem taken_slave (p : Pair) (j : Fin 8) :
    Taken p ⟨p.master.serve 2, p.slave.serve j⟩ (slaveLine j) where
  masked := by
    funext i
    rfl
  requested := by
    intro i hi
    rcases line_cases i with ⟨i, rfl⟩ | ⟨i, rfl⟩
    · have hne : i ≠ 2 := by
        rintro rfl
        exact hi rfl
      simp [Pair.requested, Chip.serve_irr, masterLine_ne_slaveLine, hne]
    · simp [Pair.requested, Chip.serve_irr, slaveLine_inj]
  inService := by
    intro i
    have h8 : 8 ≤ (slaveLine j).val := by simp [slaveLine]
    rcases line_cases i with ⟨i, rfl⟩ | ⟨i, rfl⟩
    · have h2 : masterLine i = 2 ↔ i = 2 := masterLine_inj (j := 2)
      simp [Pair.inService, Chip.serve_isr, masterLine_ne_slaveLine, h8, h2]
    · have h2 : slaveLine i ≠ 2 := (masterLine_ne_slaveLine (i := 2)).symm
      simp [Pair.inService, Chip.serve_isr, slaveLine_inj, h2]

theorem Programmed.cascade_bit (h : Programmed p b₁ b₂) (i : Fin 8) :
    has p.master.cascade i = decide (i = 2) := by
  rw [h.cascade.1]
  revert i
  decide

theorem Programmed.lines (h : Programmed p b₁ b₂) (i : Fin 8) :
    p.lines i = if i = 2 then (p.slave.asks p.slave.requests).isSome else p.master.requests i := by
  rw [Pair.lines, h.cascade_bit]
  simp

/-- The inputs that are granted are the open lines. -/
theorem open_slaveLine (hidle : ∀ j, p.inService j = false) :
    p.slave.grants p.slave.requests j = true ↔ p.Open (slaveLine j) := by
  have hs : ∀ i, has p.slave.isr i = false := fun i => by
    simpa [Pair.inService] using hidle (slaveLine i)
  have hne : slaveLine j ≠ 2 := (masterLine_ne_slaveLine (i := 2)).symm
  rw [Chip.grants_of_idle hs]
  simp [Pair.Open, Pair.requested, Pair.masked, Chip.requests, hne]

theorem open_masterLine (h : Programmed p b₁ b₂) (hidle : ∀ j, p.inService j = false)
    (hi : i ≠ 2) : p.master.grants p.lines i = true ↔ p.Open (masterLine i) := by
  have hs : ∀ i, has p.master.isr i = false := fun i => by
    simpa [Pair.inService] using hidle (masterLine i)
  have hne : masterLine i ≠ 2 := fun h2 => hi (masterLine_inj (j := 2).mp h2)
  rw [Chip.grants_of_idle hs, h.lines, if_neg hi]
  simp [Pair.Open, Pair.requested, Pair.masked, Chip.requests, hne]

/-- Input 2 of the master is granted when a line of the slave is open. -/
theorem grants_cascade (h : Programmed p b₁ b₂) (hidle : ∀ j, p.inService j = false)
    (h2 : p.masked 2 = false) :
    p.master.grants p.lines 2 = true ↔ ∃ j, p.Open (slaveLine j) := by
  have hs : ∀ i, has p.master.isr i = false := fun i => by
    simpa [Pair.inService] using hidle (masterLine i)
  have hmask : has p.master.imr 2 = false := by
    simpa [Pair.masked] using (view_master Chip.imr p 2).symm.trans h2
  rw [Chip.grants_of_idle hs, h.lines, if_pos rfl, Chip.asks_isSome]
  simp [hmask, open_slaveLine hidle]

theorem rank_masterLine (i : Fin 8) :
    rank (masterLine i) = if i.val < 2 then i.val else i.val + 8 := by
  have hi := i.isLt
  simp [rank, masterLine, hi]

theorem rank_slaveLine (j : Fin 8) : rank (slaveLine j) = j.val + 2 := by
  have hval : (slaveLine j).val = j.val + 8 := rfl
  rw [rank, hval, if_neg (by omega), if_neg (by omega)]
  omega

/-- What the master asks for is an open line. -/
theorem open_of_asks (h : Programmed p b₁ b₂) (hidle : ∀ j, p.inService j = false)
    (h2 : p.masked 2 = false) (hasks : p.master.asks p.lines = some i) : ∃ j, p.Open j := by
  have hgrants := (Chip.asks_eq_some.mp hasks).1
  by_cases hi : i = 2
  · subst hi
    obtain ⟨j, hj⟩ := (grants_cascade h hidle h2).mp hgrants
    exact ⟨slaveLine j, hj⟩
  · exact ⟨masterLine i, (open_masterLine h hidle hi).mp hgrants⟩

/-- Without an open line no interrupt is taken. -/
theorem acknowledge_of_not_open (h : Programmed p b₁ b₂) (hidle : ∀ j, p.inService j = false)
    (h2 : p.masked 2 = false) (hopen : ¬ ∃ j, p.Open j) : p.acknowledge = none := by
  have hnone : p.master.asks p.lines = none := by
    cases hasks : p.master.asks p.lines with
    | none => rfl
    | some i => exact absurd (open_of_asks h hidle h2 hasks) hopen
  rw [Pair.acknowledge, hnone, Option.bind_none, ite_self]

/-- The line that is taken is the first open one. -/
theorem acknowledge_of_idle (h : Programmed p b₁ b₂) (hidle : ∀ j, p.inService j = false)
    (h2 : p.masked 2 = false) (hopen : ∃ j, p.Open j) :
    ∃ irq p', p.acknowledge = some (vector b₁ b₂ irq, p') ∧ p.Open irq ∧
      (∀ j, p.Open j → rank irq ≤ rank j) ∧ Taken p p' irq ∧ Programmed p' b₁ b₂ := by
  have hsome : ∃ i, p.master.asks p.lines = some i := by
    obtain ⟨irq, hirq⟩ := hopen
    rw [← Option.isSome_iff_exists, Chip.asks_isSome]
    rcases line_cases irq with ⟨i, rfl⟩ | ⟨j, rfl⟩
    · have hi : i ≠ 2 := by
        rintro rfl
        exact hirq.2.2 rfl
      exact ⟨i, (open_masterLine h hidle hi).mpr hirq⟩
    · exact ⟨2, (grants_cascade h hidle h2).mpr ⟨j, hirq⟩⟩
  obtain ⟨i, hasks⟩ := hsome
  obtain ⟨hgrants, hfirst⟩ := Chip.asks_eq_some.mp hasks
  -- an open line of the master is not before `i`
  have hmaster : ∀ k, p.Open (masterLine k) → i ≤ k := by
    intro k hk
    have hk2 : k ≠ 2 := by
      rintro rfl
      exact hk.2.2 rfl
    by_contra hlt
    have hno := hfirst k (lt_of_not_ge hlt)
    rw [(open_masterLine h hidle hk2).mpr hk] at hno
    cases hno
  have hcascade := h.cascade_bit i
  by_cases hi : i = 2
  · subst hi
    obtain ⟨j, hj⟩ := Option.isSome_iff_exists.mp
      (Chip.asks_isSome.mpr ((grants_cascade h hidle h2).mp hgrants |>.imp fun j hj =>
        (open_slaveLine hidle).mpr hj))
    obtain ⟨hjgrants, hjfirst⟩ := Chip.asks_eq_some.mp hj
    refine ⟨slaveLine j, ⟨p.master.serve 2, p.slave.serve j⟩, ?_, (open_slaveLine hidle).mp hjgrants,
      ?_, taken_slave p j, ⟨h.base, h.cascade, h.icw4, h.expects⟩⟩
    · have hnum : p.slave.cascade.toNat = (2 : Fin 8).val := by
        rw [h.cascade.2]
        rfl
      have hvector : vector b₁ b₂ (slaveLine j) = p.slave.base + BitVec.ofNat 8 j := by
        rw [vector, if_neg (by simp [slaveLine]), h.base.2]
        simp [slaveLine]
      rw [Pair.acknowledge, if_pos h.icw4, hasks, Option.bind_some, if_pos (by simp [hcascade]),
        if_pos hnum, hj, hvector]
      rfl
    · intro k hk
      rw [rank_slaveLine]
      rcases line_cases k with ⟨k, rfl⟩ | ⟨k, rfl⟩
      · have hle := hmaster k hk
        have hk2 : k ≠ 2 := by
          rintro rfl
          exact hk.2.2 rfl
        rw [rank_masterLine, if_neg (by rw [Fin.le_def] at hle; exact Nat.not_lt.mpr hle)]
        omega
      · have hle : j ≤ k := by
          by_contra hlt
          have hno := hjfirst k (lt_of_not_ge hlt)
          rw [(open_slaveLine hidle).mpr hk] at hno
          cases hno
        rw [rank_slaveLine]
        exact Nat.add_le_add_right hle 2
  · refine ⟨masterLine i, ⟨p.master.serve i, p.slave⟩, ?_, (open_masterLine h hidle hi).mp hgrants,
      ?_, taken_master p i, ⟨h.base, h.cascade, h.icw4, h.expects⟩⟩
    · have hvector : vector b₁ b₂ (masterLine i) = p.master.base + BitVec.ofNat 8 i := by
        have hlt : (masterLine i).val < 8 := i.isLt
        rw [vector, if_pos hlt, h.base.1]
        rfl
      rw [Pair.acknowledge, if_pos h.icw4, hasks, Option.bind_some, if_neg (by simp [hcascade, hi]),
        hvector]
    · intro k hk
      rw [rank_masterLine]
      rcases line_cases k with ⟨k, rfl⟩ | ⟨k, rfl⟩
      · have hle := hmaster k hk
        rw [Fin.le_def] at hle
        rw [rank_masterLine]
        split
        · split
          · exact hle
          · omega
        · split
          · omega
          · omega
      · -- a line of the slave is open, so input 2 is granted and `i` is before it
        have hlt : i.val < 2 := by
          by_contra hge
          have hi2 : ((2 : Fin 8)).val = 2 := rfl
          have hno := hfirst 2 (by
            rw [Fin.lt_def, hi2]
            have : i.val ≠ 2 := fun heq => hi (Fin.ext heq)
            omega)
          rw [(grants_cascade h hidle h2).mpr ⟨k, hk⟩] at hno
          cases hno
        rw [if_pos hlt, rank_slaveLine]
        omega

end Acknowledge
end Pic8259
