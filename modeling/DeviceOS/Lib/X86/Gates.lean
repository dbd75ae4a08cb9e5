import DeviceOS.Lib.X86.Memory

/-!
# Lib.X86.Gates

The interrupt descriptor table, as the processor reads it.

* `Gate.decode`: a descriptor of eight bytes. `Gate.pack`: the same bytes from their fields;
  `decode_pack` takes them apart again.
* `vectoring`: how an interrupt goes through the table, with the checks of the processor.
-/

namespace X86

/-- A gate for an interrupt. `kind` are the system bit and the type. -/
structure Gate where
  offset : W
  selector : BitVec 16
  kind : BitVec 5
  dpl : BitVec 2
  present : Bool
  deriving DecidableEq

def Gate.decode (d : BitVec 64) : Gate where
  offset := d.extractLsb' 48 16 ++ d.extractLsb' 0 16
  selector := d.extractLsb' 16 16
  kind := d.extractLsb' 40 5
  dpl := d.extractLsb' 45 2
  present := d.extractLsb' 47 1 = 1

def interruptGate : BitVec 5 := 0x0E
def trapGate : BitVec 5 := 0x0F

/-- Where an interrupt leads: to a handler, which a trap gate enters with interrupts as they were, or
to an exception. -/
inductive Vectoring where
  | handler (offset : W) (selector : BitVec 16) (trap : Bool)
  | exception (v : Nat)
  deriving DecidableEq

/-- `software`: the instruction `int`, at the privilege level `cpl`. Otherwise the interrupt comes
from a device or is an exception, and the level of the gate is not looked at. -/
def vectoring (idt : Fin 256 → BitVec 64) (software : Bool) (cpl : BitVec 2) (v : Fin 256) :
    Vectoring :=
  let g := Gate.decode (idt v)
  if g.kind ≠ interruptGate ∧ g.kind ≠ trapGate then .exception 13
  else if software ∧ g.dpl < cpl then .exception 13
  else if g.present = false then .exception 11
  else .handler g.offset g.selector (g.kind = trapGate)

/-! ## Fields of a bit vector -/

section Append

variable {a b k l : Nat} {x : BitVec a} {y : BitVec b}

/-- A field of the upper part. -/
theorem extractLsb'_append_upper (h : b ≤ k) :
    (x ++ y).extractLsb' k l = x.extractLsb' (k - b) l := by
  apply BitVec.eq_of_getLsbD_eq
  intro i hi
  have hlt : ¬ k + i < b := by omega
  simp only [BitVec.getLsbD_extractLsb', BitVec.getLsbD_append, hi, hlt, decide_true, Bool.true_and,
    if_false]
  congr 1
  omega

/-- A field of the lower part. -/
theorem extractLsb'_append_lower (h : k + l ≤ b) :
    (x ++ y).extractLsb' k l = y.extractLsb' k l := by
  apply BitVec.eq_of_getLsbD_eq
  intro i hi
  have hlt : k + i < b := by omega
  simp only [BitVec.getLsbD_extractLsb', BitVec.getLsbD_append, hi, hlt, decide_true, Bool.true_and,
    if_true]

end Append

/-- The bytes of a gate. -/
def Gate.pack (offsetHigh : BitVec 16) (present : BitVec 1) (dpl : BitVec 2) (kind : BitVec 5)
    (zero : BitVec 8) (selector offsetLow : BitVec 16) : BitVec 64 :=
  offsetHigh ++ present ++ dpl ++ kind ++ zero ++ selector ++ offsetLow

theorem Gate.decode_pack (offsetHigh : BitVec 16) (present : BitVec 1) (dpl : BitVec 2)
    (kind : BitVec 5) (zero : BitVec 8) (selector offsetLow : BitVec 16) :
    Gate.decode (Gate.pack offsetHigh present dpl kind zero selector offsetLow) =
      ⟨offsetHigh ++ offsetLow, selector, kind, dpl, present = 1⟩ := by
  -- the width of the bytes is the sum of the widths of the fields
  let d := offsetHigh ++ present ++ dpl ++ kind ++ zero ++ selector ++ offsetLow
  have hhigh : d.extractLsb' 48 16 = offsetHigh := by
    simp (disch := omega) only [d, extractLsb'_append_upper, Nat.reduceSub,
      BitVec.extractLsb'_eq_self]
  have hpresent : d.extractLsb' 47 1 = present := by
    simp (disch := omega) only [d, extractLsb'_append_upper, extractLsb'_append_lower, Nat.reduceSub,
      BitVec.extractLsb'_eq_self]
  have hdpl : d.extractLsb' 45 2 = dpl := by
    simp (disch := omega) only [d, extractLsb'_append_upper, extractLsb'_append_lower, Nat.reduceSub,
      BitVec.extractLsb'_eq_self]
  have hkind : d.extractLsb' 40 5 = kind := by
    simp (disch := omega) only [d, extractLsb'_append_upper, extractLsb'_append_lower, Nat.reduceSub,
      BitVec.extractLsb'_eq_self]
  have hselector : d.extractLsb' 16 16 = selector := by
    simp (disch := omega) only [d, extractLsb'_append_upper, extractLsb'_append_lower, Nat.reduceSub,
      BitVec.extractLsb'_eq_self]
  have hlow : d.extractLsb' 0 16 = offsetLow := by
    simp (disch := omega) only [d, extractLsb'_append_lower, BitVec.extractLsb'_eq_self]
  rw [Gate.decode, Gate.mk.injEq]
  exact ⟨congrArg₂ (fun (x y : BitVec 16) => x ++ y) hhigh hlow, hselector, hkind, hdpl,
    congrArg (fun b : BitVec 1 => decide (b = 1)) hpresent⟩

end X86
