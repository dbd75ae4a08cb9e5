import DeviceOS.Lib.X86.Memory
import Mathlib.Logic.Relation

/-!
# Lib.X86.Machine

A part of the 32-bit x86 instruction set, with operands in the order of the GNU assembler (source
first): what string functions, interrupt handlers and system call wrappers use.

* `State`, `Instr`, `exec`: the processor and one instruction. `none`: an access to an address that
  is not mapped, or a string instruction whose two segments differ.
* `step env code`: the instruction at `pc`, an index into `code`. `Steps`: any number of steps.
* `Env`: what is outside of `code`: functions by their address, and where vector 0x80 leads.
* `holds_sub`, `holds_logic`: the conditional jumps after a comparison and after a test.
-/

namespace X86

inductive Reg where
  | eax | ecx | edx | ebx | esp | ebp | esi | edi
  deriving DecidableEq

inductive Seg where
  | cs | ss | ds | es
  deriving DecidableEq

structure Flags where
  cf : Bool
  zf : Bool
  sf : Bool
  of : Bool
  df : Bool
  if' : Bool
  deriving DecidableEq

structure State where
  regs : Reg → W
  flags : Flags
  seg : Seg → BitVec 16
  mem : Mem
  pc : Nat

/-- A memory operand `disp(base, index, scale)`. -/
structure Addr where
  disp : W
  base : Option Reg
  index : Option (Reg × W)

inductive Operand where
  | reg (r : Reg)
  | imm (n : W)
  | mem (a : Addr)

inductive AluOp where
  | add | sub | and | or | cmp | test
  deriving DecidableEq

inductive Cc where
  | e | ae | l | g
  deriving DecidableEq

/-- `label` is the place of a label in the code; it does nothing. `L` are the labels. -/
inductive Instr (L : Type) where
  | label (l : L)
  | movl (src dst : Operand)
  | movb (src dst : Operand)
  | leal (src : Addr) (dst : Reg)
  | movFromSeg (src : Seg) (dst : Reg)
  | movToSeg (src : Reg) (dst : Seg)
  | alu (op : AluOp) (src dst : Operand)
  | shrl (n : Nat) (dst : Reg)
  | jmp (l : L)
  | jcc (c : Cc) (l : L)
  | cld
  | std
  /-- `rep stos` and `rep movs` on units of `n` bytes. -/
  | repStos (n : Nat)
  | repMovs (n : Nat)
  | pushl (src : Operand)
  | popl (dst : Reg)
  | pushfl
  | popfl
  | call (f : W)
  | callAt (a : Addr)
  | ret
  | int80
  | iret

/-! ## Flags -/

namespace Flags

def logic (f : Flags) (r : W) : Flags :=
  { f with cf := false, of := false, zf := r == 0, sf := r.msb }

def add (f : Flags) (a b : W) : Flags :=
  { f with
    cf := decide (2 ^ 32 ≤ a.toNat + b.toNat)
    zf := a + b == 0
    sf := (a + b).msb
    of := decide ((a + b).toInt ≠ a.toInt + b.toInt) }

/-- The flags of `a - b`. -/
def sub (f : Flags) (a b : W) : Flags :=
  { f with
    cf := decide (a.toNat < b.toNat)
    zf := a - b == 0
    sf := (a - b).msb
    of := decide ((a - b).toInt ≠ a.toInt - b.toInt) }

def bit (b : Bool) (n : Nat) : W := if b then 1 <<< n else 0

/-- The bits of EFLAGS; bit 1 is always set. -/
def word (f : Flags) : W :=
  2 ||| bit f.cf 0 ||| bit f.zf 6 ||| bit f.sf 7 ||| bit f.if' 9 ||| bit f.df 10 ||| bit f.of 11

def ofWord (w : W) : Flags :=
  ⟨w.getLsbD 0, w.getLsbD 6, w.getLsbD 7, w.getLsbD 11, w.getLsbD 10, w.getLsbD 9⟩

@[simp] theorem ofWord_word (f : Flags) : ofWord f.word = f := by
  obtain ⟨cf, zf, sf, of, df, if'⟩ := f
  cases cf <;> cases zf <;> cases sf <;> cases of <;> cases df <;> cases if' <;> rfl

def holds (f : Flags) : Cc → Bool
  | .e => f.zf
  | .ae => !f.cf
  | .l => f.sf != f.of
  | .g => !f.zf && (f.sf == f.of)

theorem sub_beq_zero (a b : W) : (a - b == 0) = decide (a = b) := by
  rw [Bool.eq_iff_iff, beq_iff_eq, decide_eq_true_iff]
  constructor
  · intro h
    have := add_toNat_sub b a
    rw [h] at this
    simpa [ofN_zero] using this.symm
  · rintro rfl
    exact BitVec.sub_self a

/-- The signed order from the sign of the difference and the overflow. -/
theorem sub_sign (a b : W) :
    ((a - b).msb != decide ((a - b).toInt ≠ a.toInt - b.toInt)) = decide (a.toInt < b.toInt) := by
  have ha := a.toInt_lt
  have ha' := a.le_toInt
  have hb := b.toInt_lt
  have hb' := b.le_toInt
  have hd := (a - b).toInt_lt
  have hd' := (a - b).le_toInt
  have hmod : (a - b).toInt % 2 ^ 32 = (a.toInt - b.toInt) % 2 ^ 32 := by
    have : (a - b).toInt = (a.toInt - b.toInt).bmod (2 ^ 32) := BitVec.toInt_sub
    rw [this]
    exact Int.bmod_emod
  rw [BitVec.msb_eq_toInt]
  by_cases h : (a - b).toInt = a.toInt - b.toInt
  · rw [decide_eq_false (not_not.mpr h), Bool.bne_false]
    exact decide_eq_decide.mpr (by omega)
  · rw [decide_eq_true h, Bool.bne_true, ← decide_not]
    exact decide_eq_decide.mpr (by omega)

theorem holds_sub_ae (f : Flags) (a b : W) :
    (f.sub a b).holds .ae = decide (b.toNat ≤ a.toNat) := by
  simp only [holds, sub, ← decide_not, Nat.not_lt]

theorem holds_sub_l (f : Flags) (a b : W) :
    (f.sub a b).holds .l = decide (a.toInt < b.toInt) := sub_sign a b

theorem holds_sub_g (f : Flags) (a b : W) :
    (f.sub a b).holds .g = decide (b.toInt < a.toInt) := by
  have hl := sub_sign a b
  simp only [holds, sub, sub_beq_zero]
  have hge : ((a - b).msb == decide ((a - b).toInt ≠ a.toInt - b.toInt)) =
      decide (b.toInt ≤ a.toInt) := by
    have hbool : ∀ x y : Bool, (x == y) = !(x != y) := by decide
    rw [hbool, hl, ← decide_not]
    exact decide_eq_decide.mpr Int.not_lt
  rw [hge, ← decide_not, ← Bool.decide_and]
  refine decide_eq_decide.mpr ⟨fun ⟨hne, hle⟩ => ?_, fun hlt => ⟨?_, by omega⟩⟩
  · have : b.toInt ≠ a.toInt := fun h => hne (BitVec.eq_of_toInt_eq h.symm)
    omega
  · rintro rfl
    omega

theorem holds_logic_e (f : Flags) (r : W) : (f.logic r).holds .e = decide (r = 0) := by
  rw [holds, logic, Bool.eq_iff_iff, beq_iff_eq, decide_eq_true_iff]

end Flags

/-! ## Instructions -/

/-- The upper half of a register stays when its lower half is loaded. -/
def setLow16 (old : W) (v : BitVec 16) : W := old >>> 16 <<< 16 ||| v.setWidth 32

@[simp] theorem setLow16_setWidth (old : W) (v : BitVec 16) :
    (setLow16 old v).setWidth 16 = v := by
  ext i hi
  simp [setLow16]

/-- The lowest byte of a register when only that byte is loaded. -/
@[simp] theorem low8_setWidth (old : W) (b : Byte) :
    (old >>> 8 <<< 8 ||| b.setWidth 32).setWidth 8 = b := by
  ext i hi
  simp

namespace State

def set (s : State) (r : Reg) (w : W) : State := { s with regs := Function.update s.regs r w }
def adv (s : State) : State := { s with pc := s.pc + 1 }
def setFlags (s : State) (f : Flags) : State := { s with flags := f }

@[simp] theorem set_self (s : State) (r : Reg) (w : W) : (s.set r w).regs r = w :=
  Function.update_self ..
theorem set_of_ne (s : State) {r q : Reg} (w : W) (h : q ≠ r) : (s.set r w).regs q = s.regs q :=
  Function.update_of_ne h ..
@[simp] theorem set_flags (s : State) (r : Reg) (w : W) : (s.set r w).flags = s.flags := rfl
@[simp] theorem set_seg (s : State) (r : Reg) (w : W) : (s.set r w).seg = s.seg := rfl
@[simp] theorem set_mem (s : State) (r : Reg) (w : W) : (s.set r w).mem = s.mem := rfl
@[simp] theorem set_pc (s : State) (r : Reg) (w : W) : (s.set r w).pc = s.pc := rfl
@[simp] theorem adv_regs (s : State) : s.adv.regs = s.regs := rfl
@[simp] theorem adv_flags (s : State) : s.adv.flags = s.flags := rfl
@[simp] theorem adv_seg (s : State) : s.adv.seg = s.seg := rfl
@[simp] theorem adv_mem (s : State) : s.adv.mem = s.mem := rfl
@[simp] theorem adv_pc (s : State) : s.adv.pc = s.pc + 1 := rfl
@[simp] theorem setFlags_regs (s : State) (f : Flags) : (s.setFlags f).regs = s.regs := rfl
@[simp] theorem setFlags_flags (s : State) (f : Flags) : (s.setFlags f).flags = f := rfl
@[simp] theorem setFlags_seg (s : State) (f : Flags) : (s.setFlags f).seg = s.seg := rfl
@[simp] theorem setFlags_mem (s : State) (f : Flags) : (s.setFlags f).mem = s.mem := rfl
@[simp] theorem setFlags_pc (s : State) (f : Flags) : (s.setFlags f).pc = s.pc := rfl

def ea (s : State) (a : Addr) : W :=
  a.disp + (a.base.map s.regs).getD 0 + (a.index.map fun i => s.regs i.1 * i.2).getD 0

@[simp] theorem ea_base (s : State) (r : Reg) : s.ea ⟨0, some r, none⟩ = s.regs r := by
  simp [ea]

def read (s : State) : Operand → Option W
  | .reg r => some (s.regs r)
  | .imm n => some n
  | .mem a => (s.mem.load (s.ea a) 4).map ofBytes

def write (s : State) (w : W) : Operand → Option State
  | .reg r => some (s.set r w)
  | .imm _ => none
  | .mem a => (s.mem.store (s.ea a) (bytesOf w)).map fun m => { s with mem := m }

/-- A byte operand; a register stands for its lowest byte. -/
def readByte (s : State) : Operand → Option Byte
  | .reg r => some ((s.regs r).setWidth 8)
  | .imm n => some (n.setWidth 8)
  | .mem a => s.mem (s.ea a)

def writeByte (s : State) (b : Byte) : Operand → Option State
  | .reg r => some (s.set r (s.regs r >>> 8 <<< 8 ||| b.setWidth 32))
  | .imm _ => none
  | .mem a => (s.mem.store (s.ea a) [b]).map fun m => { s with mem := m }

def push (s : State) (w : W) : Option State :=
  let sp := s.regs .esp - 4
  (s.mem.store sp (bytesOf w)).map fun m => { s.set .esp sp with mem := m }

def pop (s : State) : Option (W × State) :=
  (s.mem.load (s.regs .esp) 4).map fun bs => (ofBytes bs, s.set .esp (s.regs .esp + 4))

/-- An index register of a string instruction after `n` bytes. -/
def stride (s : State) (r : Reg) (n : Nat) : W :=
  if s.flags.df then s.regs r - ofN n else s.regs r + ofN n

def alu (s : State) (op : AluOp) (a b : W) : W × Flags :=
  match op with
  | .add => (b + a, s.flags.add b a)
  | .sub | .cmp => (b - a, s.flags.sub b a)
  | .and | .test => (b &&& a, s.flags.logic (b &&& a))
  | .or => (b ||| a, s.flags.logic (b ||| a))

/-- The privilege level is 3. -/
def user (s : State) : Bool := s.seg .cs &&& 3 == 3

theorem user_iff {s : State} : s.user = true ↔ s.seg .cs &&& 3 = 3 := beq_iff_eq

end State

structure Env where
  func : W → State → Option State
  gate : Nat
  kernelCs : BitVec 16
  esp0 : W
  ss0 : BitVec 16

def Instr.isLabel {L : Type} [DecidableEq L] (l : L) : Instr L → Bool
  | .label l' => l == l'
  | _ => false

/-- Where a jump to `l` leads. -/
def target {L : Type} [DecidableEq L] (code : List (Instr L)) (l : L) : Nat :=
  code.findIdx (Instr.isLabel l)

section Code

variable {L : Type} {code : List (Instr L)}

/-- The instructions `is` stand at `p`. -/
def CodeAt (code : List (Instr L)) (p : Nat) (is : List (Instr L)) : Prop := is <+: code.drop p

theorem CodeAt.head {p : Nat} {i : Instr L} {is : List (Instr L)} (h : CodeAt code p (i :: is)) :
    code[p]? = some i := by
  obtain ⟨t, ht⟩ := h
  have := congrArg (fun l => l[0]?) ht
  simpa using this.symm

theorem CodeAt.tail {p : Nat} {i : Instr L} {is : List (Instr L)} (h : CodeAt code p (i :: is)) :
    CodeAt code (p + 1) is := by
  obtain ⟨t, ht⟩ := h
  refine ⟨t, ?_⟩
  rw [← List.drop_drop, ← ht]
  rfl

end Code

section Step

variable {L : Type} [DecidableEq L] (env : Env) (code : List (Instr L))

/-- The stack switch of an interrupt that comes from user mode. -/
def switchStack (s : State) : Option State :=
  if s.user then
    let s1 := { s.set .esp env.esp0 with seg := Function.update s.seg .ss env.ss0 }
    (s1.push ((s.seg .ss).setWidth 32)).bind fun s2 => s2.push (s.regs .esp)
  else some s

/-- An interrupt or exception with the handler at `gate`; `eip` is where it returns to. A trap gate
leaves the interrupt flag as it is. -/
def deliver (gate : Nat) (trap : Bool) (eip : W) (s : State) : Option State :=
  (switchStack env s).bind fun s1 =>
  (s1.push s.flags.word).bind fun s2 =>
  (s2.push ((s.seg .cs).setWidth 32)).bind fun s3 =>
  (s3.push eip).map fun s4 =>
    { s4 with
      seg := Function.update s4.seg .cs env.kernelCs
      flags := { s4.flags with if' := trap && s4.flags.if' }
      pc := gate }

/-- `iret` with the three words that it always pops. -/
def returnTo (s : State) (pc cs flags : W) : State :=
  { s with
    pc := pc.toNat, flags := .ofWord flags, seg := Function.update s.seg .cs (cs.setWidth 16) }

/-- The switch back to the stack of user mode. -/
def leaveKernel (s : State) : Option State :=
  s.pop.bind fun esp => esp.2.pop.map fun ss =>
    { ss.2.set .esp esp.1 with seg := Function.update ss.2.seg .ss (ss.1.setWidth 16) }

/-- `iret` executed in state `s`, with the first three words popped in `s1`. -/
def finishIret (s s1 : State) : Option State :=
  if s1.user && !s.user then leaveKernel s1 else some s1

def iret (s : State) : Option State :=
  s.pop.bind fun pc => pc.2.pop.bind fun cs => cs.2.pop.bind fun flags =>
    finishIret s (returnTo flags.2 pc.1 cs.1 flags.1)

/-- One round of a string instruction; `bytes` are what it stores. -/
def stringRound (s : State) (n : Nat) (bytes : List Byte) (next : State → State) : Option State :=
  if s.seg .es = s.seg .ds then
    (s.mem.store (s.regs .edi) bytes).map fun m =>
      next ({ s with mem := m }.set .edi (s.stride .edi n) |>.set .ecx (s.regs .ecx - 1))
  else none

def exec (s : State) : Instr L → Option State
  | .label _ => some s.adv
  | .movl src dst => (s.read src).bind fun w => (s.write w dst).map State.adv
  | .movb src dst => (s.readByte src).bind fun b => (s.writeByte b dst).map State.adv
  | .leal src dst => some (s.set dst (s.ea src)).adv
  | .movFromSeg src dst => some (s.set dst (setLow16 (s.regs dst) (s.seg src))).adv
  | .movToSeg src dst =>
    some { s.adv with seg := Function.update s.seg dst ((s.regs src).setWidth 16) }
  | .alu op src dst =>
    (s.read src).bind fun a => (s.read dst).bind fun b =>
      let r := s.alu op a b
      match op with
      | .cmp | .test => some (s.setFlags r.2).adv
      | _ => (s.write r.1 dst).map fun s1 => (s1.setFlags r.2).adv
  | .shrl n dst =>
    let r := s.regs dst >>> n
    some ((s.set dst r).setFlags
      { s.flags with cf := (s.regs dst).getLsbD (n - 1), zf := r == 0, sf := r.msb }).adv
  | .jmp l => some { s with pc := target code l }
  | .jcc c l => some (if s.flags.holds c then { s with pc := target code l } else s.adv)
  | .cld => some (s.setFlags { s.flags with df := false }).adv
  | .std => some (s.setFlags { s.flags with df := true }).adv
  | .repStos n =>
    if s.regs .ecx = 0 then some s.adv
    else stringRound s n ((bytesOf (s.regs .eax)).take n) id
  | .repMovs n =>
    if s.regs .ecx = 0 then some s.adv
    else (s.mem.load (s.regs .esi) n).bind fun bytes =>
      stringRound s n bytes fun s1 => s1.set .esi (s.stride .esi n)
  | .pushl src => (s.read src).bind fun w => (s.push w).map State.adv
  | .popl dst => s.pop.map fun (w, s1) => (s1.set dst w).adv
  | .pushfl => (s.push s.flags.word).map State.adv
  | .popfl => s.pop.map fun (w, s1) => (s1.setFlags (.ofWord w)).adv
  | .call f => (s.push (ofN (s.pc + 1))).bind (env.func f)
  | .callAt a =>
    (s.mem.load (s.ea a) 4).bind fun f => (s.push (ofN (s.pc + 1))).bind (env.func (ofBytes f))
  | .ret => s.pop.map fun (w, s1) => { s1 with pc := w.toNat }
  | .int80 => deliver env env.gate true (ofN (s.pc + 1)) s
  | .iret => iret s

def step (s : State) : Option State := code[s.pc]?.bind (exec env code s)

def Steps : State → State → Prop := Relation.ReflTransGen fun s s' => step env code s = some s'

variable {env code} {s s1 s2 : State}

theorem exec_jcc_true {c : Cc} {l : L} (h : s.flags.holds c = true) :
    exec env code s (.jcc c l) = some { s with pc := target code l } := by
  rw [exec, if_pos h]

theorem exec_jcc_false {c : Cc} {l : L} (h : s.flags.holds c = false) :
    exec env code s (.jcc c l) = some s.adv := by
  rw [exec, if_neg (by rw [h]; simp)]

theorem Steps.refl (s : State) : Steps env code s s := Relation.ReflTransGen.refl

theorem Steps.trans (h1 : Steps env code s s1) (h2 : Steps env code s1 s2) : Steps env code s s2 :=
  Relation.ReflTransGen.trans h1 h2

/-- One instruction, then the others. -/
theorem Steps.next {i : Instr L} (hi : code[s.pc]? = some i) (he : exec env code s i = some s1)
    (h : Steps env code s1 s2) : Steps env code s s2 := by
  refine Relation.ReflTransGen.head ?_ h
  rw [step, hi]
  exact he

theorem Steps.one {i : Instr L} (hi : code[s.pc]? = some i) (he : exec env code s i = some s1) :
    Steps env code s s1 := Steps.next hi he (.refl s1)

/-- Only the flags and `pc` differ. -/
structure Same (s s' : State) : Prop where
  mem : s'.mem = s.mem
  regs : s'.regs = s.regs
  seg : s'.seg = s.seg

end Step
end X86
