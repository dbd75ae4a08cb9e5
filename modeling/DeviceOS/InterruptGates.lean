import DeviceOS.Lib.Pic8259
import DeviceOS.Lib.X86.Gates
import Mathlib.Data.List.FinRange
import Mathlib.Data.List.Nodup

/-!
# DeviceOS.InterruptGates

`idt.c` with the gates of `x86_desc.h`: where each of the 256 interrupts leads.

* `IdtDesc`: the bit fields of a gate. `intIdt`: the loop over the table, and then the handlers.
* `intIdt_eq`: what is in each gate. `vectoring_eq`: where it leads.
* `interrupts_dispatched`: a program enters the kernel by `int 0x80` only, the four devices and the
  exceptions have their handlers, and no other line of the interrupt controllers has one.
-/

namespace DeviceOS

open X86 (Gate Vectoring vectoring interruptGate trapGate)

def kernelCs : BitVec 16 := 0x10

/-- The functions whose addresses are put into the table. -/
inductive Handler where
  | divideZeroException | debugException | nmiInterrupt | breakpointException | overflowException
  | boundRangeExceededException | invalidOpcodeException | deviceNotAvailableException
  | doubleFaultException | coprocessorSegmentOverrunException | invalidTssException
  | segmentNotPresentException | stackFaultException | generalProtectionException
  | pageFaultException | exceptionHandler | x87FloatingPointException | alignmentCheckException
  | machineCheckException | simdFloatingPointException
  | pitHandlerLinkage | keyboardHandlerLinkage | rtcHandlerLinkage | mouseHandlerLinkage
  | systemCallLinkage
  deriving DecidableEq

/-- `idt_desc_t`. -/
structure IdtDesc where
  offset1500 : BitVec 16
  segSelector : BitVec 16
  reserved4 : BitVec 8
  reserved3 : BitVec 1
  reserved2 : BitVec 1
  reserved1 : BitVec 1
  size : BitVec 1
  reserved0 : BitVec 1
  dpl : BitVec 2
  present : BitVec 1
  offset3116 : BitVec 16

/-- `val`: the fields from the lowest bit on, in the order of the structure. -/
def IdtDesc.val (d : IdtDesc) : BitVec 64 :=
  Gate.pack d.offset3116 d.present d.dpl
    (d.reserved0 ++ d.size ++ d.reserved1 ++ d.reserved2 ++ d.reserved3) d.reserved4 d.segSelector
    d.offset1500

/-- `SET_IDT_ENTRY`. -/
def setIdtEntry (str : IdtDesc) (handler : BitVec 32) : IdtDesc := { str with
  present := 1
  offset3116 := ((handler &&& 0xFFFF0000) >>> 16).setWidth 16
  offset1500 := (handler &&& 0xFFFF).setWidth 16 }

/-- The body of the loop. -/
def initEntry (i : Fin 256) (str : IdtDesc) : IdtDesc := { str with
  segSelector := kernelCs
  reserved4 := 0
  reserved3 := if i.val < 32 ∨ i.val = 128 then 1 else 0
  reserved2 := 1
  reserved1 := 1
  size := 1
  reserved0 := 0
  dpl := if i.val = 128 then 3 else 0
  present := 0 }

/-- The calls of `SET_IDT_ENTRY`. -/
def entries : List (Fin 256 × Handler) := [
  (0x00, .divideZeroException),
  (0x01, .debugException),
  (0x02, .nmiInterrupt),
  (0x03, .breakpointException),
  (0x04, .overflowException),
  (0x05, .boundRangeExceededException),
  (0x06, .invalidOpcodeException),
  (0x07, .deviceNotAvailableException),
  (0x08, .doubleFaultException),
  (0x09, .coprocessorSegmentOverrunException),
  (0x0A, .invalidTssException),
  (0x0B, .segmentNotPresentException),
  (0x0C, .stackFaultException),
  (0x0D, .generalProtectionException),
  (0x0E, .pageFaultException),
  (0x0F, .exceptionHandler),
  (0x10, .x87FloatingPointException),
  (0x11, .alignmentCheckException),
  (0x12, .machineCheckException),
  (0x13, .simdFloatingPointException),
  (0x20, .pitHandlerLinkage),
  (0x21, .keyboardHandlerLinkage),
  (0x28, .rtcHandlerLinkage),
  (0x2C, .mouseHandlerLinkage),
  (0x80, .systemCallLinkage)]

/-- `addr` are the addresses of the functions. -/
def intIdt (addr : Handler → BitVec 32) (idt : Fin 256 → IdtDesc) : Fin 256 → IdtDesc :=
  let idt := (List.finRange 256).foldl (fun idt i => Function.update idt i (initEntry i (idt i))) idt
  entries.foldl (fun idt e => Function.update idt e.1 (setIdtEntry (idt e.1) (addr e.2))) idt

/-! ## The table -/

section Updates

variable {α β ι : Type} [DecidableEq ι] (key : α → ι) (f : α → β → β)

/-- A loop that stores to one entry in each pass. -/
def updates (l : List α) (t : ι → β) : ι → β :=
  l.foldl (fun t a => Function.update t (key a) (f a (t (key a)))) t

variable {key f} {i : ι}

theorem updates_not_mem : ∀ {l : List α} {t : ι → β}, i ∉ l.map key → updates key f l t i = t i := by
  intro l
  induction l with
  | nil => intro t _; rfl
  | cons a l ih =>
    intro t h
    rw [List.map_cons, List.mem_cons, not_or] at h
    exact (ih h.2).trans (Function.update_of_ne h.1 ..)

/-- Each entry is stored to once. -/
theorem updates_mem : ∀ {l : List α} {t : ι → β}, (l.map key).Nodup → ∀ {a : α}, a ∈ l →
    updates key f l t (key a) = f a (t (key a)) := by
  intro l
  induction l with
  | nil => intro t _ a ha; cases ha
  | cons b l ih =>
    intro t hnodup a ha
    obtain ⟨hb, hl⟩ := List.nodup_cons.mp hnodup
    rcases List.mem_cons.mp ha with rfl | ha
    · exact (updates_not_mem hb).trans (Function.update_self ..)
    · have hne : key a ≠ key b := fun heq => hb (heq ▸ List.mem_map_of_mem ha)
      exact (ih hl ha).trans (congrArg (f a) (Function.update_of_ne hne ..))

end Updates

/-- The handler of a vector. -/
def handlerOf (v : Fin 256) : Option Handler := (entries.find? fun e => e.1 = v).map Prod.snd

variable (addr : Handler → BitVec 32) (idt : Fin 256 → IdtDesc) (v : Fin 256)

theorem handlerOf_eq_some {h : Handler} : handlerOf v = some h ↔ (v, h) ∈ entries := by
  have hkeys : (entries.map Prod.fst).Nodup := by decide
  rw [handlerOf, Option.map_eq_some_iff]
  constructor
  · rintro ⟨e, he, rfl⟩
    have hv : e.1 = v := by simpa using List.find?_some he
    rw [← hv]
    exact List.mem_of_find?_eq_some he
  · intro hmem
    cases hfind : entries.find? fun e => e.1 = v with
    | none =>
      have := List.find?_eq_none.mp hfind _ hmem
      simp at this
    | some e =>
      have hv : e.1 = v := by simpa using List.find?_some hfind
      have he := List.inj_on_of_nodup_map hkeys (List.mem_of_find?_eq_some hfind) hmem hv
      exact ⟨e, rfl, by rw [he]⟩

theorem intIdt_eq : intIdt addr idt v = match handlerOf v with
    | some h => setIdtEntry (initEntry v (idt v)) (addr h)
    | none => initEntry v (idt v) := by
  have hloop : updates id initEntry (List.finRange 256) idt v = initEntry v (idt v) :=
    updates_mem (by simpa using List.nodup_finRange 256) (List.mem_finRange v)
  have hidt : intIdt addr idt = updates Prod.fst (fun e b => setIdtEntry b (addr e.2)) entries
      (updates id initEntry (List.finRange 256) idt) := rfl
  rw [hidt]
  cases hv : handlerOf v with
  | some h =>
    have hmem := (handlerOf_eq_some v).mp hv
    refine (updates_mem (by decide) hmem).trans ?_
    rw [hloop]
  | none =>
    refine (updates_not_mem fun hmem => ?_).trans hloop
    obtain ⟨e, he, rfl⟩ := List.mem_map.mp hmem
    rw [(handlerOf_eq_some e.1).mpr he] at hv
    cases hv

/-- The two halves of an address. -/
theorem halves_append (a : BitVec 32) :
    ((a &&& 0xFFFF0000) >>> 16).setWidth 16 ++ (a &&& 0xFFFF).setWidth 16 = a := by
  have hhigh : ∀ i, i < 16 → (0xFFFF0000 : BitVec 32).getLsbD (16 + i) = true := by decide
  have hlow : ∀ i, i < 16 → (0xFFFF : BitVec 32).getLsbD i = true := by decide
  apply BitVec.eq_of_getLsbD_eq
  intro i hi
  rw [BitVec.getLsbD_append]
  by_cases h : i < 16
  · simp only [h, if_true, BitVec.getLsbD_setWidth, BitVec.getLsbD_and, hlow i h, decide_true,
      Bool.true_and, Bool.and_true]
  · have h16 : i - 16 < 16 := by omega
    have hbit := hhigh (i - 16) h16
    rw [Nat.add_sub_cancel' (Nat.le_of_not_lt h)] at hbit
    rw [if_neg h, BitVec.getLsbD_setWidth, BitVec.getLsbD_ushiftRight, BitVec.getLsbD_and,
      Nat.add_sub_cancel' (Nat.le_of_not_lt h), hbit]
    simp [h16]

/-! ## Where an interrupt leads -/

/-- The gates through which interrupts stay enabled. -/
def isTrap (v : Fin 256) : Bool := v.val < 32 ∨ v.val = 128

/-- The level from which the instruction `int` may use the gate. -/
def gateLevel (v : Fin 256) : BitVec 2 := if v.val = 128 then 3 else 0

/-- The table in memory. -/
def idtBytes (v : Fin 256) : BitVec 64 := (intIdt addr idt v).val

/-- A gate of the loop leads nowhere yet. -/
theorem decode_initEntry (d : IdtDesc) : Gate.decode (initEntry v d).val =
    ⟨d.offset3116 ++ d.offset1500, kernelCs, if isTrap v then trapGate else interruptGate,
      gateLevel v, false⟩ := by
  rw [IdtDesc.val, Gate.decode_pack, Gate.mk.injEq]
  refine ⟨rfl, rfl, ?_, rfl, rfl⟩
  by_cases hv : v.val < 32 ∨ v.val = 128
  · simp [initEntry, isTrap, hv, trapGate]
  · simp [initEntry, isTrap, hv, interruptGate]

theorem decode_setIdtEntry (d : IdtDesc) (a : BitVec 32) : Gate.decode (setIdtEntry d a).val =
    { Gate.decode d.val with offset := a, present := true } := by
  rw [IdtDesc.val, IdtDesc.val, Gate.decode_pack, Gate.decode_pack, Gate.mk.injEq]
  exact ⟨halves_append a, rfl, rfl, rfl, rfl⟩

/-- How each interrupt goes through the table. -/
theorem vectoring_eq (software : Bool) (cpl : BitVec 2) :
    vectoring (idtBytes addr idt) software cpl v =
      if software ∧ gateLevel v < cpl then .exception 13
      else match handlerOf v with
        | some h => .handler (addr h) kernelCs (isTrap v)
        | none => .exception 11 := by
  have hkind : ¬ ((if isTrap v then trapGate else interruptGate) ≠ interruptGate ∧
      (if isTrap v then trapGate else interruptGate) ≠ trapGate) := by
    cases isTrap v <;> simp
  have htrap : decide ((if isTrap v then trapGate else interruptGate) = trapGate) = isTrap v := by
    cases isTrap v <;> decide
  unfold vectoring idtBytes
  rw [intIdt_eq]
  cases handlerOf v with
  | some h =>
    simp only [decode_setIdtEntry, decode_initEntry, if_neg hkind, htrap]
    rfl
  | none =>
    simp only [decode_initEntry, if_neg hkind, if_true]

/-- The handler of a line of the interrupt controllers. -/
def lineHandler (irq : Fin 16) : Option Handler :=
  if irq = Pic8259.line 0 then some .pitHandlerLinkage
  else if irq = Pic8259.line 1 then some .keyboardHandlerLinkage
  else if irq = Pic8259.line 8 then some .rtcHandlerLinkage
  else if irq = Pic8259.line 12 then some .mouseHandlerLinkage
  else none

/-- The vector of a line, as a place in the table. -/
def lineVector (irq : Fin 16) : Fin 256 := (Pic8259.vector 0x20 0x28 irq).toFin

theorem vectoring_line (cpl : BitVec 2) (irq : Fin 16) :
    vectoring (idtBytes addr idt) false cpl (lineVector irq) =
      match lineHandler irq with
      | some h => .handler (addr h) kernelCs false
      | none => .exception 11 := by
  have hline : handlerOf (lineVector irq) = lineHandler irq ∧ isTrap (lineVector irq) = false := by
    revert irq
    decide
  rw [vectoring_eq, if_neg (by simp), hline.1, hline.2]

/-! ## Summary -/

/-- Wherever the functions are, and whatever the table held before:

* a user program that executes `int n` is in the system call handler, with interrupts as they were,
  when `n` is 0x80, and in a general protection exception otherwise;
* an interrupt of the timer, the keyboard, the clock or the mouse is in its handler with interrupts
  off, and one of any other line would be a segment exception;
* each exception from 0 to 19 is in a handler. -/
theorem interrupts_dispatched (addr : Handler → BitVec 32) (idt : Fin 256 → IdtDesc) :
    (∀ n, vectoring (idtBytes addr idt) true 3 n =
      if n = 0x80 then .handler (addr .systemCallLinkage) kernelCs true else .exception 13) ∧
    (∀ irq cpl, vectoring (idtBytes addr idt) false cpl (lineVector irq) =
      match lineHandler irq with
      | some h => .handler (addr h) kernelCs false
      | none => .exception 11) ∧
    ∀ v cpl, v.val < 20 → ∃ h, (v, h) ∈ entries ∧
      vectoring (idtBytes addr idt) false cpl v = .handler (addr h) kernelCs true := by
  refine ⟨fun n => ?_, fun irq cpl => vectoring_line addr idt cpl irq,
    fun v cpl hv => ?_⟩
  · rw [vectoring_eq]
    by_cases hn : n = 0x80
    · subst hn
      rfl
    · have hlevel : gateLevel n = 0 := if_neg fun heq => hn (Fin.ext heq)
      rw [if_neg hn, hlevel, if_pos ⟨rfl, by decide⟩]
  · have hsome : ∀ k : Fin 20, (handlerOf (k.castLE (by decide))).isSome = true := by decide
    obtain ⟨h, hh⟩ := Option.isSome_iff_exists.mp (hsome ⟨v.val, hv⟩)
    have htrap : isTrap v = true := by simp [isTrap, Nat.lt_trans hv (by omega : 20 < 32)]
    refine ⟨h, (handlerOf_eq_some v).mp hh, ?_⟩
    have hhv : handlerOf v = some h := hh
    rw [vectoring_eq, if_neg (by simp), hhv, htrap]

end DeviceOS
