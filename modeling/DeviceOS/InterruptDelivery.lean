import DeviceOS.InterruptController
import DeviceOS.InterruptGates
import Mathlib.Data.List.Infix

/-!
# DeviceOS.InterruptDelivery

The interrupts of the four devices, from the request at a controller to the `iret`, with handlers
that interrupt each other and a timer that changes between kernel stacks.

* `Device.paths`: what the handlers do to the controllers, to the interrupt flag and to the stack, on
  each path through their code. `Interrupts`: the controllers, the flag, and the handlers on each
  kernel stack. `step`: an edge at a line, the processor takes an interrupt, a handler goes on, or
  the kernel outside the handlers changes the flag, the mask or the process.
* `Disciplined`: an interrupt is in service only while interrupts are off, and the handler that runs
  still has the `send_eoi` for it before it. `Disciplined.step`: every step keeps it.
* `interrupts_delivered`: when interrupts are on, the first open line is taken, by its own handler.
* `request_kept`: a request stays until its handler is started.
-/

namespace DeviceOS

open EventSystem (Reach run run_append run_cons)
open Pic8259 (Pair Programmed line rank)
open X86 (vectoring)

/-! ## The handlers -/

/-- The devices that have a handler. -/
inductive Device where
  | pit | keyboard | rtc | mouse
  deriving DecidableEq

namespace Device

def irq : Device → Fin 16
  | pit => line 0
  | keyboard => line 1
  | rtc => line 8
  | mouse => line 12

def linkage : Device → Handler
  | pit => .pitHandlerLinkage
  | keyboard => .keyboardHandlerLinkage
  | rtc => .rtcHandlerLinkage
  | mouse => .mouseHandlerLinkage

def all : List Device := [pit, keyboard, rtc, mouse]

end Device

/-- The statements of a handler. `work` is any code that does nothing to interrupts, `schedule` the
change of stacks in `schedule`, and `execute` the `iret` of `execute` into a new shell. -/
inductive Op where
  | cli | sti | sendEoi (irq : Fin 16) | work | schedule | execute
  deriving DecidableEq

/-- The paths through the handlers. -/
def Device.paths : Device → List (List Op)
  | pit => [
    -- no other terminal
    [.sendEoi (line 0)],
    -- a process of another terminal, which goes on behind its own call of `schedule`
    [.schedule, .sendEoi (line 0)],
    -- the first shell of a terminal
    [.sendEoi (line 0), .execute, .sendEoi (line 0)],
    -- `execute` fails
    [.sendEoi (line 0), .work, .sendEoi (line 0)]]
  | keyboard => [
    -- no data
    [.cli, .sendEoi (line 1), .sti],
    [.cli, .sendEoi (line 1), .work, .sti]]
  | rtc => [[.work, .sendEoi (line 8)]]
  | mouse => [[.sendEoi (line 12), .work]]

/-! ## The system -/

/-- A handler on a stack, with the statements left, and the interrupt flag that `iret` restores. -/
structure Activation where
  device : Device
  rest : List Op
  flag : Bool
  deriving DecidableEq

/-- `active` are the handlers on the stack of the current process, the innermost first, and
`suspended` those of a process from which `schedule` has changed away. -/
structure Interrupts (T : Type) where
  pics : Pair
  flag : Bool
  current : T
  active : List Activation
  suspended : T → Option (List Activation)

/-- `accept`: the processor takes an interrupt, and its handler will go this path. `next`: the
statement of the innermost handler, or its `iret` behind the last one; `schedule` and `execute` go to
process `t`. The others are outside the handlers: `cli`, `sti`, the initialisation of a device, and
`execute` or `halt`, which go on in process `t`. -/
inductive InterruptEvent (T : Type) where
  | request (irq : Fin 16)
  | accept (path : List Op)
  | next (t : T)
  | cli
  | sti
  | enable (d : Device)
  | leave (t : T)

/-- The kernel after it was linked. -/
structure Linked where
  addr : Handler → BitVec 32
  inj : Function.Injective addr

def Linked.deviceAt (k : Linked) (a : BitVec 32) : Option Device :=
  Device.all.find? fun d => k.addr d.linkage = a

namespace Interrupts

variable {T : Type} (k : Linked) (idt : Fin 256 → IdtDesc)

/-- The processor asks the controllers for the vector and goes through the table. -/
def accept (s : Interrupts T) (path : List Op) : Option (Interrupts T) :=
  if s.flag then
    s.pics.acknowledge.bind fun (v, pics) =>
      match vectoring (idtBytes k.addr idt) false 0 v.toFin with
      | .handler a _ trap => (k.deviceAt a).bind fun d =>
        if path ∈ d.paths then
          some { s with pics := pics, flag := trap, active := ⟨d, path, true⟩ :: s.active }
        else none
      | .exception _ => none
  else none

/-- The handlers on the stack when the current process is changed away from. -/
def suspend [DecidableEq T] (s : Interrupts T) (as : List Activation) (t : T) : T → Option (List Activation) :=
  Function.update (Function.update s.suspended s.current (some as)) t none

def exec [DecidableEq T] (s : Interrupts T) (a : Activation) (below : List Activation) (t : T) :
    Op → Option (Interrupts T)
  | .cli => some { s with flag := false, active := a :: below }
  | .sti => some { s with flag := true, active := a :: below }
  | .sendEoi irq => (sendEoi (irqNum irq) s.pics).map fun pics =>
    { s with pics := pics, active := a :: below }
  | .work => some { s with active := a :: below }
  | .schedule => if t = s.current then none else
    (s.suspended t).map fun as =>
      { s with current := t, active := as, suspended := s.suspend (a :: below) t }
  | .execute => if t = s.current then none else
    some { s with current := t, flag := true, active := [], suspended := s.suspend (a :: below) t }

def next [DecidableEq T] (s : Interrupts T) (t : T) : Option (Interrupts T) :=
  match s.active with
  | [] => none
  | a :: below =>
    match a.rest with
    | [] => some { s with flag := a.flag, active := below }
    | op :: rest => s.exec { a with rest := rest } below t op

def step [DecidableEq T] (s : Interrupts T) : InterruptEvent T → Option (Interrupts T)
  | .request irq => some { s with pics := s.pics.raise irq }
  | .accept path => s.accept k idt path
  | .next t => s.next t
  | .cli => if s.active = [] then some { s with flag := false } else none
  | .sti => if s.active = [] then some { s with flag := true } else none
  | .enable d => if s.active = [] then
      (enableIrq (irqNum d.irq) s.pics).map fun pics => { s with pics := pics }
    else none
  | .leave t => if s.active = [] then
      some { s with current := t, suspended := Function.update s.suspended t none }
    else none

/-- `i8259_init` has returned. -/
structure Start (s : Interrupts T) : Prop where
  pics : ∃ p, i8259Init p = some s.pics
  flag : s.flag = false
  active : s.active = []
  suspended : ∀ t, s.suspended t = none

/-! ## Which interrupts are in service -/

/-- These statements send the `send_eoi` for a line before interrupts are on again. -/
def acks (l : Fin 16) : List Op → Bool
  | [] => false
  | .sendEoi irq :: rest => irq = l || acks l rest
  | .sti :: _ => false
  | .execute :: _ => false
  | _ :: rest => acks l rest

/-- Each handler sends the `send_eoi` for its own line. -/
theorem paths_acks (d : Device) : ∀ path ∈ d.paths, acks d.irq path = true := by
  cases d <;> decide

/-- What is left of a path. -/
def OnPath (a : Activation) : Prop := ∃ path ∈ a.device.paths, a.rest <:+ path

/-- A handler that was left in `schedule` still has the `send_eoi` of the timer before it. -/
theorem after_schedule {a : Activation} {rest : List Op} (h : OnPath a)
    (hrest : a.rest = .schedule :: rest ∨ a.rest = .execute :: rest) :
    a.device = .pit ∧ rest = [.sendEoi 0] := by
  have hall : ∀ d : Device, ∀ path ∈ d.paths, ∀ l ∈ path.tails, ∀ op ∈ [Op.schedule, .execute],
      l.head? = some op → d = .pit ∧ l.tail = [.sendEoi 0] := by
    intro d
    cases d <;> decide
  obtain ⟨path, hpath, hsuffix⟩ := h
  have hl := hall a.device path hpath a.rest ((List.mem_tails _ _).mpr hsuffix)
  rcases hrest with hrest | hrest
  · rw [hrest] at hl
    exact hl .schedule (by simp) rfl
  · rw [hrest] at hl
    exact hl .execute (by simp) rfl

/-- In every reachable state. -/
structure Disciplined (s : Interrupts T) : Prop where
  programmed : Programmed s.pics 0x20 0x28
  cascade : s.pics.masked 2 = false
  enabled : ∀ irq, s.pics.masked irq = false → irq = 2 ∨ ∃ d : Device, d.irq = irq
  service : (∀ irq, s.pics.inService irq = false) ∨
    s.flag = false ∧ ∃ a below l, s.active = a :: below ∧ acks l a.rest = true ∧
      ∀ irq, s.pics.inService irq = true → irq = l ∨ irq = 2 ∧ 8 ≤ l.val
  onPath : ∀ a ∈ s.active, OnPath a
  suspended : ∀ t as, s.suspended t = some as →
    (∃ f below, as = ⟨.pit, [.sendEoi 0], f⟩ :: below) ∧ ∀ a ∈ as, OnPath a

variable {k idt} {s s' : Interrupts T}

/-- With interrupts on, nothing is in service. -/
theorem Disciplined.idle (h : Disciplined s) (hflag : s.flag = true) (irq : Fin 16) :
    s.pics.inService irq = false := by
  rcases h.service with hidle | ⟨hoff, _⟩
  · exact hidle irq
  · rw [hoff] at hflag
    cases hflag

/-! ## The processor takes an interrupt -/

theorem deviceAt_linkage (k : Linked) (d : Device) : k.deviceAt (k.addr d.linkage) = some d := by
  have hiff : ∀ e : Device, k.addr e.linkage = k.addr d.linkage ↔ e = d := by
    intro e
    rw [k.inj.eq_iff]
    cases e <;> cases d <;> decide
  unfold Linked.deviceAt
  simp only [hiff]
  cases d <;> rfl

theorem lineHandler_irq (d : Device) : lineHandler d.irq = some d.linkage := by
  cases d <;> rfl

/-- The state in which the handler of a device begins. -/
def entered (s : Interrupts T) (pics : Pair) (d : Device) (path : List Op) : Interrupts T :=
  { s with pics := pics, flag := false, active := ⟨d, path, true⟩ :: s.active }

/-- The first open line is that of a device, and its handler begins. -/
theorem Disciplined.accept (h : Disciplined s) (hflag : s.flag = true)
    (hopen : ∃ irq, s.pics.Open irq) :
    ∃ (d : Device) (pics : Pair), s.pics.Open d.irq ∧
      (∀ irq, s.pics.Open irq → rank d.irq ≤ rank irq) ∧ Pic8259.Taken s.pics pics d.irq ∧
      Programmed pics 0x20 0x28 ∧
      ∀ path, s.accept k idt path = if path ∈ d.paths then some (s.entered pics d path) else none := by
  obtain ⟨irq, pics, hack, hirq, hfirst, htaken, hprog⟩ :=
    Pic8259.acknowledge_of_idle h.programmed (h.idle hflag) h.cascade hopen
  obtain ⟨d, rfl⟩ : ∃ d : Device, d.irq = irq := (h.enabled irq hirq.2.1).resolve_left hirq.2.2
  refine ⟨d, pics, hirq, hfirst, htaken, hprog, fun path => ?_⟩
  have hvector : (Pic8259.vector 0x20 0x28 d.irq).toFin = lineVector d.irq := rfl
  rw [Interrupts.accept, if_pos hflag, hack, Option.bind_some]
  simp only [hvector, vectoring_line, lineHandler_irq, deviceAt_linkage, Option.bind_some]
  rfl

/-- What it means that an interrupt was taken. -/
theorem Disciplined.accept_some (h : Disciplined s) {path : List Op}
    (hs : s.accept k idt path = some s') :
    ∃ (d : Device) (pics : Pair), path ∈ d.paths ∧ Pic8259.Taken s.pics pics d.irq ∧
      Programmed pics 0x20 0x28 ∧ s.flag = true ∧ s' = s.entered pics d path := by
  have hflag : s.flag = true := by
    unfold Interrupts.accept at hs
    split at hs
    · assumption
    · cases hs
  by_cases hopen : ∃ irq, s.pics.Open irq
  · obtain ⟨d, pics, _, _, htaken, hprog, haccept⟩ := @Disciplined.accept T k idt s h hflag hopen
    rw [haccept] at hs
    split at hs
    · cases hs
      exact ⟨d, pics, ‹_›, htaken, hprog, hflag, rfl⟩
    · cases hs
  · rw [Interrupts.accept, if_pos hflag,
      Pic8259.acknowledge_of_not_open h.programmed (h.idle hflag) h.cascade hopen] at hs
    cases hs

theorem Disciplined.accept_step (h : Disciplined s) {path : List Op}
    (hs : s.accept k idt path = some s') : Disciplined s' := by
  obtain ⟨d, pics, hpath, htaken, hprog, hflag, rfl⟩ := h.accept_some hs
  have hmasked : pics.masked = s.pics.masked := htaken.masked
  refine ⟨hprog, ?_, ?_, Or.inr ⟨rfl, ⟨d, path, true⟩, s.active, d.irq, rfl, paths_acks d path hpath,
    fun irq hirq => ?_⟩, fun a ha => ?_, h.suspended⟩
  · exact (congrFun hmasked 2).trans h.cascade
  · intro irq hirq
    exact h.enabled irq ((congrFun hmasked irq).symm.trans hirq)
  · have hnow : pics.inService irq = true := hirq
    rw [htaken.inService, h.idle hflag] at hnow
    simpa using hnow
  · rcases List.mem_cons.mp ha with rfl | ha
    · exact ⟨path, hpath, List.suffix_refl _⟩
    · exact h.onPath a ha

/-! ## A handler goes on -/

section Next

variable {a : Activation} {below : List Activation} {op : Op} {rest : List Op}

/-- The statements behind the next one are on the same path. -/
theorem onPath_tail (h : OnPath a) (hrest : a.rest = op :: rest) :
    OnPath { a with rest := rest } := by
  obtain ⟨path, hpath, hsuffix⟩ := h
  refine ⟨path, hpath, (List.suffix_cons op rest).trans ?_⟩
  rwa [← hrest]

/-- Nothing is in service, or the handler that runs has the `send_eoi` before it. -/
theorem Disciplined.service_of_active (h : Disciplined s) (hactive : s.active = a :: below) :
    (∀ irq, s.pics.inService irq = false) ∨ s.flag = false ∧ ∃ l, acks l a.rest = true ∧
      ∀ irq, s.pics.inService irq = true → irq = l ∨ irq = 2 ∧ 8 ≤ l.val := by
  rcases h.service with hidle | ⟨hoff, b, bs, l, hb, hacks, hl⟩
  · exact Or.inl hidle
  · rw [hactive] at hb
    obtain ⟨rfl, _⟩ := List.cons.inj hb
    exact Or.inr ⟨hoff, l, hacks, hl⟩

/-- A handler that will not send its `send_eoi` any more has sent it. -/
theorem Disciplined.idle_of_not_acks (h : Disciplined s) (hactive : s.active = a :: below)
    (hacks : ∀ l, acks l a.rest = false) (irq : Fin 16) : s.pics.inService irq = false := by
  rcases h.service_of_active hactive with hidle | ⟨_, l, hl, _⟩
  · exact hidle irq
  · rw [hacks] at hl
    cases hl

/-- The stacks of the processes that are not running, after a change of the process. -/
theorem Disciplined.suspend [DecidableEq T] (h : Disciplined s) (hactive : s.active = a :: below)
    (hrest : a.rest = .schedule :: rest ∨ a.rest = .execute :: rest) (t u : T)
    {as : List Activation}
    (hu : s.suspend ({ a with rest := rest } :: below) t u = some as) :
    (∃ f below, as = ⟨.pit, [.sendEoi 0], f⟩ :: below) ∧ ∀ b ∈ as, OnPath b := by
  have ha : OnPath a := h.onPath a (by simp [hactive])
  obtain ⟨hpit, hlast⟩ := after_schedule ha hrest
  unfold Interrupts.suspend at hu
  by_cases hut : u = t
  · rw [hut, Function.update_self] at hu
    cases hu
  · rw [Function.update_of_ne hut] at hu
    by_cases huc : u = s.current
    · rw [huc, Function.update_self] at hu
      cases hu
      refine ⟨⟨a.flag, below, by rw [hlast, ← hpit]⟩, fun b hb => ?_⟩
      rcases List.mem_cons.mp hb with rfl | hb
      · rcases hrest with hrest | hrest
        · exact onPath_tail ha hrest
        · exact onPath_tail ha hrest
      · exact h.onPath b (by simp [hactive, hb])
    · rw [Function.update_of_ne huc] at hu
      exact h.suspended u as hu

theorem Disciplined.exec_step [DecidableEq T] (h : Disciplined s) (hactive : s.active = a :: below)
    (hrest : a.rest = op :: rest) {t : T}
    (hs : s.exec { a with rest := rest } below t op = some s') : Disciplined s' := by
  have htail : ∀ b ∈ { a with rest := rest } :: below, OnPath b := by
    intro b hb
    rcases List.mem_cons.mp hb with rfl | hb
    · exact onPath_tail (h.onPath a (by simp [hactive])) hrest
    · exact h.onPath b (by simp [hactive, hb])
  have hservice := h.service_of_active hactive
  rw [hrest] at hservice
  cases op with
  | cli =>
    cases hs
    refine ⟨h.programmed, h.cascade, h.enabled, ?_, htail, h.suspended⟩
    exact hservice.imp_right fun ⟨_, l, hl, hlines⟩ => ⟨rfl, _, below, l, rfl, hl, hlines⟩
  | work =>
    cases hs
    refine ⟨h.programmed, h.cascade, h.enabled, ?_, htail, h.suspended⟩
    exact hservice.imp_right fun ⟨hoff, l, hl, hlines⟩ => ⟨hoff, _, below, l, rfl, hl, hlines⟩
  | sti =>
    cases hs
    exact ⟨h.programmed, h.cascade, h.enabled,
      Or.inl (h.idle_of_not_acks hactive fun l => by rw [hrest]; rfl), htail, h.suspended⟩
  | sendEoi irq =>
    rw [exec, sendEoi_eq, Option.map_some] at hs
    cases hs
    refine ⟨h.programmed.finish irq, ?_, ?_, ?_, htail, h.suspended⟩
    · simpa using h.cascade
    · simpa using h.enabled
    · rcases hservice with hidle | ⟨hoff, l, hl, hlines⟩
      · refine Or.inl fun j => ?_
        simp [Pair.inService_finish, hidle]
      · by_cases heq : irq = l
        · -- this is the `send_eoi` for the line in service
          refine Or.inl fun j => ?_
          rw [Pair.inService_finish, heq]
          cases hj : s.pics.inService j with
          | false => rfl
          | true => simp [hlines j hj]
        · refine Or.inr ⟨hoff, _, below, l, rfl, by simpa [acks, heq] using hl, fun j hj => ?_⟩
          rw [Pair.inService_finish] at hj
          exact hlines j (by simp_all)
  | schedule =>
    rw [exec] at hs
    split at hs
    · cases hs
    · obtain ⟨as, hsusp, hs⟩ := Option.map_eq_some_iff.mp hs
      subst hs
      obtain ⟨⟨f, bs, rfl⟩, honpath⟩ := h.suspended t as hsusp
      obtain ⟨_, hlast⟩ := after_schedule (h.onPath a (by simp [hactive])) (Or.inl hrest)
      refine ⟨h.programmed, h.cascade, h.enabled, ?_, honpath,
        fun u as hu => h.suspend hactive (Or.inl hrest) t u hu⟩
      refine hservice.imp_right fun ⟨hoff, l, hl, hlines⟩ => ⟨hoff, _, bs, l, rfl, ?_, hlines⟩
      rw [hlast] at hl
      exact hl
  | execute =>
    rw [exec] at hs
    split at hs
    · cases hs
    · cases hs
      exact ⟨h.programmed, h.cascade, h.enabled,
        Or.inl (h.idle_of_not_acks hactive fun l => by rw [hrest]; rfl), by simp,
        fun u as hu => h.suspend hactive (Or.inr hrest) t u hu⟩

theorem Disciplined.next_step [DecidableEq T] (h : Disciplined s) {t : T} (hs : s.next t = some s') :
    Disciplined s' := by
  unfold Interrupts.next at hs
  cases hactive : s.active with
  | nil => simp [hactive] at hs
  | cons a below =>
    simp only [hactive] at hs
    cases hrest : a.rest with
    | nil =>
      simp only [hrest, Option.some.injEq] at hs
      subst hs
      exact ⟨h.programmed, h.cascade, h.enabled,
        Or.inl (h.idle_of_not_acks hactive fun l => by rw [hrest]; rfl),
        fun b hb => h.onPath b (by simp [hactive, hb]), h.suspended⟩
    | cons op rest =>
      simp only [hrest] at hs
      exact h.exec_step hactive hrest hs

end Next

/-! ## Every step -/

/-- Outside the handlers nothing is in service. -/
theorem Disciplined.idle_of_nil (h : Disciplined s) (hactive : s.active = []) (irq : Fin 16) :
    s.pics.inService irq = false := by
  rcases h.service with hidle | ⟨_, a, below, _, ha, _⟩
  · exact hidle irq
  · rw [hactive] at ha
    cases ha

theorem Disciplined.step [DecidableEq T] (h : Disciplined s) {e : InterruptEvent T}
    (hs : s.step k idt e = some s') : Disciplined s' := by
  cases e with
  | request irq =>
    cases hs
    refine ⟨h.programmed.onChip (f := Pic8259.Chip.raise) (fun _ _ => ⟨rfl, rfl, rfl, rfl⟩) irq, ?_,
      ?_, ?_, h.onPath, h.suspended⟩
    · simpa using h.cascade
    · simpa using h.enabled
    · simpa using h.service
  | accept path => exact h.accept_step hs
  | next t => exact h.next_step hs
  | cli =>
    simp only [Interrupts.step] at hs
    split at hs
    · cases hs
      exact ⟨h.programmed, h.cascade, h.enabled, Or.inl (h.idle_of_nil ‹_›), h.onPath, h.suspended⟩
    · cases hs
  | sti =>
    simp only [Interrupts.step] at hs
    split at hs
    · cases hs
      exact ⟨h.programmed, h.cascade, h.enabled, Or.inl (h.idle_of_nil ‹_›), h.onPath, h.suspended⟩
    · cases hs
  | enable d =>
    simp only [Interrupts.step, enableIrq_eq h.programmed] at hs
    split at hs
    · cases hs
      refine ⟨h.programmed.onChip (f := Pic8259.Chip.unmask) (fun _ _ => ⟨rfl, rfl, rfl, rfl⟩) d.irq,
        ?_, fun irq hirq => ?_, Or.inl fun irq => ?_, h.onPath, h.suspended⟩
      · rw [Pair.masked_unmask, h.cascade]
        rfl
      · rw [Pair.masked_unmask] at hirq
        by_cases heq : irq = d.irq
        · exact Or.inr ⟨d, heq.symm⟩
        · exact h.enabled irq (by simpa [heq] using hirq)
      · rw [Pair.inService_unmask]
        exact h.idle_of_nil ‹_› irq
    · cases hs
  | leave t =>
    simp only [Interrupts.step] at hs
    split at hs
    · cases hs
      refine ⟨h.programmed, h.cascade, h.enabled, Or.inl (h.idle_of_nil ‹_›), h.onPath,
        fun u as hu => ?_⟩
      by_cases hut : u = t
      · simp [hut] at hu
      · exact h.suspended u as (by simpa [hut] using hu)
    · cases hs

theorem Start.disciplined (h : Start s) : Disciplined s := by
  obtain ⟨p, hp⟩ := h.pics
  rw [i8259Init_eq, Option.some.injEq] at hp
  have hmasked : ∀ irq, s.pics.masked irq = decide (irq ≠ 2) := by
    rw [← hp]
    exact masked_initialised
  refine ⟨by rw [← hp]; exact programmed_initialised, by rw [hmasked]; rfl, fun irq hirq => ?_,
    Or.inl fun irq => ?_, by simp [h.active], by simp [h.suspended]⟩
  · rw [hmasked] at hirq
    exact Or.inl (by simpa using hirq)
  · rw [← hp]
    revert irq
    decide

theorem reach_disciplined [DecidableEq T] (h : Reach (step k idt) Start (fun _ _ => True) s) :
    Disciplined s :=
  h.inv (fun _ => Start.disciplined) fun _ _ _ hi _ hs => hi.step hs

/-- In every reachable state, whatever has interrupted what: an interrupt is in service only while
interrupts are off, and then the innermost handler of the running process still has its `send_eoi`
before it. So when interrupts are on, nothing is in service, and if a device has a request that is
not masked, the processor takes the first one in the order of the controllers: its own handler
begins, with interrupts off, its request is gone and all others are kept. -/
theorem interrupts_delivered (T : Type) [DecidableEq T] (k : Linked) (idt : Fin 256 → IdtDesc)
    (s : Interrupts T) (h : Reach (step k idt) Start (fun _ _ => True) s) :
    (∀ irq, s.pics.inService irq = true → s.flag = false ∧ ∃ a below l, s.active = a :: below ∧
      acks l a.rest = true ∧ (irq = l ∨ irq = 2 ∧ 8 ≤ l.val)) ∧
    (s.flag = true → (∃ irq, s.pics.Open irq) →
      ∃ d : Device, s.pics.Open d.irq ∧ (∀ irq, s.pics.Open irq → rank d.irq ≤ rank irq) ∧
        ∀ path ∈ d.paths, ∃ s', step k idt s (.accept path) = some s' ∧ s'.flag = false ∧
          s'.active = ⟨d, path, true⟩ :: s.active ∧
          ∀ irq, irq ≠ 2 → s'.pics.requested irq = (s.pics.requested irq && decide (irq ≠ d.irq))) := by
  have hdisc := reach_disciplined h
  constructor
  · intro irq hirq
    rcases hdisc.service with hidle | ⟨hoff, a, below, l, hactive, hacks, hlines⟩
    · rw [hidle] at hirq
      cases hirq
    · exact ⟨hoff, a, below, l, hactive, hacks, hlines irq hirq⟩
  · intro hflag hopen
    obtain ⟨d, pics, hd, hfirst, htaken, _, haccept⟩ := @Disciplined.accept T k idt s hdisc hflag hopen
    refine ⟨d, hd, hfirst, fun path hpath => ⟨s.entered pics d path, ?_, rfl, rfl, ?_⟩⟩
    · exact (haccept path).trans (if_pos hpath)
    · exact htaken.requested

/-! ### A concrete machine -/

/-- Each handler at the place of its entry. -/
def place (h : Handler) : BitVec 32 := BitVec.ofNat 32 ((entries.map Prod.snd).idxOf h)

theorem place_injective : Function.Injective place := by
  have hinv : ∀ h, (entries.map Prod.snd)[(place h).toNat]? = some h := by
    intro h
    cases h <;> rfl
  intro a b hab
  have ha := hinv a
  rw [hab, hinv b] at ha
  exact (Option.some.inj ha).symm

def linkedKernel : Linked := ⟨place, place_injective⟩

def emptyIdt (_ : Fin 256) : IdtDesc := ⟨0, 0, 0, 0, 0, 0, 0, 0, 0, 0, 0⟩

def quiet (terminal : T) : Interrupts T := ⟨initialised, false, terminal, [], fun _ => none⟩

theorem start_quiet (terminal : T) : Start (quiet terminal) :=
  ⟨⟨initialised, i8259Init_eq initialised⟩, rfl, rfl, fun _ => rfl⟩

/-- The clock and then the timer have a request. -/
def twoRequests : List (InterruptEvent T) :=
  [.enable .pit, .enable .rtc, .sti, .request (line 8), .request (line 0)]

theorem interrupts_delivered_first : ∃ (s : Interrupts (Fin 3)) (d : Device), s.flag = true ∧
    s.pics.Open d.irq ∧ rank d.irq ≤ rank 0 ∧ ∀ path ∈ d.paths, ∃ s',
      step linkedKernel emptyIdt s (.accept path) = some s' ∧
        s'.active = ⟨d, path, true⟩ :: s.active := by
  have hrun : (run (step linkedKernel emptyIdt) (quiet (0 : Fin 3)) twoRequests).map
      (fun s => (s.flag, s.pics.requested 0, s.pics.masked 0)) = some (true, true, false) := by
    decide +kernel
  obtain ⟨s, hs, hstate⟩ := Option.map_eq_some_iff.mp hrun
  obtain ⟨hflag, hrequested, hmasked⟩ : s.flag = true ∧ s.pics.requested 0 = true ∧
      s.pics.masked 0 = false := by
    simpa using hstate
  have hopen : s.pics.Open 0 := ⟨hrequested, hmasked, by decide⟩
  obtain ⟨d, hd, hfirst, hpaths⟩ := (interrupts_delivered (Fin 3) linkedKernel emptyIdt s
    (.of_any (.init (start_quiet 0)) hs)).2 hflag ⟨0, hopen⟩
  refine ⟨s, d, hflag, hd, hfirst 0 hopen, fun path hpath => ?_⟩
  obtain ⟨s', hstep, _, hactive, _⟩ := hpaths path hpath
  exact ⟨s', hstep, hactive⟩

/-! ## No request is lost -/

/-- The statements of a handler leave the requests alone. -/
theorem exec_requested [DecidableEq T] {a : Activation} {below : List Activation} {t : T} {op : Op}
    (hs : s.exec a below t op = some s') : s'.pics.requested = s.pics.requested := by
  cases op with
  | cli => cases hs; rfl
  | sti => cases hs; rfl
  | work => cases hs; rfl
  | sendEoi irq =>
    rw [exec, sendEoi_eq, Option.map_some] at hs
    cases hs
    exact Pair.requested_finish s.pics irq
  | schedule =>
    rw [exec] at hs
    split at hs
    · cases hs
    · obtain ⟨as, _, rfl⟩ := Option.map_eq_some_iff.mp hs
      rfl
  | execute =>
    rw [exec] at hs
    split at hs
    · cases hs
    · cases hs
      rfl

theorem next_requested [DecidableEq T] {t : T} (hs : s.next t = some s') :
    s'.pics.requested = s.pics.requested := by
  unfold Interrupts.next at hs
  split at hs
  · cases hs
  · split at hs
    · cases hs
      rfl
    · exact exec_requested hs

/-- One step: a request stays, or its handler begins. -/
theorem Disciplined.request_step [DecidableEq T] (h : Disciplined s) {e : InterruptEvent T}
    (hs : s.step k idt e = some s') {irq : Fin 16} (h2 : irq ≠ 2)
    (hirq : s.pics.requested irq = true) :
    s'.pics.requested irq = true ∨ ∃ d path, d.irq = irq ∧ e = .accept path ∧
      s'.active = ⟨d, path, true⟩ :: s.active := by
  have hsame : s'.pics.requested = s.pics.requested → s'.pics.requested irq = true := fun heq =>
    (congrFun heq irq).trans hirq
  cases e with
  | request j =>
    cases hs
    left
    simp [Pair.requested_raise, hirq]
  | accept path =>
    obtain ⟨d, pics, _, htaken, _, _, rfl⟩ := h.accept_some hs
    by_cases hd : d.irq = irq
    · exact Or.inr ⟨d, path, hd, rfl, rfl⟩
    · left
      have hkept := htaken.requested irq h2
      rw [hirq] at hkept
      exact hkept.trans (by simp [Ne.symm hd])
  | next t => exact Or.inl (hsame (next_requested hs))
  | enable d =>
    simp only [Interrupts.step, enableIrq_eq h.programmed] at hs
    split at hs
    · cases hs
      exact Or.inl (hsame (Pair.requested_unmask s.pics d.irq))
    · cases hs
  | cli =>
    simp only [Interrupts.step] at hs
    split at hs
    · cases hs
      exact Or.inl hirq
    · cases hs
  | sti =>
    simp only [Interrupts.step] at hs
    split at hs
    · cases hs
      exact Or.inl hirq
    · cases hs
  | leave t =>
    simp only [Interrupts.step] at hs
    split at hs
    · cases hs
      exact Or.inl hirq
    · cases hs

/-- In every run from a reachable state in which line `irq` is requested: it is still requested at the
end, or the handler of its device was started on the way. -/
theorem request_kept (T : Type) [DecidableEq T] (k : Linked) (idt : Fin 256 → IdtDesc)
    (s s' : Interrupts T) (h : Reach (step k idt) Start (fun _ _ => True) s) (irq : Fin 16)
    (h2 : irq ≠ 2) (hirq : s.pics.requested irq = true) (es : List (InterruptEvent T))
    (hrun : run (step k idt) s es = some s') :
    s'.pics.requested irq = true ∨
      ∃ (d : Device) (path : List Op) (before after : List (InterruptEvent T))
        (s₁ s₂ : Interrupts T), d.irq = irq ∧ es = before ++ .accept path :: after ∧
          run (step k idt) s before = some s₁ ∧ step k idt s₁ (.accept path) = some s₂ ∧
          s₂.active = ⟨d, path, true⟩ :: s₁.active := by
  induction es generalizing s with
  | nil =>
    cases hrun
    exact Or.inl hirq
  | cons e es ih =>
    obtain ⟨s₁, hstep, hrest⟩ := run_cons.mp hrun
    rcases (reach_disciplined h).request_step hstep h2 hirq with hstill | ⟨d, path, hd, rfl, hactive⟩
    · rcases ih s₁ (.step h trivial hstep) hstill hrest with hend |
        ⟨d, path, before, after, t₁, t₂, hd, rfl, hbefore, haccept, hactive⟩
      · exact Or.inl hend
      · exact Or.inr ⟨d, path, e :: before, after, t₁, t₂, hd, rfl,
          run_cons.mpr ⟨s₁, hstep, hbefore⟩, haccept, hactive⟩
    · exact Or.inr ⟨d, path, [], es, s, s₁, hd, rfl, rfl, hstep, hactive⟩

/-- While the timer is served, the clock keeps its request. -/
theorem request_kept_clock : ∃ s s' : Interrupts (Fin 3), s.pics.requested 8 = true ∧
    run (step linkedKernel emptyIdt) s [.accept [.sendEoi 0], .next 0, .next 0] = some s' ∧
    (s'.pics.requested 8 = true ∨
      ∃ (d : Device) (path : List Op) (before after : List (InterruptEvent (Fin 3)))
        (s₁ s₂ : Interrupts (Fin 3)), d.irq = 8 ∧
          [.accept [.sendEoi 0], .next 0, .next 0] = before ++ .accept path :: after ∧
          run (step linkedKernel emptyIdt) s before = some s₁ ∧
          step linkedKernel emptyIdt s₁ (.accept path) = some s₂ ∧
          s₂.active = ⟨d, path, true⟩ :: s₁.active) := by
  have hrun : (run (step linkedKernel emptyIdt) (quiet (0 : Fin 3))
      (twoRequests ++ [.accept [.sendEoi 0], .next 0, .next 0])).isSome = true := by
    decide +kernel
  obtain ⟨s', hs'⟩ := Option.isSome_iff_exists.mp hrun
  obtain ⟨s, hs, hrest⟩ := run_append.mp hs'
  have hrequested : (run (step linkedKernel emptyIdt) (quiet (0 : Fin 3)) twoRequests).map
      (fun s => s.pics.requested 8) = some true := by
    decide +kernel
  rw [hs, Option.map_some, Option.some.injEq] at hrequested
  have hreach : Reach (step linkedKernel emptyIdt) Start (fun _ _ => True) s :=
    .of_any (.init (start_quiet 0)) hs
  exact ⟨s, s', hrequested, hrest,
    request_kept (Fin 3) linkedKernel emptyIdt s s' hreach 8 (by decide) hrequested _ hrest⟩

end Interrupts
end DeviceOS
