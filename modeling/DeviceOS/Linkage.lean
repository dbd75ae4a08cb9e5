import DeviceOS.Lib.X86.Interrupts

/-!
# DeviceOS.Linkage

`assembly_linkage.S` and the system call wrappers of `ece391syscall.S`: the code between a program,
the processor and the C functions of the kernel.

* `handler f`: `CREATE_HANDLER`. `handler_transparent`: what an interrupt breaks into goes on with
  the same registers, flags and segments.
* `wrapper number`, `systemCallLinkage table`: a system call from the program to the jump table.
  `system_call_round_trip`, `system_call_fails`: the kernel function gets the program's arguments
  and the program its result, or -1 when there is no such function.
-/

namespace DeviceOS

open X86

namespace Linkage

inductive Label where
  | fail | done
  deriving DecidableEq

/-- `CREATE_HANDLER name, func`. -/
def handler (func : W) : List (Instr Label) := [
  .pushl (.reg .eax),
  .pushl (.reg .ebp),
  .pushl (.reg .edi),
  .pushl (.reg .esi),
  .pushl (.reg .edx),
  .pushl (.reg .ecx),
  .pushl (.reg .ebx),
  .pushfl,
  .call func,
  .popfl,
  .popl .ebx,
  .popl .ecx,
  .popl .edx,
  .popl .esi,
  .popl .edi,
  .popl .ebp,
  .popl .eax,
  .iret]

/-- `jumptable` is at address `table`. -/
def systemCallLinkage (table : W) : List (Instr Label) := [
  .alu .cmp (.imm 1) (.reg .eax),
  .jcc .l .fail,
  .alu .cmp (.imm 10) (.reg .eax),
  .jcc .g .fail,
  .pushl (.reg .ebp),
  .pushl (.reg .edi),
  .pushl (.reg .esi),
  .pushl (.reg .edx),
  .pushl (.reg .ecx),
  .pushl (.reg .ebx),
  .callAt ⟨table, none, some (.eax, 4)⟩,
  .jmp .done,
  .label .fail,
  .alu .or (.imm 0xFFFFFFFF) (.reg .eax),
  .iret,
  .label .done,
  .popl .ebx,
  .popl .ecx,
  .popl .edx,
  .popl .esi,
  .popl .edi,
  .popl .ebp,
  .iret]

def stackArg (disp : W) : Operand := .mem ⟨disp, some .esp, none⟩

/-- `DO_CALL(name,number)`. -/
def wrapper (number : W) : List (Instr Label) := [
  .pushl (.reg .ebx),
  .movl (.imm number) (.reg .eax),
  .movl (stackArg 8) (.reg .ebx),
  .movl (stackArg 12) (.reg .ecx),
  .movl (stackArg 16) (.reg .edx),
  .int80,
  .popl .ebx,
  .ret]

/-- A wrapper and, behind it, the kernel's entry. -/
def callCode (number table : W) : List (Instr Label) := wrapper number ++ systemCallLinkage table

open State

variable {env : Env} {f : W} {s : State} {ws : List W}

/-! ## Interrupts -/

def pushOrder : List Reg := [.eax, .ebp, .edi, .esi, .edx, .ecx, .ebx]

theorem regs_ext {s s' : State} (hmap : pushOrder.reverse.map s'.regs = pushOrder.reverse.map s.regs)
    (hsp : s'.regs .esp = s.regs .esp) : s'.regs = s.regs := by
  have h := List.map_inj_left.mp hmap
  funext r
  cases r with
  | esp => exact hsp
  | _ => exact h _ (by simp [pushOrder])

/-- `f` follows the C calling convention; it has no arguments. -/
def IsHandler (env : Env) (f : W) : Prop :=
  ∀ {s : State} {ret : W} {ws : List W}, s.Stack (ret :: ws) →
    ∃ s', env.func f s = some s' ∧ Returned s s' ret [] ws

/-- From the first instruction of a handler to its `iret`. -/
theorem handler_run (hf : IsHandler env f) (hpc : s.pc = 0) (hst : s.Stack ws) (hroom : s.Room 36)
    (hlen : 4 * (ws.length + 9) ≤ 2 ^ 32) :
    ∃ s', Steps env (handler f) s s' ∧ s'.pc = 17 ∧ s'.Stack ws ∧ s'.regs = s.regs ∧
      s'.flags = s.flags ∧ s'.seg = s.seg := by
  have hpush : CodeAt (handler f) s.pc (pushOrder.map fun r => .pushl (.reg r)) := by
    rw [hpc]
    exact ⟨_, rfl⟩
  obtain ⟨s1, hs1, hpc1, h1⟩ := push_regs env (n := 8) pushOrder (by simp [pushOrder]) hpush hst
    hroom (by simp [pushOrder]; omega)
  have hpc1 : s1.pc = 7 := hpc1.trans (by rw [hpc]; rfl)
  let s2 := (s1.pushed s1.flags.word).adv
  have hexec2 : exec env (handler f) s1 .pushfl = some s2 := by
    rw [exec, Room.push (n := 4) h1.room]
    rfl
  let s3 := s2.pushed (ofN (s2.pc + 1))
  have hlen1 : (pushOrder.map s.regs).reverse.length = 7 := by simp [pushOrder]
  have hst2 : s2.Stack (s1.flags.word :: ((pushOrder.map s.regs).reverse ++ ws)) :=
    (h1.stack.pushed (by rw [List.length_append, hlen1]; omega) _).congr rfl rfl
  have hroom2 : s2.Room (0 + 4) := (Room.pushed (n := 4) h1.room s1.flags.word).congr rfl rfl
  have hst3 : s3.Stack (ofN (s2.pc + 1) :: s1.flags.word ::
      ((pushOrder.map s.regs).reverse ++ ws)) :=
    hst2.pushed (by rw [List.length_cons, List.length_append, hlen1]; omega) _
  obtain ⟨s4, hcall, hret⟩ := hf hst3
  have hexec3 : exec env (handler f) s2 (.call f) = some s4 := by
    rw [exec, hroom2.push, Option.bind_some]
    exact hcall
  have hpc2 : s2.pc = 8 := by rw [adv_pc]; exact congrArg (· + 1) hpc1
  have hpc4 : s4.pc = 9 := by rw [hret.pc, hpc2]; rfl
  obtain ⟨args, hargs, hst4⟩ := hret.stack
  obtain rfl : args = [] := List.length_eq_zero_iff.mp hargs
  let s5 := (s4.popped.setFlags s1.flags).adv
  have hexec5 : exec env (handler f) s4 .popfl = some s5 := by
    rw [exec, Stack.pop hst4, Option.map_some]
    simp only [Flags.ofWord_word]
    rfl
  have hst5 : s5.Stack ((pushOrder.map s.regs).reverse ++ ws) := hst4.popped.congr rfl rfl
  have hpc5 : s5.pc = 10 := by rw [adv_pc]; exact congrArg (· + 1) hpc4
  have hpop : CodeAt (handler f) s5.pc (pushOrder.reverse.map .popl) := by
    rw [hpc5]
    exact ⟨_, rfl⟩
  obtain ⟨s6, hs6, hpc6, h6, _, hsp6, hmap6, _⟩ := pop_regs env pushOrder.reverse
    (by simp [pushOrder]) (by simp [pushOrder]) hpop (by simp) hst5
  have hsp : s6.regs .esp = s.regs .esp := by
    have h3 : s3.regs .esp = s1.regs .esp - 4 - 4 := by
      rw [pushed_esp]
      exact congrArg (· - 4) (pushed_esp s1 s1.flags.word)
    have h5 : s5.regs .esp = s4.regs .esp + 4 := set_self s4 .esp _
    rw [hsp6, h5, hret.esp, h3, h1.esp, BitVec.sub_add_cancel, BitVec.sub_add_cancel]
    exact BitVec.sub_add_cancel ..
  refine ⟨s6, hs1.trans (.next (by rw [hpc1]; rfl) hexec2 (.next (by rw [hpc2]; rfl) hexec3
    (.next (by rw [hpc4]; rfl) hexec5 hs6))), ?_, h6.stack, ?_, ?_, ?_⟩
  · rw [hpc6, hpc5]
    rfl
  · exact regs_ext (by rw [hmap6, List.map_reverse]) hsp
  · exact h6.flags.trans h1.flags
  · rw [h6.seg]
    exact hret.seg.trans h1.seg

/-- A kernel whose functions return at once, and a program over memory that is all zero. -/
def returning : Env :=
  ⟨fun _ s => s.pop.map fun p => { p.2 with pc := p.1.toNat }, 8, 0x10, 0x800000, 0x18⟩

def program : State where
  regs r := if r = .esp then 0x83FFF00 else 0
  seg g := if g = .cs then 0x23 else 0x2B
  flags := ⟨false, false, false, false, false, true⟩
  mem _ := some 0
  pc := 0

theorem returning_handler : IsHandler returning f := by
  intro s ret ws hst
  refine ⟨{ s.popped with pc := ret.toNat }, ?_, rfl, set_self s .esp _, ⟨[], rfl, ?_⟩, ?_, rfl⟩
  · exact congrArg (Option.map fun p => { p.2 with pc := p.1.toNat }) hst.pop
  · exact hst.popped.congr rfl rfl
  · intro r hr
    have hne : r ≠ .esp := by
      rintro rfl
      simp at hr
    exact set_of_ne s (s.regs .esp + 4) hne

variable {number table : W}

/-- A program in user mode calls a wrapper with the arguments `a`, `b` and `c`; there is room for
the kernel's part on a stack apart from the two words `ebx` and `ret` that the wrapper needs. -/
structure Calling (env : Env) (s : State) (ret a b c : W) (ws : List W) : Prop where
  pc : s.pc = 0
  user : s.user = true
  stack : s.Stack (ret :: a :: b :: c :: ws)
  room : s.Room 4
  kernelStack : s.mem.Mapped (env.esp0 - ofN 48) 48
  apart : Apart (env.esp0 - ofN 48) 48 (s.regs .esp - 4) 8
  gate : env.gate = 8
  kernelCs : env.kernelCs &&& 3 ≠ 3
  short : 4 * (ws.length + 5) ≤ 2 ^ 32

/-- The two words that the wrapper finds again. -/
def wrapperFrame (s : State) (ret : W) : List Byte := wordBytes [s.regs .ebx, ret]

theorem wrapperFrame_length (s : State) (ret : W) : (wrapperFrame s ret).length = 8 := by
  rw [wrapperFrame, wordBytes_length]
  rfl

/-- The program's registers that a wrapper does not use. -/
def Unused (r : Reg) : Prop := r = .esi ∨ r = .edi ∨ r = .ebp

/-- What `int` pushes in a wrapper that was called in state `s`. -/
def trapFrame (s : State) : List W :=
  [6, (s.seg .cs).setWidth 32, s.flags.word, s.regs .esp - 4, (s.seg .ss).setWidth 32]

/-- `s'` is in the kernel, behind the `int` of a wrapper that was called in state `s`. -/
structure InKernel (env : Env) (number : W) (s s' : State) (ret a b c : W) : Prop where
  eax : s'.regs .eax = number
  ebx : s'.regs .ebx = a
  ecx : s'.regs .ecx = b
  edx : s'.regs .edx = c
  unused : ∀ r, Unused r → s'.regs r = s.regs r
  stack : s'.Stack (trapFrame s)
  room : s'.Room 28
  esp : s'.regs .esp = env.esp0 - ofN 20
  cs : s'.seg .cs = env.kernelCs
  seg : ∀ g, g ≠ .cs → g ≠ .ss → s'.seg g = s.seg g
  frame : s'.mem.Holds (s.regs .esp - 4) (wrapperFrame s ret)
  keeps : ∀ x, 4 ≤ (x - (s.regs .esp - 4)).toNat → 48 ≤ (x - (env.esp0 - ofN 48)).toNat →
    s'.mem x = s.mem x

theorem read_stackArg {w : W} {k : Nat} {disp : W} (h : s.Stack ws) (hd : disp = ofN (4 * k))
    (hk : ws[k]? = some w) : s.read (stackArg disp) = some w := by
  obtain ⟨hlt, hget⟩ := List.getElem?_eq_some_iff.mp hk
  have hea : s.ea ⟨disp, some .esp, none⟩ = s.regs .esp + ofN (4 * k) := by
    simp [ea, hd, BitVec.add_comm]
  rw [stackArg, State.read, hea, h.load hlt, hget, Option.map_some, ofBytes_bytesOf]

/-- From the first instruction of a wrapper to the first one of the kernel. -/
theorem wrapper_enter {ret a b c : W} (h : Calling env s ret a b c ws) :
    ∃ s', Steps env (callCode number table) s s' ∧ s'.pc = 8 ∧
      InKernel env number s s' ret a b c := by
  have hshort := h.short
  have hroom : s.Room (0 + 4) := h.room
  let s1 := (s.pushed (s.regs .ebx)).adv
  have hst1 : s1.Stack (s.regs .ebx :: ret :: a :: b :: c :: ws) :=
    (h.stack.pushed (by simp only [List.length_cons]; omega) (s.regs .ebx)).congr rfl rfl
  let s2 := (s1.set .eax number).adv
  let s3 := (s2.set .ebx a).adv
  let s4 := (s3.set .ecx b).adv
  let s5 := (s4.set .edx c).adv
  have hst2 : s2.Stack (s.regs .ebx :: ret :: a :: b :: c :: ws) := hst1.congr rfl rfl
  have hst3 : s3.Stack (s.regs .ebx :: ret :: a :: b :: c :: ws) := hst1.congr rfl rfl
  have hst4 : s4.Stack (s.regs .ebx :: ret :: a :: b :: c :: ws) := hst1.congr rfl rfl
  have hread3 : s2.read (stackArg 8) = some a := read_stackArg hst2 (k := 2) rfl rfl
  have hread4 : s3.read (stackArg 12) = some b := read_stackArg hst3 (k := 3) rfl rfl
  have hread5 : s4.read (stackArg 16) = some c := read_stackArg hst4 (k := 4) rfl rfl
  have step1 : exec env (callCode number table) s (.pushl (.reg .ebx)) = some s1 := by
    rw [exec, State.read, Option.bind_some, hroom.push]
    rfl
  have step3 : exec env (callCode number table) s2 (.movl (stackArg 8) (.reg .ebx)) = some s3 := by
    rw [exec, hread3]
    rfl
  have step4 : exec env (callCode number table) s3 (.movl (stackArg 12) (.reg .ecx)) = some s4 := by
    rw [exec, hread4]
    rfl
  have step5 : exec env (callCode number table) s4 (.movl (stackArg 16) (.reg .edx)) = some s5 := by
    rw [exec, hread5]
    rfl
  have hpc5 : s5.pc = 5 := congrArg (· + 5) h.pc
  have hsp5 : s5.regs .esp = s.regs .esp - 4 := pushed_esp s (s.regs .ebx)
  have hkmap : s5.mem.Mapped (env.esp0 - ofN (28 + 20)) (28 + 20) := by
    have hr := h.room
    have h4 : ofN 4 = 4 := rfl
    rw [Room, h4] at hr
    exact Mem.Mapped.overwrite h.kernelStack hr
  obtain ⟨s6, hd, he, hsp6, hk6⟩ := deliver_user env env.gate true (ofN (s5.pc + 1))
    (n := 28) (s := s5) h.user hkmap
  have hframe5 : s5.mem.Holds (s.regs .esp - 4) (wrapperFrame s ret) := by
    have hst5 : s5.Stack (s.regs .ebx :: ret :: a :: b :: c :: ws) := hst1.congr rfl rfl
    have hsplit : wordBytes (s.regs .ebx :: ret :: a :: b :: c :: ws) =
        wrapperFrame s ret ++ wordBytes (a :: b :: c :: ws) := by
      simp [wrapperFrame, wordBytes]
    rw [Stack, hsp5, hsplit] at hst5
    exact hst5.left
  have hat : ∀ {t : State} (k : Nat), t.pc = s.pc + k →
      (callCode number table)[t.pc]? = (callCode number table)[k]? := by
    intro t k ht
    rw [ht, h.pc, Nat.zero_add]
  have hsteps : Steps env (callCode number table) s s6 :=
    .next (hat 0 rfl) step1 <| .next (hat 1 rfl) rfl <| .next (hat 2 rfl) step3 <|
      .next (hat 3 rfl) step4 <| .next (hat 4 rfl) step5 <| .one (hat 5 rfl) hd
  have hst6 := he.stack
  rw [hsp5, hpc5] at hst6
  refine ⟨s6, hsteps, he.pc.trans h.gate, ⟨?_, ?_, ?_, ?_, fun r hr => ?_, hst6, he.room, hsp6,
    he.cs, he.seg, ?_, fun x hx1 hx2 => ?_⟩⟩
  · rw [he.regs _ (by simp)]
    simp [s5, s4, s3, s2, State.set]
  · rw [he.regs _ (by simp)]
    simp [s5, s4, s3, State.set]
  · rw [he.regs _ (by simp)]
    simp [s5, s4, State.set]
  · rw [he.regs _ (by simp)]
    simp [s5, State.set]
  · rcases hr with rfl | rfl | rfl <;>
    · rw [he.regs _ (by simp)]
      simp [s5, s4, s3, s2, s1, pushed, State.set]
  · refine hk6.holds hframe5 ?_ ?_
    · rw [wrapperFrame_length]
      exact h.apart
    · rw [wrapperFrame_length]
      decide
  · rw [hk6 x hx2]
    exact Mem.overwrite_outside s.mem hx1

/-- The comparisons of `%eax` with the first and the last number. -/
theorem range_check (hpc : s.pc = 8) :
    ∃ s', Steps env (callCode number table) s s' ∧ Same s s' ∧
      s'.pc = if 1 ≤ (s.regs .eax).toInt ∧ (s.regs .eax).toInt ≤ 10 then 12 else 20 := by
  let s1 := (s.setFlags (s.flags.sub (s.regs .eax) 1)).adv
  let s2 := s1.adv
  let s3 := (s2.setFlags (s2.flags.sub (s2.regs .eax) 10)).adv
  have hat : ∀ {t : State} (k : Nat), t.pc = s.pc + k →
      (callCode number table)[t.pc]? = (callCode number table)[8 + k]? := by
    intro t k ht
    rw [ht, hpc]
  have hl : s1.flags.holds .l = decide ((s.regs .eax).toInt < 1) := Flags.holds_sub_l ..
  have hg : s3.flags.holds .g = decide (10 < (s.regs .eax).toInt) := Flags.holds_sub_g ..
  by_cases h1 : (s.regs .eax).toInt < 1
  · rw [decide_eq_true h1] at hl
    rw [if_neg (by omega)]
    exact ⟨{ s1 with pc := 20 }, .next (hat 0 rfl) rfl <| .one (hat 1 rfl) (exec_jcc_true hl),
      ⟨rfl, rfl, rfl⟩, rfl⟩
  · rw [decide_eq_false h1] at hl
    by_cases h10 : 10 < (s.regs .eax).toInt
    · rw [decide_eq_true h10] at hg
      rw [if_neg (by omega)]
      exact ⟨{ s3 with pc := 20 }, .next (hat 0 rfl) rfl <|
        .next (hat 1 rfl) (exec_jcc_false hl) <| .next (hat 2 rfl) rfl <|
        .one (hat 3 rfl) (exec_jcc_true hg), ⟨rfl, rfl, rfl⟩, rfl⟩
    · rw [decide_eq_false h10] at hg
      rw [if_pos (by omega)]
      exact ⟨s3.adv, .next (hat 0 rfl) rfl <| .next (hat 1 rfl) (exec_jcc_false hl) <|
        .next (hat 2 rfl) rfl <| .one (hat 3 rfl) (exec_jcc_false hg), ⟨rfl, rfl, rfl⟩,
        congrArg (· + 4) hpc⟩

/-- What the program has when the wrapper returns: only EAX, ECX, EDX and memory may differ. -/
structure BackFrom (s s' : State) (ret : W) : Prop where
  pc : s'.pc = ret.toNat
  esp : s'.regs .esp = s.regs .esp + 4
  saved : ∀ r, r = .ebx ∨ Unused r → s'.regs r = s.regs r
  flags : s'.flags = s.flags
  seg : s'.seg = s.seg

/-- From an `iret` of the kernel to the return of the wrapper that was called in state `s`. -/
theorem wrapper_leave {ret : W} {s1 : State} (hu : s.user = true)
    (hi : (callCode number table)[s1.pc]? = some .iret) (hst : s1.Stack (trapFrame s))
    (hcs : s1.seg .cs &&& 3 ≠ 3) (hseg : ∀ g, g ≠ .cs → g ≠ .ss → s1.seg g = s.seg g)
    (hreg : ∀ r, Unused r → s1.regs r = s.regs r)
    (hframe : s1.mem.Holds (s.regs .esp - 4) (wrapperFrame s ret)) :
    ∃ s', Steps env (callCode number table) s1 s' ∧ BackFrom s s' ret ∧
      s'.regs .eax = s1.regs .eax ∧ s'.mem = s1.mem := by
  have hu1 : s1.user = false := by
    rw [Bool.eq_false_iff, ne_eq, user_iff]
    exact hcs
  obtain ⟨s2, hiret, hpc2, hfl2, hsp2, hreg2, hcs2, hss2, hseg2, hmem2⟩ :=
    iret_user hst hu1 (user_iff.mp hu)
  have hpc2 : s2.pc = 6 := hpc2
  have hst2 : s2.Stack [s.regs .ebx, ret] := by
    rw [Stack, hsp2, hmem2]
    exact hframe
  let s3 := (s2.popped.set .ebx (s.regs .ebx)).adv
  have step3 : exec env (callCode number table) s2 (.popl .ebx) = some s3 := by
    rw [exec, hst2.pop]
    rfl
  have hst3 : s3.Stack [ret] := hst2.popped.congr rfl rfl
  let s4 := { s3.popped with pc := ret.toNat }
  have step4 : exec env (callCode number table) s3 .ret = some s4 := by
    rw [exec, hst3.pop]
    rfl
  have hsteps : Steps env (callCode number table) s1 s4 :=
    .next hi hiret <| .next (by rw [hpc2]; rfl) step3 <|
      .one (by rw [adv_pc, set_pc, popped, set_pc, hpc2]; rfl) step4
  refine ⟨s4, hsteps, ⟨rfl, ?_, fun r hr => ?_, hfl2, ?_⟩, ?_, hmem2⟩
  · have : s4.regs .esp = s2.regs .esp + 4 + 4 := by simp [s4, s3, popped, State.set]
    rw [this, hsp2, BitVec.sub_add_cancel]
  · rcases hr with rfl | rfl | rfl | rfl
    · simp [s4, s3, popped, State.set]
    all_goals
      rw [← hreg _ (by simp [Unused]), ← hreg2 _ (by simp)]
      simp [s4, s3, popped, State.set]
  · funext g
    by_cases h1 : g = .cs
    · rw [h1]
      exact hcs2
    · by_cases h2 : g = .ss
      · rw [h2]
        exact hss2
      · exact (hseg2 g h1 h2).trans (hseg g h1 h2)
  · rw [← hreg2 _ (by simp)]
    simp [s4, s3, popped, State.set]

/-- A number that is not in the table: the program gets -1, and no function is called. -/
theorem system_call_fails {ret a b c : W} (h : Calling env s ret a b c ws)
    (hn : ¬ (1 ≤ number.toInt ∧ number.toInt ≤ 10)) :
    ∃ s', Steps { env with func := fun _ _ => none } (callCode number table) s s' ∧
      BackFrom s s' ret ∧ s'.regs .eax = -1 := by
  let env' := { env with func := fun _ _ => none }
  have h' : Calling env' s ret a b c ws := { h with }
  obtain ⟨s1, hs1, hpc1, hk⟩ := @wrapper_enter env' s ws number table ret a b c h'
  obtain ⟨s2, hs2, hsame, hpc2⟩ := @range_check env' s1 number table hpc1
  rw [hk.eax, if_neg hn] at hpc2
  let r := s2.regs .eax ||| 0xFFFFFFFF
  let s3 := s2.adv
  let s4 := ((s3.set .eax r).setFlags (s3.flags.logic r)).adv
  have hmem : s4.mem = s1.mem := hsame.mem
  have hseg : s4.seg = s1.seg := hsame.seg
  have hregs : ∀ q, q ≠ .eax → s4.regs q = s1.regs q := by
    intro q hq
    rw [← hsame.regs]
    exact set_of_ne s3 r hq
  have hat : ∀ {t : State} (k : Nat), t.pc = s2.pc + k →
      (callCode number table)[t.pc]? = (callCode number table)[20 + k]? := by
    intro t k ht
    rw [ht, hpc2]
  have hunused : ∀ q, Unused q → s4.regs q = s.regs q := by
    intro q hq
    rw [← hk.unused q hq]
    refine hregs q ?_
    rintro rfl
    simp [Unused] at hq
  obtain ⟨s', hs', hback, hax, _⟩ := @wrapper_leave env' s number table ret s4 h.user (hat 2 rfl)
    (hk.stack.congr hmem (hregs _ (by simp))) (by rw [hseg, hk.cs]; exact h.kernelCs)
    (by rw [hseg]; exact hk.seg) hunused (by rw [hmem]; exact hk.frame)
  refine ⟨s', hs1.trans (hs2.trans (.next (hat 0 rfl) rfl (.next (hat 1 rfl) rfl hs'))), hback, ?_⟩
  rw [hax, adv_regs, setFlags_regs, set_self]
  exact BitVec.or_allOnes

theorem program_calling : Calling returning program 0 0 0 0 [] where
  pc := rfl
  user := rfl
  stack _ hi := (List.getElem?_replicate_of_lt hi).symm
  room _ _ := rfl
  kernelStack _ _ := rfl
  apart := by decide
  gate := rfl
  kernelCs := by decide
  short := by simp

theorem system_call_fails_eleven :
    ∃ s', Steps { returning with func := fun _ _ => none } (callCode 11 0) program s' ∧
      BackFrom program s' 0 ∧ s'.regs .eax = -1 :=
  system_call_fails program_calling (by decide)

/-- The jump table, at `table`, is apart from what the wrapper and the kernel push. -/
structure JumpTable (env : Env) (s : State) (table : W) (fs : List W) : Prop where
  holds : s.mem.Holds table (wordBytes fs)
  length : fs.length = 11
  user : Apart (s.regs .esp - 4) 4 table 44
  kernel : Apart (env.esp0 - ofN 48) 48 table 44

/-- The kernel's stack when the function of a call runs. -/
def callFrame (s : State) : List W := s.regs .esi :: s.regs .edi :: s.regs .ebp :: trapFrame s

/-- `s2` is at the first instruction of the function with the arguments `a`, `b` and `c`, for a
wrapper that was called in state `s`. -/
structure AtFunction (env : Env) (s s2 : State) (ret a b c : W) : Prop where
  stack : s2.Stack (19 :: a :: b :: c :: callFrame s)
  unused : ∀ r, Unused r → s2.regs r = s.regs r
  cs : s2.seg .cs = env.kernelCs
  seg : ∀ g, g ≠ .cs → g ≠ .ss → s2.seg g = s.seg g
  frame : s2.mem.Holds (s.regs .esp - 4) (wrapperFrame s ret)

def savedForCall : List Reg := [.ebp, .edi, .esi, .edx, .ecx, .ebx]

/-- From the first instruction of the kernel to function `f` of the table. -/
theorem kernel_enter {ret a b c : W} {fs : List W} {s1 : State}
    (hk : InKernel env number s s1 ret a b c) (hpc : s1.pc = 8) (ht : JumpTable env s table fs)
    (hframe : Apart (env.esp0 - ofN 48) 48 (s.regs .esp - 4) 8)
    (hn : 1 ≤ number.toInt ∧ number.toInt ≤ 10) (hf : fs[number.toNat]? = some f) :
    ∃ s0 s2, Steps env (callCode number table) s1 s0 ∧
      step env (callCode number table) s0 = env.func f s2 ∧ AtFunction env s s2 ret a b c := by
  obtain ⟨sa, hsa, hsame, hpca⟩ := @range_check env s1 number table hpc
  rw [hk.eax, if_pos hn] at hpca
  have hcode : CodeAt (callCode number table) sa.pc (savedForCall.map fun r => .pushl (.reg r)) := by
    rw [hpca]
    exact ⟨_, rfl⟩
  have hspa : sa.regs .esp = env.esp0 - ofN 20 := by rw [hsame.regs, hk.esp]
  obtain ⟨sb, hsb, hpcb, hb⟩ := push_regs env (n := 4) savedForCall (by simp [savedForCall]) hcode
    (hk.stack.congr hsame.mem (congrFun hsame.regs _)) (hk.room.congr hsame.mem
    (congrFun hsame.regs _)) (by simp [savedForCall, trapFrame])
  have hpcb : sb.pc = 18 := by rw [hpcb, hpca]; rfl
  have hspb : sb.regs .esp = env.esp0 - ofN 44 := by
    rw [hb.esp, hspa, sub_ofN_sub]
    rfl
  have hkeepb : Keeps (env.esp0 - ofN 48) 48 s1 sb := by
    have h := hb.keeps
    rw [hspa, sub_ofN_sub] at h
    intro x hx
    rw [← hsame.mem]
    exact h.le (by simp [savedForCall]) x hx
  have htable : sb.mem.Holds table (wordBytes fs) := by
    have h44 : (wordBytes fs).length = 44 := by rw [wordBytes_length, ht.length]
    refine ht.holds.congr fun i hi => ?_
    rw [h44] at hi
    have hku := ht.user.outside hi (by omega)
    have hkk := ht.kernel.outside hi (by omega)
    rw [hkeepb _ hkk, hk.keeps _ hku hkk]
  let s2 := sb.pushed (ofN (sb.pc + 1))
  have hroomb : sb.Room (0 + 4) := hb.room
  have hstb : sb.Stack (a :: b :: c :: callFrame s) := by
    have h := hb.stack
    have hmap : (savedForCall.map sa.regs).reverse ++ trapFrame s = a :: b :: c :: callFrame s := by
      have hun := fun r hr => (congrFun hsame.regs r).trans (hk.unused r hr)
      simp [savedForCall, hsame.regs, hk.ebx, hk.ecx, hk.edx, ← hun .esi (Or.inl rfl),
        ← hun .edi (Or.inr (Or.inl rfl)), ← hun .ebp (Or.inr (Or.inr rfl)), callFrame]
    rw [hmap] at h
    exact h
  have heaxb : sb.regs .eax = number := by rw [hb.other _ (by simp), hsame.regs, hk.eax]
  have hstep : step env (callCode number table) sb = env.func f s2 := by
    obtain ⟨hlt, hget⟩ := List.getElem?_eq_some_iff.mp hf
    have hea : sb.ea ⟨table, none, some (.eax, 4)⟩ = table + ofN (4 * number.toNat) := by
      have hmul : number * 4 = ofN (4 * number.toNat) := by
        apply BitVec.eq_of_toNat_eq
        rw [BitVec.toNat_mul, Nat.mul_comm]
        simp [ofN]
      rw [← hmul, ← heaxb]
      simp [ea]
    have hi : (callCode number table)[sb.pc]? = some (.callAt ⟨table, none, some (.eax, 4)⟩) := by
      rw [hpcb]
      rfl
    rw [step, hi, Option.bind_some, exec, hea, load_word htable hlt, hget, Option.bind_some,
      ofBytes_bytesOf, hroomb.push]
    rfl
  have hpush : Keeps (env.esp0 - ofN 48) 48 sb s2 := by
    have h := sb.pushed_keeps (ofN (sb.pc + 1)) 0
    rw [hspb, sub_ofN_sub] at h
    exact h.le (by omega)
  have hother : ∀ r, r ≠ .esp → s2.regs r = sb.regs r := fun r hr =>
    set_of_ne sb (sb.regs .esp - 4) hr
  refine ⟨sb, s2, hsa.trans hsb, hstep, ?_, fun r hr => ?_, ?_, fun g h1 h2 => ?_, ?_⟩
  · have h := hstb.pushed (by simp [callFrame, trapFrame]) (ofN (sb.pc + 1))
    have h19 : ofN (sb.pc + 1) = 19 := by rw [hpcb]; rfl
    rw [h19] at h
    exact h.congr (by rw [← h19]) (by rw [← h19])
  · have hne : r ≠ .esp := by
      rintro rfl
      simp [Unused] at hr
    rw [hother r hne, hb.other r hne, hsame.regs, hk.unused r hr]
  · rw [← hk.cs, ← hsame.seg, ← hb.seg]
    rfl
  · rw [← hk.seg g h1 h2, ← hsame.seg, ← hb.seg]
    rfl
  · refine (hkeepb.trans hpush).holds hk.frame ?_ ?_
    · rw [wrapperFrame_length]
      exact hframe
    · rw [wrapperFrame_length]
      decide

/-- From the return of the function to the return of the wrapper. -/
theorem function_return {ret a b c : W} {s2 s3 : State} (h : Calling env s ret a b c ws)
    (hf : AtFunction env s s2 ret a b c)
    (hret : Returned s2 s3 19 [a, b, c] (callFrame s))
    (hframe : s3.mem.Holds (s.regs .esp - 4) (wrapperFrame s ret)) :
    ∃ s', Steps env (callCode number table) s3 s' ∧ BackFrom s s' ret ∧
      s'.regs .eax = s3.regs .eax ∧ s'.mem = s3.mem := by
  obtain ⟨args, hargs, hst3⟩ := hret.stack
  have hpc3 : s3.pc = 19 := hret.pc
  let s4 := { s3 with pc := 23 }
  let s5 := s4.adv
  have hst5 : s5.Stack ((args ++ [s.regs .esi, s.regs .edi, s.regs .ebp]) ++ trapFrame s) := by
    rw [List.append_assoc]
    exact hst3.congr rfl rfl
  have hcode : CodeAt (callCode number table) s5.pc (savedForCall.reverse.map .popl) := ⟨_, rfl⟩
  obtain ⟨s6, hs6, hpc6, h6, hmem6, _, hmap6, hreg6⟩ := pop_regs env savedForCall.reverse
    (by simp [savedForCall]) (by simp [savedForCall]) hcode
    (by rw [List.length_append, hargs]; rfl) hst5
  have hi : (callCode number table)[s6.pc]? = some .iret := by
    rw [hpc6]
    rfl
  have hunused : ∀ r, Unused r → s6.regs r = s.regs r := by
    obtain ⟨x, y, z, rfl⟩ := List.length_eq_three.mp hargs
    simp only [savedForCall, List.reverse_cons, List.reverse_nil, List.nil_append,
      List.cons_append, List.map_cons, List.map_nil, List.cons.injEq, and_true] at hmap6
    obtain ⟨_, _, _, hsi, hdi, hbp⟩ := hmap6
    rintro r (rfl | rfl | rfl)
    · exact hsi
    · exact hdi
    · exact hbp
  have hcs : s6.seg .cs &&& 3 ≠ 3 := by
    have hseg : s6.seg = s2.seg := h6.seg.trans hret.seg
    rw [hseg, hf.cs]
    exact h.kernelCs
  obtain ⟨s', hs', hback, hax, hmem⟩ := wrapper_leave h.user hi h6.stack hcs
    (fun g h1 h2 => by
      have hseg : s6.seg = s2.seg := h6.seg.trans hret.seg
      rw [hseg, hf.seg g h1 h2]) hunused (hmem6.symm ▸ hframe)
  refine ⟨s', .next (by rw [hpc3]; rfl) rfl (.next rfl rfl (hs6.trans hs')), hback, ?_,
    hmem.trans hmem6⟩
  exact hax.trans (hreg6 .eax (by simp) (by simp [savedForCall]))

/-- A system call: the function of the table runs in kernel mode with the program's three arguments.
When it returns, so does the wrapper, with its result in EAX and everything else that the program
may rely on as it was. -/
theorem system_call_round_trip {ret a b c : W} {fs : List W} (h : Calling env s ret a b c ws)
    (hn : 1 ≤ number.toInt ∧ number.toInt ≤ 10) (ht : JumpTable env s table fs)
    (hf : fs[number.toNat]? = some f) :
    ∃ s1 s2, Steps env (callCode number table) s s1 ∧
      step env (callCode number table) s1 = env.func f s2 ∧ s2.user = false ∧
      s2.Stack (19 :: a :: b :: c :: callFrame s) ∧
      ∀ s3, env.func f s2 = some s3 → Returned s2 s3 19 [a, b, c] (callFrame s) →
        s3.mem.Holds (s.regs .esp - 4) (wrapperFrame s ret) →
        ∃ s', Steps env (callCode number table) s s' ∧ BackFrom s s' ret ∧
          s'.regs .eax = s3.regs .eax ∧ s'.mem = s3.mem := by
  obtain ⟨s0, hs0, hpc0, hk⟩ := @wrapper_enter env s ws number table ret a b c h
  obtain ⟨s1, s2, hs1, hstep, hat⟩ := kernel_enter hk hpc0 ht h.apart hn hf
  have hu : s2.user = false := by
    rw [Bool.eq_false_iff, ne_eq, user_iff, hat.cs]
    exact h.kernelCs
  refine ⟨s1, s2, hs0.trans hs1, hstep, hu, hat.stack, fun s3 hfunc hret hframe => ?_⟩
  obtain ⟨s', hs', hback, hax, hmem⟩ := function_return h hat hret hframe
  have hcall : Steps env (callCode number table) s1 s' :=
    Relation.ReflTransGen.head (hstep.trans hfunc) hs'
  exact ⟨s', (hs0.trans hs1).trans hcall, hback, hax, hmem⟩

theorem program_jumpTable : JumpTable returning program 0x400000 (List.replicate 11 0) where
  holds _ hi := (List.getElem?_replicate_of_lt hi).symm
  length := List.length_replicate
  user := by decide
  kernel := by decide

theorem system_call_round_trip_one :
    ∃ s1 s2, Steps returning (callCode 1 0x400000) program s1 ∧
      step returning (callCode 1 0x400000) s1 = returning.func 0 s2 ∧ s2.user = false ∧
      s2.Stack (19 :: 0 :: 0 :: 0 :: callFrame program) ∧
      ∀ s3, returning.func 0 s2 = some s3 → Returned s2 s3 19 [0, 0, 0] (callFrame program) →
        s3.mem.Holds (program.regs .esp - 4) (wrapperFrame program 0) →
        ∃ s', Steps returning (callCode 1 0x400000) program s' ∧ BackFrom program s' 0 ∧
          s'.regs .eax = s3.regs .eax ∧ s'.mem = s3.mem :=
  system_call_round_trip program_calling (by decide) program_jumpTable rfl

end Linkage
end DeviceOS
