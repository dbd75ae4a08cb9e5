import DeviceOS.Lib.X86.Stack

/-!
# Lib.X86.Interrupts

Interrupts, exceptions and `int`, and the way back.

* `Deliver`: the five words on the stack of the handler that an interrupt from user mode leaves, and
  the three of one from kernel mode. `deliver_user`, `deliver_kernel`: the processor does this.
* `iret_user`, `iret_kernel`: `iret` at these words.
* `Returned`: what the C calling convention says of a function that has returned.
-/

namespace X86

open State

variable (env : Env) (gate : Nat) (trap : Bool) (eip : W) {n : Nat} {s s' : State} {ws : List W}

/-- `s'` is `s` after an interrupt, at the first instruction of the handler. -/
structure Entered (env : Env) (gate : Nat) (trap : Bool) (s s' : State) (ws : List W) (n : Nat) :
    Prop where
  pc : s'.pc = gate
  stack : s'.Stack ws
  room : s'.Room n
  regs : ∀ r, r ≠ .esp → s'.regs r = s.regs r
  flags : s'.flags = { s.flags with if' := trap && s.flags.if' }
  seg : ∀ g, g ≠ .cs → g ≠ .ss → s'.seg g = s.seg g
  cs : s'.seg .cs = env.kernelCs

/-- The three words that are pushed in any case. -/
theorem deliver_of_switch {s1 : State} (hs : switchStack env s = some s1) (hst : s1.Stack ws)
    (hroom : s1.Room (n + 12)) (hlen : 4 * (ws.length + 3) ≤ 2 ^ 32)
    (hregs : ∀ r, r ≠ .esp → s1.regs r = s.regs r) (hflags : s1.flags = s.flags)
    (hseg : ∀ g, g ≠ .ss → s1.seg g = s.seg g) :
    ∃ s', deliver env gate trap eip s = some s' ∧
      Entered env gate trap s s' (eip :: (s.seg .cs).setWidth 32 :: s.flags.word :: ws) n ∧
      s'.regs .esp = s1.regs .esp - ofN 12 ∧ s'.seg .ss = s1.seg .ss ∧
      Keeps (s1.regs .esp - ofN (n + 12)) (n + 12) s1 s' := by
  let vs := [s.flags.word, (s.seg .cs).setWidth 32, eip]
  have h : PushedWords s1 (vs.foldl pushed s1) vs ws n := pushed_words vs hst hroom hlen
  let s4 := vs.foldl pushed s1
  let s' := { s4 with
    seg := Function.update s4.seg .cs env.kernelCs
    flags := { s4.flags with if' := trap && s4.flags.if' }
    pc := gate }
  have hdeliver : deliver env gate trap eip s = some s' := by
    have h1 : s1.Room (n + 8 + 4) := hroom
    have h2 : (s1.pushed s.flags.word).Room (n + 4 + 4) := h1.pushed _
    have h3 := h2.pushed ((s.seg .cs).setWidth 32)
    rw [deliver, hs, Option.bind_some, h1.push, Option.bind_some, h2.push, Option.bind_some,
      h3.push]
    rfl
  refine ⟨s', hdeliver, ⟨rfl, h.stack.congr rfl rfl, h.room.congr rfl rfl, fun r hr => ?_, ?_,
    fun g h1 h2 => ?_, ?_⟩, h.esp, ?_, h.keeps⟩
  · exact (h.other r hr).trans (hregs r hr)
  · exact congrArg (fun f : Flags => { f with if' := trap && f.if' }) (h.flags.trans hflags)
  · exact (Function.update_of_ne h1 ..).trans ((congrFun h.seg g).trans (hseg g h2))
  · simp [s']
  · have hss := congrFun h.seg .ss
    simpa [s'] using hss

/-- An interrupt from user mode. -/
theorem deliver_user (hu : s.user = true)
    (hmap : s.mem.Mapped (env.esp0 - ofN (n + 20)) (n + 20)) :
    ∃ s', deliver env gate trap eip s = some s' ∧
      Entered env gate trap s s' [eip, (s.seg .cs).setWidth 32, s.flags.word, s.regs .esp,
        (s.seg .ss).setWidth 32] n ∧
      s'.regs .esp = env.esp0 - ofN 20 ∧ Keeps (env.esp0 - ofN (n + 20)) (n + 20) s s' := by
  let s0 := { s.set .esp env.esp0 with seg := Function.update s.seg .ss env.ss0 }
  have hsp0 : s0.regs .esp = env.esp0 := set_self s .esp _
  have hroom0 : s0.Room (n + 12 + 4 + 4) := by
    rw [Room, hsp0]
    exact hmap
  let vs := [(s.seg .ss).setWidth 32, s.regs .esp]
  have h : PushedWords s0 (vs.foldl pushed s0) vs [] (n + 12) :=
    pushed_words vs (fun i hi => absurd hi (by simp [wordBytes])) hroom0 (by simp [vs])
  have hswitch : switchStack env s = some (vs.foldl pushed s0) := by
    have h1 := Room.push hroom0 ((s.seg .ss).setWidth 32)
    have h2 := Room.push (Room.pushed hroom0 ((s.seg .ss).setWidth 32)) (s.regs .esp)
    rw [switchStack, if_pos hu]
    exact (congrArg (fun o => o.bind fun s2 => s2.push (s.regs .esp)) h1).trans h2
  have hsp1 : (vs.foldl pushed s0).regs .esp = env.esp0 - ofN 8 := h.esp.trans (by rw [hsp0]; rfl)
  obtain ⟨s', hd, he, hsp, _, hk⟩ := deliver_of_switch env gate trap eip
    hswitch h.stack h.room (by simp [vs]) (fun r hr => (h.other r hr).trans (set_of_ne s _ hr))
    h.flags fun g hg => (congrFun h.seg g).trans (Function.update_of_ne hg ..)
  have hsub : ∀ k, env.esp0 - ofN 8 - ofN k = env.esp0 - ofN (k + 8) := by
    intro k
    rw [sub_ofN_sub, Nat.add_comm]
  refine ⟨s', hd, he, by rw [hsp, hsp1, hsub], fun x hx => ?_⟩
  have hlow : n + 20 ≤ (x - (s0.regs .esp - ofN (n + 20))).toNat →
      (vs.foldl pushed s0).mem x = s0.mem x := h.keeps x
  rw [hsp0] at hlow
  have h20 : n + 12 + 8 = n + 20 := rfl
  rw [hsp1, hsub, h20] at hk
  rw [hk x (by omega)]
  exact hlow hx

/-- An interrupt from kernel mode. -/
theorem deliver_kernel (hu : s.user = false) (hst : s.Stack ws) (hroom : s.Room (n + 12))
    (hlen : 4 * (ws.length + 3) ≤ 2 ^ 32) :
    ∃ s', deliver env gate trap eip s = some s' ∧
      Entered env gate trap s s' (eip :: (s.seg .cs).setWidth 32 :: s.flags.word :: ws) n ∧
      s'.regs .esp = s.regs .esp - ofN 12 ∧ s'.seg .ss = s.seg .ss := by
  have hswitch : switchStack env s = some s := by
    rw [switchStack, if_neg (by rw [hu]; simp)]
  obtain ⟨s', hd, he, hsp, hss, _⟩ := deliver_of_switch env gate trap eip
    hswitch hst hroom hlen (fun _ _ => rfl) rfl fun _ _ => rfl
  exact ⟨s', hd, he, hsp, hss⟩

/-! ## The way back -/

variable {eip : W} {cs ss : BitVec 16} {esp : W} {f : Flags}

/-- `iret` to user mode. -/
theorem iret_user (hst : s.Stack [eip, cs.setWidth 32, f.word, esp, ss.setWidth 32])
    (hu : s.user = false) (hcs : cs &&& 3 = 3) :
    ∃ s', iret s = some s' ∧ s'.pc = eip.toNat ∧ s'.flags = f ∧ s'.regs .esp = esp ∧
      (∀ r, r ≠ .esp → s'.regs r = s.regs r) ∧ s'.seg .cs = cs ∧ s'.seg .ss = ss ∧
      (∀ g, g ≠ .cs → g ≠ .ss → s'.seg g = s.seg g) ∧ s'.mem = s.mem := by
  have hback : (cs.setWidth 32).setWidth 16 = cs := by simp
  let s4 := returnTo s.popped.popped.popped eip (cs.setWidth 32) f.word
  let s6 := s4.popped.popped
  let s' := { s6.set .esp esp with seg := Function.update s6.seg .ss ((ss.setWidth 32).setWidth 16) }
  have hst4 : s4.Stack [esp, ss.setWidth 32] := hst.popped.popped.popped.congr rfl rfl
  have hcs4 : s4.seg .cs = cs := by simp [s4, returnTo]
  have hu4 : (s4.user && !s.user) = true := by
    rw [user_iff.mpr (hcs4.symm ▸ hcs), hu]
    rfl
  have hleave : leaveKernel s4 = some s' := by
    rw [leaveKernel, hst4.pop, Option.bind_some]
    dsimp only
    rw [hst4.popped.pop]
    rfl
  have hiret : iret s = some s' := by
    rw [iret, hst.pop, Option.bind_some]
    dsimp only
    rw [hst.popped.pop, Option.bind_some]
    dsimp only
    rw [hst.popped.popped.pop, Option.bind_some, finishIret]
    exact (if_pos hu4).trans hleave
  have hflags : s'.flags = f := by
    simp [s', s6, s4, returnTo, popped]
  have hesp : s'.regs .esp = esp := by
    simp [s', State.set]
  refine ⟨s', hiret, rfl, hflags, hesp, fun r hr => ?_, ?_, ?_, fun g h1 h2 => ?_, rfl⟩
  · simp [s', s6, s4, returnTo, popped, State.set, hr]
  · simpa [s', s6, popped] using hcs4
  · simp [s']
  · simp [s', s6, s4, returnTo, popped, h1, h2]

/-- `iret` that stays in kernel mode. -/
theorem iret_kernel (hst : s.Stack (eip :: cs.setWidth 32 :: f.word :: ws)) (hcs : cs &&& 3 ≠ 3) :
    ∃ s', iret s = some s' ∧ s'.pc = eip.toNat ∧ s'.flags = f ∧
      s'.regs .esp = s.regs .esp + ofN 12 ∧ (∀ r, r ≠ .esp → s'.regs r = s.regs r) ∧
      s'.seg .cs = cs ∧ (∀ g, g ≠ .cs → s'.seg g = s.seg g) ∧ s'.mem = s.mem := by
  have hback : (cs.setWidth 32).setWidth 16 = cs := by simp
  let s' := returnTo s.popped.popped.popped eip (cs.setWidth 32) f.word
  have hcs4 : s'.seg .cs = cs := by simp [s', returnTo]
  have hu4 : ¬ (s'.user && !s.user) = true := by
    intro h
    rw [Bool.and_eq_true, user_iff, hcs4] at h
    exact hcs h.1
  have hiret : iret s = some s' := by
    rw [iret, hst.pop, Option.bind_some]
    dsimp only
    rw [hst.popped.pop, Option.bind_some]
    dsimp only
    rw [hst.popped.popped.pop, Option.bind_some, finishIret]
    exact if_neg hu4
  refine ⟨s', hiret, rfl, Flags.ofWord_word f, ?_, fun r hr => ?_, hcs4, fun g h1 => ?_, rfl⟩
  · have h4 : (4 : W) = ofN 4 := rfl
    simp only [s', returnTo, popped, set_self, h4, BitVec.add_assoc, ofN_add]
  · simp [s', returnTo, popped, State.set, hr]
  · simp [s', returnTo, popped, h1]

/-! ## C functions -/

/-- A C function that was called in state `s`, with its return address `ret` on top of the stack and
its arguments below, has returned: it may have changed its arguments and the registers EAX, ECX and
EDX. -/
structure Returned (s s' : State) (ret : W) (args ws : List W) : Prop where
  pc : s'.pc = ret.toNat
  esp : s'.regs .esp = s.regs .esp + 4
  stack : ∃ args', args'.length = args.length ∧ s'.Stack (args' ++ ws)
  saved : ∀ r, r = .ebx ∨ r = .esi ∨ r = .edi ∨ r = .ebp → s'.regs r = s.regs r
  seg : s'.seg = s.seg

end X86
