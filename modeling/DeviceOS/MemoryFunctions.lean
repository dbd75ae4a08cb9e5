import DeviceOS.Lib.X86.StringOps

/-!
# DeviceOS.MemoryFunctions

`memset`, `memset_word`, `memset_dword`, `memcpy` and `memmove` of `lib.c`, which are inline
assembly: the instructions of the source, and what they leave in memory.

* `byWords`: the shape that `memset` and `memcpy` share. Bytes up to the next multiple of 4, then
  words with one string instruction, then the bytes that are left.
* `ByWords.run`: the argument for both. `At k` says that `k` bytes are done; one pass of the body
  and the string instruction move from one `At` to another.
* `memset_fills`, `memset_units_fill`, `memcpy_copies`, `memmove_copies`: the whole functions, for
  every alignment and length, in a memory in which nothing else needs to be mapped.
-/

namespace DeviceOS
namespace LibC

open X86

inductive Label where
  | top | aligned | bottom | done | go
  deriving DecidableEq

def at' (r : Reg) : Operand := .mem ⟨0, some r, none⟩

/-- `body` handles one byte and moves the pointers, `unit` handles words. -/
def byWords (body : List (Instr Label)) (unit : Instr Label) : List (Instr Label) :=
  [.label .top,
    .alu .test (.reg .ecx) (.reg .ecx),
    .jcc .e .done,
    .alu .test (.imm 3) (.reg .edi),
    .jcc .e .aligned] ++
  body ++
  [.alu .sub (.imm 1) (.reg .ecx),
    .jmp .top,
    .label .aligned,
    .movFromSeg .ds .edx,
    .movToSeg .edx .es,
    .movl (.reg .ecx) (.reg .edx),
    .shrl 2 .ecx,
    .alu .and (.imm 3) (.reg .edx),
    .cld,
    unit,
    .label .bottom,
    .alu .test (.reg .edx) (.reg .edx),
    .jcc .e .done] ++
  body ++
  [.alu .sub (.imm 1) (.reg .edx),
    .jmp .bottom,
    .label .done]

def memsetBody : List (Instr Label) := [
  .movb (.reg .eax) (at' .edi),
  .alu .add (.imm 1) (.reg .edi)]

def memset : List (Instr Label) := byWords memsetBody (.repStos 4)

def memcpyBody : List (Instr Label) := [
  .movb (at' .esi) (.reg .eax),
  .movb (.reg .eax) (at' .edi),
  .alu .add (.imm 1) (.reg .edi),
  .alu .add (.imm 1) (.reg .esi)]

def memcpy : List (Instr Label) := byWords memcpyBody (.repMovs 4)

/-- `memset_word` and `memset_dword`, with units of 2 and of 4 bytes. -/
def memsetUnits (n : Nat) : List (Instr Label) := [
  .movFromSeg .ds .edx,
  .movToSeg .edx .es,
  .cld,
  .repStos n]

def memsetWord : List (Instr Label) := memsetUnits 2
def memsetDword : List (Instr Label) := memsetUnits 4

def memmove : List (Instr Label) := [
  .movFromSeg .ds .edx,
  .movToSeg .edx .es,
  .cld,
  .alu .cmp (.reg .edi) (.reg .esi),
  .jcc .ae .go,
  .leal ⟨-1, some .esi, some (.ecx, 1)⟩ .esi,
  .leal ⟨-1, some .edi, some (.ecx, 1)⟩ .edi,
  .std,
  .label .go,
  .repMovs 1]

/-! ## The shape of `memset` and `memcpy` -/

variable {env : Env} {code : List (Instr Label)}

/-- Code of the shape `byWords` with a body of `b` instructions, and a relation `At k s` that says
that `k` of `n` bytes are done in state `s`. -/
structure ByWords (env : Env) (code : List (Instr Label)) (b n : Nat) (At : Nat → State → Prop) :
    Prop where
  top : code[0]? = some (.label .top)
  testTop : code[1]? = some (.alu .test (.reg .ecx) (.reg .ecx))
  exitTop : code[2]? = some (.jcc .e .done)
  testAlign : code[3]? = some (.alu .test (.imm 3) (.reg .edi))
  exitAlign : code[4]? = some (.jcc .e .aligned)
  subTop : code[5 + b]? = some (.alu .sub (.imm 1) (.reg .ecx))
  jmpTop : code[6 + b]? = some (.jmp .top)
  aligned : code[7 + b]? = some (.label .aligned)
  ds : code[8 + b]? = some (.movFromSeg .ds .edx)
  es : code[9 + b]? = some (.movToSeg .edx .es)
  rest : code[10 + b]? = some (.movl (.reg .ecx) (.reg .edx))
  words : code[11 + b]? = some (.shrl 2 .ecx)
  mask : code[12 + b]? = some (.alu .and (.imm 3) (.reg .edx))
  cld : code[13 + b]? = some .cld
  bottom : code[15 + b]? = some (.label .bottom)
  testBottom : code[16 + b]? = some (.alu .test (.reg .edx) (.reg .edx))
  exitBottom : code[17 + b]? = some (.jcc .e .done)
  subBottom : code[18 + 2 * b]? = some (.alu .sub (.imm 1) (.reg .edx))
  jmpBottom : code[19 + 2 * b]? = some (.jmp .bottom)
  toTop : target code .top = 0
  toAligned : target code .aligned = 7 + b
  toBottom : target code .bottom = 15 + b
  toDone : target code .done = 20 + 2 * b
  congr : ∀ {k s s'}, At k s → s'.mem = s.mem → s'.seg .ds = s.seg .ds →
    (∀ r, r ≠ .ecx → r ≠ .edx → s'.regs r = s.regs r) → At k s'
  body : ∀ {k s}, s.pc = 5 ∨ s.pc = 18 + b → At k s → k < n →
    ∃ s', Steps env code s s' ∧ s'.pc = s.pc + b ∧ At (k + 1) s' ∧
      s'.regs .ecx = s.regs .ecx ∧ s'.regs .edx = s.regs .edx
  unit : ∀ {k j s}, s.pc = 14 + b → At k s → s.seg .es = s.seg .ds → s.flags.df = false →
    s.regs .ecx = ofN j → k + j * 4 ≤ n →
    ∃ s', Steps env code s s' ∧ s'.pc = 15 + b ∧ At (k + j * 4) s' ∧ s'.regs .edx = s.regs .edx

/-- The head of a loop that counts `r` down: a label, and the exit at 0. -/
theorem loop_head (env : Env) {l : Label} {r : Reg} {p : Nat} (h0 : code[p]? = some (.label l))
    (h1 : code[p + 1]? = some (.alu .test (.reg r) (.reg r)))
    (h2 : code[p + 2]? = some (.jcc .e .done)) {s : State} (hpc : s.pc = p) :
    ∃ s', Steps env code s s' ∧ Same s s' ∧
      s'.pc = if s.regs r = 0 then target code .done else p + 3 := by
  let s1 := s.adv
  let s2 := (s1.setFlags (s1.flags.logic (s.regs r &&& s.regs r))).adv
  have hz : s2.flags.holds .e = decide (s.regs r = 0) := by
    rw [← BitVec.and_self (x := s.regs r)]
    exact Flags.holds_logic_e ..
  have step1 : code[s.pc]? = some (.label l) := by rw [hpc, h0]
  have step2 : code[s1.pc]? = some (.alu .test (.reg r) (.reg r)) := by
    rw [State.adv_pc, hpc, h1]
  have step3 : code[s2.pc]? = some (.jcc .e .done) := by
    rw [State.adv_pc, State.setFlags_pc, State.adv_pc, hpc, h2]
  by_cases h : s.regs r = 0
  · rw [decide_eq_true h] at hz
    exact ⟨{ s2 with pc := target code .done },
      .next step1 rfl (.next step2 rfl (.one step3 (exec_jcc_true hz))), ⟨rfl, rfl, rfl⟩,
      (if_pos h).symm⟩
  · rw [decide_eq_false h] at hz
    exact ⟨s2.adv, .next step1 rfl (.next step2 rfl (.one step3 (exec_jcc_false hz))),
      ⟨rfl, rfl, rfl⟩, by rw [if_neg h, ← hpc]; rfl⟩

/-- The end of such a loop. -/
theorem loop_tail (env : Env) {l : Label} {r : Reg} {p : Nat}
    (h0 : code[p]? = some (.alu .sub (.imm 1) (.reg r))) (h1 : code[p + 1]? = some (.jmp l))
    {s : State} (hpc : s.pc = p) :
    ∃ s', Steps env code s s' ∧ s'.pc = target code l ∧ s'.mem = s.mem ∧ s'.seg = s.seg ∧
      s'.regs r = s.regs r - 1 ∧ ∀ q, q ≠ r → s'.regs q = s.regs q := by
  let s1 := ((s.set r (s.regs r - 1)).setFlags (s.flags.sub (s.regs r) 1)).adv
  have step1 : code[s.pc]? = some (.alu .sub (.imm 1) (.reg r)) := by rw [hpc, h0]
  have step2 : code[s1.pc]? = some (.jmp l) := by
    rw [State.adv_pc, State.setFlags_pc, State.set_pc, hpc, h1]
  refine ⟨{ s1 with pc := target code l }, .next step1 rfl (.one step2 rfl), rfl, rfl, rfl, ?_,
    fun q hq => ?_⟩
  · exact State.set_self ..
  · exact State.set_of_ne _ _ hq

namespace ByWords

variable {b n : Nat} {At : Nat → State → Prop}

theorem same (h : ByWords env code b n At) {k : Nat} {s s' : State} (ha : At k s)
    (hs : Same s s') : At k s' :=
  h.congr ha hs.mem (by rw [hs.seg]) fun r _ _ => by rw [hs.regs]

/-- The last bytes, by induction on their number. -/
theorem tail (h : ByWords env code b n At) : ∀ (j : Nat) {k : Nat} {s : State}, s.pc = 15 + b →
    At k s → s.regs .edx = ofN j → k + j = n → j < 2 ^ 32 →
    ∃ s', Steps env code s s' ∧ s'.pc = 20 + 2 * b ∧ At n s' := by
  intro j
  induction j with
  | zero =>
    intro k s hpc ha hdx hn _
    have hzero : s.regs .edx = 0 := hdx
    obtain ⟨s1, hs1, hsame, hpc1⟩ := loop_head env h.bottom
      (by rw [Nat.add_right_comm, h.testBottom]) (by rw [Nat.add_right_comm, h.exitBottom]) hpc
    rw [if_pos hzero, h.toDone] at hpc1
    have hkn : k = n := hn
    exact ⟨s1, hs1, hpc1, hkn ▸ h.same ha hsame⟩
  | succ j ih =>
    intro k s hpc ha hdx hn hj
    have hne : s.regs .edx ≠ 0 := hdx ▸ ofN_succ_ne_zero hj
    obtain ⟨s1, hs1, hsame, hpc1⟩ := loop_head env h.bottom
      (by rw [Nat.add_right_comm, h.testBottom]) (by rw [Nat.add_right_comm, h.exitBottom]) hpc
    rw [if_neg hne] at hpc1
    have hpc1 : s1.pc = 18 + b := by omega
    obtain ⟨s2, hs2, hpc2, ha2, _, hdx2⟩ := h.body (Or.inr hpc1) (h.same ha hsame) (by omega)
    obtain ⟨s3, hs3, hpc3, hmem3, hseg3, hdx3, hreg3⟩ := loop_tail env h.subBottom
      (by rw [Nat.add_right_comm, h.jmpBottom]) (by rw [hpc2, hpc1]; omega : s2.pc = 18 + 2 * b)
    have ha3 : At (k + 1) s3 := h.congr ha2 hmem3 (by rw [hseg3]) fun r _ hr => hreg3 r hr
    have hdx' : s3.regs .edx = ofN j := by
      rw [hdx3, hdx2, hsame.regs, hdx, ofN_succ_sub_one]
    obtain ⟨s4, hs4, hend⟩ := ih (hpc3.trans h.toBottom) ha3 hdx' (by omega) (by omega)
    exact ⟨s4, hs1.trans (hs2.trans (hs3.trans hs4)), hend⟩

theorem toNat_shiftRight_two (j : Nat) (hj : j < 2 ^ 32) : ofN j >>> 2 = ofN (j / 4) := by
  apply BitVec.eq_of_toNat_eq
  rw [BitVec.toNat_ushiftRight, toNat_ofN hj, toNat_ofN (by omega), Nat.shiftRight_eq_div_pow]

theorem and_three (j : Nat) (hj : j < 2 ^ 32) : ofN j &&& 3 = ofN (j % 4) := by
  apply BitVec.eq_of_toNat_eq
  rw [BitVec.toNat_and, toNat_ofN hj, toNat_ofN (by omega)]
  exact Nat.and_two_pow_sub_one_eq_mod j 2

/-- From the label `aligned`: the words, then the rest. -/
theorem words_tail (h : ByWords env code b n At) {j k : Nat} {s : State} (hpc : s.pc = 7 + b)
    (ha : At k s) (hcx : s.regs .ecx = ofN j) (hn : k + j = n) (hj : j < 2 ^ 32) :
    ∃ s', Steps env code s s' ∧ s'.pc = 20 + 2 * b ∧ At n s' := by
  let s1 := s.adv
  let s2 := (s1.set .edx (setLow16 (s1.regs .edx) (s1.seg .ds))).adv
  let s3 := { s2.adv with seg := Function.update s2.seg .es ((s2.regs .edx).setWidth 16) }
  let s4 := (s3.set .edx (s3.regs .ecx)).adv
  let r5 := s4.regs .ecx >>> 2
  let s5 := ((s4.set .ecx r5).setFlags
    { s4.flags with cf := (s4.regs .ecx).getLsbD 1, zf := r5 == 0, sf := r5.msb }).adv
  let r6 := s5.regs .edx &&& 3
  let s6 := ((s5.set .edx r6).setFlags (s5.flags.logic r6)).adv
  let s7 := (s6.setFlags { s6.flags with df := false }).adv
  have step1 : code[s.pc]? = some (.label .aligned) := by rw [hpc, h.aligned]
  have step2 : code[s1.pc]? = some (.movFromSeg .ds .edx) := by
    rw [← h.ds, Nat.add_right_comm 7 1, ← hpc]; rfl
  have step3 : code[s2.pc]? = some (.movToSeg .edx .es) := by
    rw [← h.es, Nat.add_right_comm 7 2, ← hpc]; rfl
  have step4 : code[s3.pc]? = some (.movl (.reg .ecx) (.reg .edx)) := by
    rw [← h.rest, Nat.add_right_comm 7 3, ← hpc]; rfl
  have step5 : code[s4.pc]? = some (.shrl 2 .ecx) := by
    rw [← h.words, Nat.add_right_comm 7 4, ← hpc]; rfl
  have step6 : code[s5.pc]? = some (.alu .and (.imm 3) (.reg .edx)) := by
    rw [← h.mask, Nat.add_right_comm 7 5, ← hpc]; rfl
  have step7 : code[s6.pc]? = some .cld := by
    rw [← h.cld, Nat.add_right_comm 7 6, ← hpc]; rfl
  have hsteps : Steps env code s s7 :=
    .next step1 rfl <| .next step2 rfl <| .next step3 rfl <| .next step4 rfl <|
      .next step5 rfl <| .next step6 rfl <| .one step7 rfl
  have hpc7 : s7.pc = 14 + b := by
    rw [Nat.add_right_comm 7 7, ← hpc]; rfl
  have hcx7 : s7.regs .ecx = ofN (j / 4) := by
    rw [← toNat_shiftRight_two j hj, ← hcx]
    simp [s7, s6, s5, r5, s4, s3, s2, s1, State.set]
  have hdx7 : s7.regs .edx = ofN (j % 4) := by
    rw [← and_three j hj, ← hcx]
    simp [s7, s6, r6, s5, s4, s3, s2, s1, State.set]
  have hes7 : s7.seg .es = s7.seg .ds := by
    simp [s7, s6, s5, s4, s3, s2, s1, State.set]
  have ha7 : At k s7 := by
    refine h.congr ha rfl ?_ fun r h1 h2 => ?_
    · simp [s7, s6, s5, s4, s3, s2, s1]
    · simp [s7, s6, s5, s4, s3, s2, s1, State.set, h1, h2]
  obtain ⟨s8, hs8, hpc8, ha8, hdx8⟩ := h.unit hpc7 ha7 hes7 rfl hcx7 (by omega)
  obtain ⟨s9, hs9, hend⟩ := h.tail (j % 4) hpc8 ha8 (hdx8.trans hdx7) (by omega) (by omega)
  exact ⟨s9, hsteps.trans (hs8.trans hs9), hend⟩

/-- The whole function, by induction on the number of bytes left. -/
theorem run (h : ByWords env code b n At) : ∀ (j : Nat) {k : Nat} {s : State}, s.pc = 0 →
    At k s → s.regs .ecx = ofN j → k + j = n → j < 2 ^ 32 →
    ∃ s', Steps env code s s' ∧ s'.pc = 20 + 2 * b ∧ At n s' := by
  intro j
  induction j with
  | zero =>
    intro k s hpc ha hcx hn _
    have hzero : s.regs .ecx = 0 := hcx
    obtain ⟨s1, hs1, hsame, hpc1⟩ := loop_head env h.top h.testTop h.exitTop hpc
    rw [if_pos hzero, h.toDone] at hpc1
    have hkn : k = n := hn
    exact ⟨s1, hs1, hpc1, hkn ▸ h.same ha hsame⟩
  | succ j ih =>
    intro k s hpc ha hcx hn hj
    have hne : s.regs .ecx ≠ 0 := hcx ▸ ofN_succ_ne_zero hj
    obtain ⟨s1, hs1, hsame, hpc1⟩ := loop_head env h.top h.testTop h.exitTop hpc
    rw [if_neg hne] at hpc1
    have hpc1 : s1.pc = 3 := hpc1
    have ha1 := h.same ha hsame
    have hcx1 : s1.regs .ecx = ofN (j + 1) := by rw [hsame.regs, hcx]
    -- the test of the two lowest bits of EDI
    let s2 := (s1.setFlags (s1.flags.logic (s1.regs .edi &&& 3))).adv
    have step1 : code[s1.pc]? = some (.alu .test (.imm 3) (.reg .edi)) := by rw [hpc1, h.testAlign]
    have step2 : code[s2.pc]? = some (.jcc .e .aligned) := by
      rw [State.adv_pc, State.setFlags_pc, hpc1, h.exitAlign]
    have hz : s2.flags.holds .e = decide (s1.regs .edi &&& 3 = 0) := Flags.holds_logic_e ..
    by_cases hal : s1.regs .edi &&& 3 = 0
    · rw [decide_eq_true hal] at hz
      obtain ⟨s', hs', hend⟩ := h.words_tail (s := { s2 with pc := target code .aligned })
        h.toAligned (h.same ha1 ⟨rfl, rfl, rfl⟩) hcx1 hn hj
      exact ⟨s', hs1.trans (.next step1 rfl (.next step2 (exec_jcc_true hz) hs')), hend⟩
    · rw [decide_eq_false hal] at hz
      have hpc2 : s2.adv.pc = 5 := by rw [State.adv_pc, State.adv_pc, State.setFlags_pc, hpc1]
      obtain ⟨s3, hs3, hpc3, ha3, hcx3, _⟩ := h.body (Or.inl hpc2)
        (h.same ha1 ⟨rfl, rfl, rfl⟩) (by omega)
      obtain ⟨s4, hs4, hpc4, hmem4, hseg4, hcx4, hreg4⟩ := loop_tail env h.subTop
        (by rw [Nat.add_right_comm, h.jmpTop]) (by rw [hpc3, hpc2] : s3.pc = 5 + b)
      have ha4 : At (k + 1) s4 := h.congr ha3 hmem4 (by rw [hseg4]) fun r hr _ => hreg4 r hr
      have hcx' : s4.regs .ecx = ofN j := by
        rw [hcx4, hcx3, ← ofN_succ_sub_one, ← hcx1]
        rfl
      obtain ⟨s5, hs5, hend⟩ := ih (hpc4.trans h.toTop) ha4 hcx' (by omega) (by omega)
      exact ⟨s5, hs1.trans (.next step1 rfl (.next step2 (exec_jcc_false hz)
        (hs3.trans (hs4.trans hs5)))), hend⟩

end ByWords

/-! ## `memset` -/

/-- The registers that no function here changes. -/
def Kept (s s' : State) : Prop :=
  ∀ r, r = .ebx ∨ r = .esp ∨ r = .ebp → s'.regs r = s.regs r

theorem Kept.congr {s s1 s2 : State} (h : Kept s s1)
    (hr : ∀ r, r ≠ .ecx → r ≠ .edx → s2.regs r = s1.regs r) : Kept s s2 := by
  intro r h3
  rw [hr r (by rintro rfl; simp at h3) (by rintro rfl; simp at h3)]
  exact h r h3

/-- `k` bytes are set. -/
structure Filled (s : State) (c : Byte) (k : Nat) (s' : State) : Prop where
  mem : s'.mem = s.mem.overwrite (s.regs .edi) (List.replicate k c)
  edi : s'.regs .edi = s.regs .edi + ofN k
  eax : s'.regs .eax = s.regs .eax
  kept : Kept s s'

theorem repeated_replicate (j m : Nat) (c : Byte) :
    repeated j (List.replicate m c) = List.replicate (j * m) c := by
  induction j with
  | zero => simp [repeated]
  | succ j ih => rw [repeated_succ, ih, List.replicate_append_replicate, Nat.succ_mul, Nat.add_comm]

theorem memset_mapped {s s1 : State} {c : Byte} {n k j : Nat} (hmap : s.mem.Mapped (s.regs .edi) n)
    (h : Filled s c k s1) (hj : k + j ≤ n) : s1.mem.Mapped (s1.regs .edi) j := by
  rw [h.mem, h.edi]
  have hle : s.mem.Mapped (s.regs .edi) (k + j) := hmap.le hj
  exact hle.shift.overwrite (by rw [List.length_replicate]; exact hmap.le (by omega))

/-- The next bytes behind those that are set. -/
theorem memset_store {s s1 : State} {c : Byte} {n k j : Nat} (hmap : s.mem.Mapped (s.regs .edi) n)
    (h : Filled s c k s1) (hj : k + j ≤ n) (hn : n ≤ 2 ^ 32) :
    s1.mem.store (s1.regs .edi) (List.replicate j c) =
      some (s.mem.overwrite (s.regs .edi) (List.replicate (k + j) c)) := by
  have hmapped := memset_mapped hmap h hj
  rw [Mem.Mapped.store (by rwa [List.length_replicate]) (by rw [List.length_replicate]; omega),
    h.mem, h.edi]
  have happ := @Mem.overwrite_append (List.replicate k c) (List.replicate j c) s.mem (s.regs .edi)
    (by simp; omega)
  rw [List.length_replicate, List.replicate_append_replicate] at happ
  rw [happ]

theorem memset_byWords (env : Env) {s : State} {c : Byte} {n : Nat} (hn : n < 2 ^ 32)
    (hax : bytesOf (s.regs .eax) = List.replicate 4 c) (hmap : s.mem.Mapped (s.regs .edi) n) :
    ByWords env memset 2 n (Filled s c) where
  top := rfl
  testTop := rfl
  exitTop := rfl
  testAlign := rfl
  exitAlign := rfl
  subTop := rfl
  jmpTop := rfl
  aligned := rfl
  ds := rfl
  es := rfl
  rest := rfl
  words := rfl
  mask := rfl
  cld := rfl
  bottom := rfl
  testBottom := rfl
  exitBottom := rfl
  subBottom := rfl
  jmpBottom := rfl
  toTop := rfl
  toAligned := rfl
  toBottom := rfl
  toDone := rfl
  congr := by
    intro k s1 s2 h hmem _ hreg
    exact ⟨hmem.trans h.mem, (hreg _ (by simp) (by simp)).trans h.edi,
      (hreg _ (by simp) (by simp)).trans h.eax, h.kept.congr hreg⟩
  body := by
    intro k s1 hpc h hk
    have hal : (s1.regs .eax).setWidth 8 = c := by
      rw [h.eax]
      exact (List.cons.inj hax).1
    have hstore := memset_store hmap h (j := 1) (by omega) (by omega)
    let s2 := { s1 with mem := s.mem.overwrite (s.regs .edi) (List.replicate (k + 1) c) }.adv
    let s3 := ((s2.set .edi (s2.regs .edi + 1)).setFlags (s2.flags.add (s2.regs .edi) 1)).adv
    have step1 : memset[s1.pc]? = some (.movb (.reg .eax) (at' .edi)) := by
      rcases hpc with hpc | hpc <;> rw [hpc] <;> rfl
    have step2 : memset[s2.pc]? = some (.alu .add (.imm 1) (.reg .edi)) := by
      rcases hpc with hpc | hpc <;> rw [State.adv_pc, hpc] <;> rfl
    have hexec : exec env memset s1 (.movb (.reg .eax) (at' .edi)) = some s2 := by
      rw [exec, State.readByte, Option.bind_some, hal, at', State.writeByte, State.ea_base]
      exact congrArg (Option.map State.adv) (congrArg (Option.map _) hstore)
    refine ⟨s3, .next step1 hexec (.one step2 rfl), rfl, ⟨rfl, ?_, ?_, ?_⟩, ?_, ?_⟩
    · simp [s3, s2, State.set, h.edi, ofN_succ, BitVec.add_assoc]
    · simp [s3, s2, State.set, h.eax]
    · intro r hr
      rw [← h.kept r hr]
      rcases hr with rfl | rfl | rfl <;> rfl
    · rfl
    · rfl
  unit := by
    intro k j s1 hpc h hes hdf hcx hj
    have hbs : List.replicate 4 c = (bytesOf (s1.regs .eax)).take 4 := by
      rw [h.eax, hax]
      rfl
    have hmap1 : s1.mem.Mapped (s1.regs .edi) (j * 4) := memset_mapped hmap h hj
    have hi : memset[s1.pc]? = some (.repStos 4) := by rw [hpc]; rfl
    obtain ⟨s2, hs2, hend, hsi, hdi⟩ := repStos_run env memset j hi hes hdf hbs (by simp) hcx
      (by omega) (by omega) hmap1
    refine ⟨s2, hs2, by rw [hend.pc, hpc], ⟨?_, ?_, ?_, ?_⟩, hend.other .edx (by simp) (by simp)
      (by simp)⟩
    · rw [hend.mem, repeated_replicate, h.mem, h.edi]
      have happ := @Mem.overwrite_append (List.replicate k c) (List.replicate (j * 4) c) s.mem
        (s.regs .edi) (by simp; omega)
      rw [List.length_replicate, List.replicate_append_replicate] at happ
      exact happ
    · rw [hdi, h.edi, BitVec.add_assoc, ofN_add]
    · rw [hend.other .eax (by simp) (by simp) (by simp), h.eax]
    · intro r hr
      rw [← h.kept r hr]
      rcases hr with rfl | rfl | rfl <;> exact hend.other _ (by simp) (by simp) (by simp)

/-- `c << 24 | c << 16 | c << 8 | c`. -/
def splat (c : W) : W := c <<< 24 ||| c <<< 16 ||| c <<< 8 ||| c

theorem getLsbD_ff (j : Nat) : (0xFF : W).getLsbD j = decide (j < 8) := by
  have hbit := Nat.testBit_two_pow_sub_one 8 j
  have hword : (0xFF : W) = BitVec.ofNat 32 (2 ^ 8 - 1) := rfl
  rw [hword, BitVec.getLsbD_ofNat, hbit, ← Bool.decide_and]
  exact decide_eq_decide.mpr (by omega)

theorem bytesOf_splat (c : W) :
    bytesOf (splat (c &&& 0xFF)) = List.replicate 4 (c.setWidth 8) := by
  have hbyte : ∀ k, k = 0 ∨ k = 8 ∨ k = 16 ∨ k = 24 →
      (splat (c &&& 0xFF) >>> k).setWidth 8 = c.setWidth 8 := by
    intro k hk
    ext i hi
    simp only [splat, BitVec.getElem_setWidth, BitVec.getLsbD_ushiftRight, BitVec.getLsbD_or,
      BitVec.getLsbD_shiftLeft, BitVec.getLsbD_and, getLsbD_ff]
    rcases hk with rfl | rfl | rfl | rfl <;> grind
  simp only [bytesOf, hbyte 8 (by simp), hbyte 16 (by simp), hbyte 24 (by simp)]
  rw [← hbyte 0 (by simp)]
  rfl

/-- The operands of the `asm` statement: EDI, ECX and EAX or ESI. -/
def enter (s : State) (edi ecx : W) (r : Reg) (w : W) : State :=
  { ((s.set .edi edi).set .ecx ecx).set r w with pc := 0 }

/-- A processor whose memory is mapped everywhere; a byte is the lowest byte of its address. -/
def flat : State where
  regs _ := 0
  flags := ⟨false, false, false, false, true, true⟩
  seg _ := 0x18
  mem a := some (a.setWidth 8)
  pc := 0

def noCalls : Env := ⟨fun _ _ => none, 0, 0x10, 0, 0x18⟩

theorem flat_mapped (a : W) (n : Nat) : flat.mem.Mapped a n := fun _ _ => rfl

theorem flat_holds (a : W) (n : Nat) :
    flat.mem.Holds a ((List.range n).map fun i => (a + ofN i).setWidth 8) := by
  intro i hi
  rw [List.length_map, List.length_range] at hi
  simp [flat, hi]

/-- `memset` sets the `n` bytes from `dst` on to the lowest byte of `c`. -/
theorem memset_fills (env : Env) (s : State) (dst c n : W) (hmap : s.mem.Mapped dst n.toNat) :
    ∃ s', Steps env memset (enter s dst n .eax (splat (c &&& 0xFF))) s' ∧
      s'.pc = target memset .done ∧
      s'.mem = s.mem.overwrite dst (List.replicate n.toNat (c.setWidth 8)) ∧ Kept s s' := by
  let s0 := enter s dst n .eax (splat (c &&& 0xFF))
  have hdi : s0.regs .edi = dst := by simp [s0, enter, State.set]
  have hax : s0.regs .eax = splat (c &&& 0xFF) := by simp [s0, enter, State.set]
  have hcx : s0.regs .ecx = ofN n.toNat := by simp [s0, enter, State.set, ofN_toNat]
  have hstart : Filled s0 (c.setWidth 8) 0 s0 :=
    ⟨by simp, by simp [ofN_zero], rfl, fun _ _ => rfl⟩
  have hw := memset_byWords env (s := s0) n.isLt (hax ▸ bytesOf_splat c) (hdi.symm ▸ hmap)
  obtain ⟨s', hs', hpc, hend⟩ := hw.run n.toNat rfl hstart hcx (Nat.zero_add _) n.isLt
  refine ⟨s', hs', hpc, ?_, fun r hr => ?_⟩
  · rw [hend.mem, hdi]
    rfl
  · rw [hend.kept r hr]
    rcases hr with rfl | rfl | rfl <;> rfl

/-- Nine bytes from an address that is no multiple of 4; the upper bytes of the value do not count. -/
theorem memset_fills_unaligned : ∃ s', Steps noCalls memset
    (enter flat 0x1003 9 .eax (splat (0x141 &&& 0xFF))) s' ∧ s'.pc = target memset .done ∧
      s'.mem 0x1002 = some 0x02 ∧ s'.mem 0x1003 = some 0x41 ∧ s'.mem 0x100B = some 0x41 ∧
      s'.mem 0x100C = some 0x0C := by
  obtain ⟨s', hs, hpc, hmem, _⟩ := memset_fills noCalls flat 0x1003 0x141 9 (flat_mapped _ _)
  exact ⟨s', hs, hpc, by rw [hmem]; rfl, by rw [hmem]; rfl, by rw [hmem]; rfl, by rw [hmem]; rfl⟩

/-- `n` units of the lowest `m` bytes of `c`. -/
theorem memsetUnits_fills (env : Env) {m : Nat} (hm : m ≤ 4) (s : State) (dst c n : W)
    (hn : n.toNat * m ≤ 2 ^ 32) (hmap : s.mem.Mapped dst (n.toNat * m)) :
    ∃ s', Steps env (memsetUnits m) (enter s dst n .eax c) s' ∧ s'.pc = (memsetUnits m).length ∧
      s'.mem = s.mem.overwrite dst (repeated n.toNat ((bytesOf c).take m)) ∧ Kept s s' := by
  let s0 := enter s dst n .eax c
  let s1 := (s0.set .edx (setLow16 (s0.regs .edx) (s0.seg .ds))).adv
  let s2 := { s1.adv with seg := Function.update s1.seg .es ((s1.regs .edx).setWidth 16) }
  let s3 := (s2.setFlags { s2.flags with df := false }).adv
  have hsteps : Steps env (memsetUnits m) s0 s3 := .next rfl rfl <| .next rfl rfl <| .one rfl rfl
  have hdi : s3.regs .edi = dst := by simp [s3, s2, s1, s0, enter, State.set]
  have hax : s3.regs .eax = c := by simp [s3, s2, s1, s0, enter, State.set]
  have hcx : s3.regs .ecx = ofN n.toNat := by
    simp [s3, s2, s1, s0, enter, State.set, ofN_toNat]
  have hes : s3.seg .es = s3.seg .ds := by simp [s3, s2, s1]
  obtain ⟨s4, hs4, hend, _, _⟩ := repStos_run env (memsetUnits m) n.toNat rfl hes
    rfl (by rw [hax]) (by rw [List.length_take, bytesOf_length]; omega) hcx n.isLt hn
    (by rw [hdi]; exact hmap)
  refine ⟨s4, hsteps.trans hs4, hend.pc, by rw [hend.mem, hdi]; rfl, fun r hr => ?_⟩
  rcases hr with rfl | rfl | rfl <;> exact hend.other _ (by simp) (by simp) (by simp)

/-- The length of `memset_word` and `memset_dword` is a number of units, not of bytes: `n` copies of
the lower 16 bits of `c`, or of all of it, lie from `dst` on, and nothing else is changed. -/
theorem memset_units_fill (env : Env) (s : State) (dst c n : W) :
    (n.toNat * 2 ≤ 2 ^ 32 → s.mem.Mapped dst (n.toNat * 2) →
      ∃ s', Steps env memsetWord (enter s dst n .eax c) s' ∧ s'.pc = memsetWord.length ∧
        s'.mem = s.mem.overwrite dst (repeated n.toNat [c.setWidth 8, (c >>> 8).setWidth 8]) ∧
        Kept s s') ∧
    (n.toNat * 4 ≤ 2 ^ 32 → s.mem.Mapped dst (n.toNat * 4) →
      ∃ s', Steps env memsetDword (enter s dst n .eax c) s' ∧ s'.pc = memsetDword.length ∧
        s'.mem = s.mem.overwrite dst (repeated n.toNat (bytesOf c)) ∧ Kept s s') := by
  constructor
  · intro hn hmap
    exact memsetUnits_fills env (by decide) s dst c n hn hmap
  · intro hn hmap
    exact memsetUnits_fills env (by decide) s dst c n hn hmap

/-- A length of 3 is six bytes for the one and twelve for the other. -/
theorem memset_units_fill_three :
    (∃ s', Steps noCalls memsetWord (enter flat 0x1003 3 .eax 0x12345678) s' ∧
      s'.pc = memsetWord.length ∧ s'.mem 0x1007 = some 0x78 ∧ s'.mem 0x1008 = some 0x56 ∧
      s'.mem 0x1009 = some 0x09) ∧
    ∃ s', Steps noCalls memsetDword (enter flat 0x1003 3 .eax 0x12345678) s' ∧
      s'.pc = memsetDword.length ∧ s'.mem 0x1003 = some 0x78 ∧ s'.mem 0x100E = some 0x12 ∧
      s'.mem 0x100F = some 0x0F := by
  obtain ⟨hword, hdword⟩ := memset_units_fill noCalls flat 0x1003 0x12345678 3
  constructor
  · obtain ⟨s', hs, hpc, hmem, _⟩ := hword (by decide) (flat_mapped _ _)
    exact ⟨s', hs, hpc, by rw [hmem]; rfl, by rw [hmem]; rfl, by rw [hmem]; rfl⟩
  · obtain ⟨s', hs, hpc, hmem, _⟩ := hdword (by decide) (flat_mapped _ _)
    exact ⟨s', hs, hpc, by rw [hmem]; rfl, by rw [hmem]; rfl, by rw [hmem]; rfl⟩

/-! ## `memcpy` -/

/-- The first `k` of the bytes `bs` are copied. -/
structure Copied (s : State) (bs : List Byte) (k : Nat) (s' : State) : Prop where
  mem : s'.mem = s.mem.overwrite (s.regs .edi) (bs.take k)
  edi : s'.regs .edi = s.regs .edi + ofN k
  esi : s'.regs .esi = s.regs .esi + ofN k
  kept : Kept s s'

/-- A range that `memcpy` can copy: the bytes of the source, a mapped destination, and a copy
upwards that does not run over bytes it still has to read. -/
structure Copyable (m : Mem) (src dst : W) (bs : List Byte) : Prop where
  short : bs.length < 2 ^ 32
  source : m.Holds src bs
  mapped : m.Mapped dst bs.length
  safe : UpSafe src dst bs.length

section Copy

variable {s s1 : State} {bs : List Byte} {k j : Nat}

/-- What is still to be copied is intact. -/
theorem Copied.rest (h : Copied s bs k s1) (hc : Copyable s.mem (s.regs .esi) (s.regs .edi) bs)
    (hk : k ≤ bs.length) : Copyable s1.mem (s1.regs .esi) (s1.regs .edi) (bs.drop k) := by
  have hshort := hc.short
  have htake : (bs.take k).length = k := by rw [List.length_take]; omega
  have hlen : bs.length = k + (bs.drop k).length := by rw [List.length_drop]; omega
  have hmap := hc.mapped
  have hsafe := hc.safe
  rw [hlen] at hmap hsafe
  refine ⟨by rw [List.length_drop]; omega, ?_, ?_, ?_⟩
  · have hsrc : s.mem.Holds (s.regs .esi) (bs.take k ++ bs.drop k) := by
      rw [List.take_append_drop]
      exact hc.source
    have hrest := hsrc.shift
    rw [htake] at hrest
    rw [h.mem, h.esi]
    refine hrest.congr fun i hi => Mem.overwrite_outside _ ?_
    rw [htake, BitVec.add_assoc, ofN_add]
    exact hc.safe.outside (by omega) (by omega) (by omega)
  · rw [h.mem, h.edi]
    exact hmap.shift.overwrite (by rw [htake]; exact hc.mapped.le hk)
  · rw [h.esi, h.edi]
    exact hsafe.shift

/-- The next `j` bytes behind those that are copied. -/
theorem Copied.append (h : Copied s bs k s1) (hn : bs.length < 2 ^ 32) (hj : k + j ≤ bs.length) :
    s1.mem.overwrite (s1.regs .edi) ((bs.drop k).take j) =
      s.mem.overwrite (s.regs .edi) (bs.take (k + j)) := by
  have happ := @Mem.overwrite_append (bs.take k) ((bs.drop k).take j) s.mem (s.regs .edi)
    (by simp; omega)
  have htake : (bs.take k).length = k := by rw [List.length_take]; omega
  rw [htake] at happ
  rw [h.mem, h.edi, happ, List.take_add]

end Copy

theorem memcpy_byWords (env : Env) {s : State} {bs : List Byte}
    (hc : Copyable s.mem (s.regs .esi) (s.regs .edi) bs) :
    ByWords env memcpy 4 bs.length (Copied s bs) where
  top := rfl
  testTop := rfl
  exitTop := rfl
  testAlign := rfl
  exitAlign := rfl
  subTop := rfl
  jmpTop := rfl
  aligned := rfl
  ds := rfl
  es := rfl
  rest := rfl
  words := rfl
  mask := rfl
  cld := rfl
  bottom := rfl
  testBottom := rfl
  exitBottom := rfl
  subBottom := rfl
  jmpBottom := rfl
  toTop := rfl
  toAligned := rfl
  toBottom := rfl
  toDone := rfl
  congr := by
    intro k s1 s2 h hmem _ hreg
    exact ⟨hmem.trans h.mem, (hreg _ (by simp) (by simp)).trans h.edi,
      (hreg _ (by simp) (by simp)).trans h.esi, h.kept.congr hreg⟩
  body := by
    intro k s1 hpc h hk
    have hshort := hc.short
    have hrest := h.rest hc (by omega)
    obtain ⟨x, xs, hdrop⟩ : ∃ x xs, bs.drop k = x :: xs := by
      cases hd : bs.drop k with
      | nil => rw [List.drop_eq_nil_iff] at hd; omega
      | cons x xs => exact ⟨x, xs, rfl⟩
    rw [hdrop] at hrest
    have hload : s1.mem (s1.regs .esi) = some x := by
      simpa [ofN_zero] using hrest.source 0 (by simp)
    have hstore : s1.mem.store (s1.regs .edi) [x] =
        some (s.mem.overwrite (s.regs .edi) (bs.take (k + 1))) := by
      rw [Mem.Mapped.store (hrest.mapped.le (by simp)) (by simp),
        ← h.append hshort (by omega), hdrop]
      rfl
    let s2 := (s1.set .eax (s1.regs .eax >>> 8 <<< 8 ||| x.setWidth 32)).adv
    let s3 := { s2 with mem := s.mem.overwrite (s.regs .edi) (bs.take (k + 1)) }.adv
    let s4 := ((s3.set .edi (s3.regs .edi + 1)).setFlags (s3.flags.add (s3.regs .edi) 1)).adv
    let s5 := ((s4.set .esi (s4.regs .esi + 1)).setFlags (s4.flags.add (s4.regs .esi) 1)).adv
    have step1 : memcpy[s1.pc]? = some (.movb (at' .esi) (.reg .eax)) := by
      rcases hpc with hpc | hpc <;> rw [hpc] <;> rfl
    have step2 : memcpy[s2.pc]? = some (.movb (.reg .eax) (at' .edi)) := by
      rcases hpc with hpc | hpc <;> rw [State.adv_pc, State.set_pc, hpc] <;> rfl
    have step3 : memcpy[s3.pc]? = some (.alu .add (.imm 1) (.reg .edi)) := by
      rcases hpc with hpc | hpc <;> rw [State.adv_pc, State.adv_pc, State.set_pc, hpc] <;> rfl
    have step4 : memcpy[s4.pc]? = some (.alu .add (.imm 1) (.reg .esi)) := by
      rcases hpc with hpc | hpc <;>
        rw [State.adv_pc, State.setFlags_pc, State.set_pc, State.adv_pc, State.adv_pc,
          State.set_pc, hpc] <;> rfl
    have hexec1 : exec env memcpy s1 (.movb (at' .esi) (.reg .eax)) = some s2 := by
      rw [exec, at', State.readByte, State.ea_base, hload]
      rfl
    have hexec2 : exec env memcpy s2 (.movb (.reg .eax) (at' .edi)) = some s3 := by
      have hal : (s2.regs .eax).setWidth 8 = x := by simp [s2, State.set]
      rw [exec, State.readByte, Option.bind_some, hal, at', State.writeByte, State.ea_base]
      exact congrArg (Option.map State.adv) (congrArg (Option.map _) hstore)
    refine ⟨s5, .next step1 hexec1 (.next step2 hexec2 (.next step3 rfl (.one step4 rfl))), rfl,
      ⟨rfl, ?_, ?_, ?_⟩, ?_, ?_⟩
    · simp [s5, s4, s3, s2, State.set, h.edi, ofN_succ, BitVec.add_assoc]
    · simp [s5, s4, s3, s2, State.set, h.esi, ofN_succ, BitVec.add_assoc]
    · intro r hr
      rw [← h.kept r hr]
      rcases hr with rfl | rfl | rfl <;> rfl
    · rfl
    · rfl
  unit := by
    intro k j s1 hpc h hes hdf hcx hj
    have hshort := hc.short
    have hrest := h.rest hc (by omega)
    have hi : memcpy[s1.pc]? = some (.repMovs 4) := by rw [hpc]; rfl
    have hlen : (bs.drop k).length = bs.length - k := List.length_drop
    have hsrc : s1.mem.Holds (s1.regs .esi) ((bs.drop k).take (j * 4)) := by
      have := hrest.source
      rw [← List.take_append_drop (j * 4) (bs.drop k)] at this
      exact this.left
    have hsafe : UpSafe (s1.regs .esi) (s1.regs .edi) (j * 4) := by
      rcases hrest.safe with heq | hle
      · exact Or.inl heq
      · exact Or.inr (by omega)
    obtain ⟨s2, hs2, hend, hsi, hdi⟩ := repMovs_forward env memcpy j hi hes hdf
      (by rw [List.length_take]; omega) hcx (by omega) (by omega) hsrc
      (hrest.mapped.le (by omega)) hsafe
    refine ⟨s2, hs2, by rw [hend.pc, hpc], ⟨?_, ?_, ?_, ?_⟩, hend.other .edx (by simp) (by simp)
      (by simp)⟩
    · rw [hend.mem, h.append hshort hj]
    · rw [hdi, h.edi, BitVec.add_assoc, ofN_add]
    · rw [hsi, h.esi, BitVec.add_assoc, ofN_add]
    · intro r hr
      rw [← h.kept r hr]
      rcases hr with rfl | rfl | rfl <;> exact hend.other _ (by simp) (by simp) (by simp)

/-- `memcpy` copies the `n` bytes from `src` on, also to a destination that overlaps them from
below. -/
theorem memcpy_copies (env : Env) (s : State) (dst src n : W) (bs : List Byte)
    (hn : bs.length = n.toNat) (hsrc : s.mem.Holds src bs) (hmap : s.mem.Mapped dst n.toNat)
    (hsafe : UpSafe src dst n.toNat) :
    ∃ s', Steps env memcpy (enter s dst n .esi src) s' ∧ s'.pc = target memcpy .done ∧
      s'.mem = s.mem.overwrite dst bs ∧ Kept s s' := by
  let s0 := enter s dst n .esi src
  have hdi : s0.regs .edi = dst := by simp [s0, enter, State.set]
  have hsi : s0.regs .esi = src := by simp [s0, enter, State.set]
  have hcx : s0.regs .ecx = ofN bs.length := by simp [s0, enter, State.set, ofN_toNat, hn]
  have hstart : Copied s0 bs 0 s0 := ⟨by simp, by simp [ofN_zero], by simp [ofN_zero], fun _ _ => rfl⟩
  have hlt : bs.length < 2 ^ 32 := hn ▸ n.isLt
  have hc : Copyable s0.mem (s0.regs .esi) (s0.regs .edi) bs := by
    rw [hdi, hsi]
    rw [← hn] at hmap hsafe
    exact ⟨hlt, hsrc, hmap, hsafe⟩
  obtain ⟨s', hs', hpc, hend⟩ := (memcpy_byWords env hc).run bs.length rfl hstart hcx
    (Nat.zero_add _) hlt
  refine ⟨s', hs', hpc, ?_, fun r hr => ?_⟩
  · rw [hend.mem, hdi, List.take_length]
    rfl
  · rw [hend.kept r hr]
    rcases hr with rfl | rfl | rfl <;> rfl

/-- A row of ten bytes moves down by one. -/
theorem memcpy_copies_down : ∃ s', Steps noCalls memcpy (enter flat 0x1002 10 .esi 0x1003) s' ∧
    s'.mem 0x1002 = some 0x03 ∧ s'.mem 0x100B = some 0x0C ∧ s'.mem 0x100C = some 0x0C := by
  obtain ⟨s', hs, _, hmem, _⟩ := memcpy_copies noCalls flat 0x1002 0x1003 10 _ rfl
    (flat_holds 0x1003 10) (flat_mapped _ _) (Or.inr (by decide))
  exact ⟨s', hs, by rw [hmem]; rfl, by rw [hmem]; rfl, by rw [hmem]; rfl⟩

/-! ## `memmove` -/

/-- `memmove` copies ranges that overlap in any way. The direction flag stays set when the
destination is above the source. -/
theorem memmove_copies (env : Env) (s : State) (dst src n : W) (bs : List Byte)
    (hn : bs.length = n.toNat) (hsrc : s.mem.Holds src bs) (hmap : s.mem.Mapped dst n.toNat)
    (hs : src.toNat + n.toNat ≤ 2 ^ 32) (hd : dst.toNat + n.toNat ≤ 2 ^ 32) :
    ∃ s', Steps env memmove (enter s dst n .esi src) s' ∧ s'.pc = memmove.length ∧
      s'.mem = s.mem.overwrite dst bs ∧ Kept s s' ∧
      s'.flags.df = decide (src.toNat < dst.toNat) := by
  let s0 := enter s dst n .esi src
  let s1 := (s0.set .edx (setLow16 (s0.regs .edx) (s0.seg .ds))).adv
  let s2 := { s1.adv with seg := Function.update s1.seg .es ((s1.regs .edx).setWidth 16) }
  let s3 := (s2.setFlags { s2.flags with df := false }).adv
  let s4 := (s3.setFlags (s3.flags.sub (s3.regs .esi) (s3.regs .edi))).adv
  have hsteps : Steps env memmove s0 s4 :=
    .next rfl rfl <| .next rfl rfl <| .next rfl rfl <| .one rfl rfl
  have hdi : s4.regs .edi = dst := by simp [s4, s3, s2, s1, s0, enter, State.set]
  have hsi : s4.regs .esi = src := by simp [s4, s3, s2, s1, s0, enter, State.set]
  have hcx : s4.regs .ecx = ofN bs.length := by
    simp [s4, s3, s2, s1, s0, enter, State.set, ofN_toNat, hn]
  have hes : s4.seg .es = s4.seg .ds := by simp [s4, s3, s2, s1]
  have hae : s4.flags.holds .ae = decide (dst.toNat ≤ src.toNat) := by
    rw [← hdi, ← hsi]
    exact Flags.holds_sub_ae ..
  have hlt : bs.length < 2 ^ 32 := hn ▸ n.isLt
  rw [← hn] at hmap hs hd
  by_cases hle : dst.toNat ≤ src.toNat
  · rw [decide_eq_true hle] at hae
    have hsafe : UpSafe src dst bs.length := by
      by_cases heq : dst = src
      · exact Or.inl heq
      · have hne : dst.toNat ≠ src.toNat := fun h => heq (BitVec.eq_of_toNat_eq h)
        exact Or.inr (by rw [BitVec.toNat_sub]; omega)
    let s5 := { s4 with pc := target memmove .go }.adv
    obtain ⟨s6, hs6, hend, _, _⟩ := @repMovs_forward Label _ env memmove 1
      bs.length s5 bs rfl hes rfl (by omega) hcx hlt (by omega) (hsi ▸ hsrc)
      (by rw [Nat.mul_one]; exact hdi ▸ hmap) (by rw [Nat.mul_one]; exact hsi ▸ hdi ▸ hsafe)
    refine ⟨s6, hsteps.trans (.next rfl (exec_jcc_true hae) (.next rfl rfl hs6)), hend.pc, ?_, ?_, ?_⟩
    · rw [hend.mem]
      exact congrArg (fun a => s.mem.overwrite a bs) hdi
    · intro r hr
      rcases hr with rfl | rfl | rfl <;> exact hend.other _ (by simp) (by simp) (by simp)
    · rw [hend.flags, decide_eq_false (by omega)]
      rfl
  · rw [decide_eq_false hle] at hae
    have hsafe : DownSafe src dst bs.length := by
      rw [DownSafe, BitVec.toNat_sub]
      omega
    let s5 := s4.adv
    let s6 := (s5.set .esi (s5.ea ⟨-1, some .esi, some (.ecx, 1)⟩)).adv
    let s7 := (s6.set .edi (s6.ea ⟨-1, some .edi, some (.ecx, 1)⟩)).adv
    let s8 := ((s7.setFlags { s7.flags with df := true }).adv).adv
    have hlast : ∀ a k : W, -1 + a + k * 1 = a + k - 1 := by
      intro a k
      have hone : k * 1 = k := BitVec.mul_one k
      rw [hone, BitVec.add_assoc, BitVec.add_comm, BitVec.sub_eq_add_neg]
    have hsi8 : s8.regs .esi = src + ofN bs.length - 1 := by
      rw [← hsi, ← hcx, ← hlast]
      rfl
    have hdi8 : s8.regs .edi = dst + ofN bs.length - 1 := by
      rw [← hdi, ← hcx, ← hlast]
      rfl
    obtain ⟨s9, hs9, hend⟩ := @repMovsb_backward Label _ env memmove bs s8 src dst rfl hes
      rfl hcx hlt hsi8 hdi8 hsrc hmap hsafe
    refine ⟨s9, hsteps.trans (.next rfl (exec_jcc_false hae) (.next rfl rfl (.next rfl rfl
      (.next rfl rfl (.next rfl rfl hs9))))), hend.pc, hend.mem, ?_, ?_⟩
    · intro r hr
      rcases hr with rfl | rfl | rfl <;> exact hend.other _ (by simp) (by simp) (by simp)
    · rw [hend.flags, decide_eq_true (by omega)]
      rfl

/-- A row of ten bytes moves up by one. -/
theorem memmove_copies_up : ∃ s', Steps noCalls memmove (enter flat 0x1003 10 .esi 0x1002) s' ∧
    s'.mem 0x1003 = some 0x02 ∧ s'.mem 0x100C = some 0x0B ∧ s'.flags.df = true := by
  obtain ⟨s', hs, _, hmem, _, hdf⟩ := memmove_copies noCalls flat 0x1003 0x1002 10 _ rfl
    (flat_holds 0x1002 10) (flat_mapped _ _) (by decide) (by decide)
  exact ⟨s', hs, by rw [hmem]; rfl, by rw [hmem]; rfl, hdf⟩

end LibC
end DeviceOS
