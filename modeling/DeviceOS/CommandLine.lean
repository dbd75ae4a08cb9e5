import DeviceOS.Lib.Buffers
import DeviceOS.Loader
import DeviceOS.Machine

/-!
# DeviceOS.CommandLine

The command that `execute` gets, and the arguments that `getargs` hands over.

* `CString.name`, `CString.args`: the text before the first space, and the text after it.
* `parseCommand_ok`, `parseCommand_overflow`: what the parser leaves in its two arrays, and when it
  stores outside of them. The name is cut off after 32 bytes, and the arguments with it.
* `copyArgs8`: the copy of the arguments, with its 8-bit index.
* `execute_parses_safely`, `execute_splits_command`, `getargs_all_or_nothing`.
-/

namespace DeviceOS

open Buffers (fill fill_nil fill_cons)

namespace CString

def name (cmd : CString) : CString := cmd.takeWhile (· ≠ 32)

def args (cmd : CString) : CString := (cmd.dropWhile (· ≠ 32)).tail

def NulFree (s : CString) : Prop := ∀ c ∈ s, c ≠ 0

/-- The arguments that the parser keeps: none when the name has 32 bytes or more. -/
def kept (cmd : CString) : CString := if cmd.name.length < filenameLen then cmd.args else []

variable {c : UInt8} {cs cmd : CString}

instance : Decidable cmd.NulFree := List.decidableBAll (· ≠ 0) cmd

@[simp] theorem name_nil : name [] = [] := rfl

@[simp] theorem args_nil : args [] = [] := rfl

theorem name_space : name (32 :: cs) = [] := by
  simp [name]

theorem args_space : args (32 :: cs) = cs := by
  simp [args]

theorem name_cons (h : c ≠ 32) : name (c :: cs) = c :: name cs := by
  simp [name, h]

theorem args_cons (h : c ≠ 32) : args (c :: cs) = args cs := by
  simp [args, h]

theorem args_of_no_space (h : 32 ∉ cmd) : cmd.args = [] := by
  have hdrop : cmd.dropWhile (· ≠ 32) = [] := by
    rw [List.dropWhile_eq_nil_iff]
    intro c hc
    have hne : c ≠ 32 := fun heq => h (heq ▸ hc)
    simpa using hne
  rw [args, hdrop]
  rfl

theorem NulFree.name (h : cmd.NulFree) : cmd.name.NulFree :=
  fun c hc => h c (List.takeWhile_subset _ hc)

theorem NulFree.args (h : cmd.NulFree) : cmd.args.NulFree := by
  intro c hc
  exact h c (List.dropWhile_subset _ (List.mem_of_mem_tail hc))

theorem kept_length (h : filenameLen ≤ cmd.name.length ∨ cmd.args.length < maxArgsSize) :
    cmd.kept.length < maxArgsSize := by
  unfold kept
  split
  · omega
  · decide

/-- The parser keeps the arguments, unless there are some and it does not get to the space. -/
theorem kept_eq_args : cmd.kept = cmd.args ↔ cmd.name.length < filenameLen ∨ cmd.args = [] := by
  unfold kept
  constructor
  · intro h
    split at h
    · rename_i hlt
      exact Or.inl hlt
    · exact Or.inr h.symm
  · intro h
    split
    · rfl
    · rename_i hge
      exact (h.resolve_left hge).symm

theorem NulFree.kept (h : cmd.NulFree) : cmd.kept.NulFree := by
  unfold CString.kept
  split
  · exact h.args
  · intro c hc
    cases hc

end CString

open CString (NulFree)

/-! ## The parser -/

theorem parseLoop_cons (c : UInt8) (cs : CString) (st : Parse) :
    parseLoop (c :: cs) st =
      if c = 0 then .ok st
      else if c = 32 ∧ st.argflag = false then
        (storeLocal (filenameLen + 1) st.filename st.parse 0).bind fun a =>
          parseLoop cs { st with
            filename := a, argflag := true, parse := st.parse + 1, fnamend := st.parse + 1 }
      else
        (st.storeChar c).bind fun st1 =>
          if st1.parse = filenameLen ∧ st1.argflag = false then .ok st1 else parseLoop cs st1 :=
  rfl

/-- Once the first space is found the rest of the command goes to `arguments`. -/
theorem parseLoop_args : ∀ {cs : CString} (st : Parse), cs.NulFree → st.argflag = true →
    st.fnamend ≤ st.parse →
    parseLoop cs st = if cs = [] ∨ st.parse - st.fnamend + cs.length ≤ maxArgsSize then
        .ok { st with
          parse := st.parse + cs.length
          arguments := fill st.arguments (st.parse - st.fnamend) cs }
      else .error .localArray := by
  intro cs
  induction cs with
  | nil =>
    intro st _ _ _
    simp [parseLoop]
  | cons c cs ih =>
    intro st hnul hflag hle
    have hc : c ≠ 0 := hnul c (by simp)
    rw [parseLoop_cons, if_neg hc, if_neg (by simp [hflag])]
    unfold Parse.storeChar storeLocal
    rw [if_pos hflag]
    by_cases hroom : st.parse - st.fnamend < maxArgsSize
    · have hrest := ih { st with
          arguments := Function.update st.arguments (st.parse - st.fnamend) c
          parse := st.parse + 1 } (fun x hx => hnul x (by simp [hx])) hflag (Nat.le_succ_of_le hle)
      rw [if_pos hroom]
      simp only [Except.map, Except.bind]
      rw [if_neg (by simp [hflag]), hrest]
      have hj : st.parse + 1 - st.fnamend = st.parse - st.fnamend + 1 := by omega
      have hiff : (cs = [] ∨ st.parse - st.fnamend + 1 + cs.length ≤ maxArgsSize) ↔
          (c :: cs = [] ∨ st.parse - st.fnamend + (c :: cs).length ≤ maxArgsSize) := by
        simp only [List.length_cons, reduceCtorEq, false_or]
        constructor
        · rintro (rfl | h)
          · simp only [List.length_nil]
            omega
          · omega
        · intro h
          right
          omega
      simp only [hj, hiff, fill_cons, List.length_cons]
      rw [Nat.add_assoc, Nat.add_comm 1]
    · rw [if_neg hroom, if_neg (by simp only [List.length_cons, reduceCtorEq, false_or]; omega)]
      rfl

/-- Up to the first space the command goes to `filename`, at most 32 bytes of it. -/
theorem parseLoop_name : ∀ {cs : CString} (st : Parse), cs.NulFree → st.argflag = false →
    st.parse < filenameLen →
    parseLoop cs st = if st.parse + cs.name.length < filenameLen then
        if 32 ∈ cs then parseLoop cs.args { st with
          filename := Function.update (fill st.filename st.parse cs.name)
            (st.parse + cs.name.length) 0
          argflag := true
          parse := st.parse + cs.name.length + 1
          fnamend := st.parse + cs.name.length + 1 }
        else .ok { st with
          filename := fill st.filename st.parse cs.name
          parse := st.parse + cs.name.length }
      else .ok { st with
        filename := fill st.filename st.parse (cs.name.take (filenameLen - st.parse))
        parse := filenameLen } := by
  intro cs
  induction cs with
  | nil =>
    intro st _ _ hlt
    simp [parseLoop, hlt]
  | cons c cs ih =>
    intro st hnul hflag hlt
    have hc : c ≠ 0 := hnul c (by simp)
    rw [parseLoop_cons, if_neg hc]
    by_cases hsp : c = 32
    · subst hsp
      unfold storeLocal
      rw [if_pos ⟨rfl, hflag⟩, if_pos (by omega), CString.name_space, CString.args_space]
      simp [Except.bind, hlt]
    · rw [if_neg (fun h => hsp h.1), CString.name_cons hsp, CString.args_cons hsp]
      unfold Parse.storeChar storeLocal
      rw [if_neg (by simp [hflag]), if_pos (by omega)]
      simp only [Except.map, Except.bind, List.length_cons]
      have hmem : 32 ∈ c :: cs ↔ 32 ∈ cs := by
        simp [Ne.symm hsp]
      by_cases hfull : st.parse + 1 = filenameLen
      · rw [if_pos ⟨hfull, hflag⟩, if_neg (by omega)]
        have hone : filenameLen - st.parse = 1 := by omega
        simp [hone, hfull, fill_cons]
      · have hrest := ih { st with
            filename := Function.update st.filename st.parse c
            parse := st.parse + 1 } (fun x hx => hnul x (by simp [hx])) hflag
            (show st.parse + 1 < filenameLen by omega)
        rw [if_neg (fun h => hfull h.1), hrest]
        have hlen : st.parse + 1 + (CString.name cs).length =
            st.parse + ((CString.name cs).length + 1) := by omega
        have htake : filenameLen - st.parse = filenameLen - (st.parse + 1) + 1 := by omega
        simp only [hlen, hmem, fill_cons, htake, List.take_succ_cons]

theorem parseLoop_start {cmd : CString} (hnul : cmd.NulFree) :
    parseLoop cmd ⟨0, 0, false, fun _ => 0, fun _ => 0⟩ =
      if cmd.name.length < filenameLen then
        if 32 ∈ cmd then parseLoop cmd.args
          ⟨cmd.name.length + 1, cmd.name.length + 1, true, fill (fun _ => 0) 0 cmd.name, fun _ => 0⟩
        else .ok ⟨cmd.name.length, 0, false, fill (fun _ => 0) 0 cmd.name, fun _ => 0⟩
      else .ok ⟨filenameLen, 0, false, fill (fun _ => 0) 0 (cmd.name.take filenameLen),
        fun _ => 0⟩ := by
  rw [parseLoop_name _ hnul rfl (by decide)]
  have hend := Buffers.update_fill_end (fun _ => (0 : UInt8)) cmd.name
  simp only [Nat.zero_add, Nat.sub_zero, hend]

/-- What the parser leaves in its arrays: the name, cut off after 32 bytes, and the arguments, if the
name is shorter than 32 bytes. -/
theorem parseCommand_ok {cmd : CString} (hnul : cmd.NulFree)
    (h : filenameLen ≤ cmd.name.length ∨ cmd.args.length < maxArgsSize) :
    ∃ st, parseCommand cmd = .ok st ∧
      st.filename = fill (fun _ => 0) 0 (cmd.name.take filenameLen) ∧
      st.arguments = fill (fun _ => 0) 0 cmd.kept := by
  have hzero : ∀ i, Function.update (fun _ : Nat => (0 : UInt8)) i 0 = fun _ => 0 :=
    fun i => Function.update_eq_self i fun _ => (0 : UInt8)
  unfold parseCommand CString.kept
  rw [parseLoop_start hnul]
  by_cases hlt : cmd.name.length < filenameLen
  · have htake : cmd.name.take filenameLen = cmd.name := List.take_of_length_le hlt.le
    rw [if_pos hlt, if_pos hlt, htake]
    by_cases hsp : 32 ∈ cmd
    · have hargs : cmd.args.length < maxArgsSize := by omega
      rw [if_pos hsp, parseLoop_args _ hnul.args rfl (le_refl _), if_pos (by simp only; omega)]
      have hend := Buffers.update_fill_end (fun _ => (0 : UInt8)) cmd.args
      simp [Except.bind, Except.map, storeLocal, hargs, hend]
    · rw [if_neg hsp, CString.args_of_no_space hsp]
      have hend := Buffers.update_fill_end (fun _ => (0 : UInt8)) cmd.name
      have hroom : cmd.name.length < filenameLen + 1 ∧ cmd.name.length < maxArgsSize := by
        simp only [filenameLen, maxArgsSize] at *
        omega
      simp [Except.bind, Except.map, storeLocal, hroom, hend]
  · have hlen : (cmd.name.take filenameLen).length = filenameLen := by
      rw [List.length_take]
      omega
    have hend := Buffers.update_fill_end (fun _ => (0 : UInt8)) (cmd.name.take filenameLen)
    rw [hlen] at hend
    rw [if_neg hlt, if_neg hlt]
    refine ⟨⟨filenameLen, 0, false, fill (fun _ => 0) 0 (cmd.name.take filenameLen), fun _ => 0⟩,
      ?_, rfl, by simp⟩
    simp only [Except.bind, Except.map, storeLocal, Bool.false_eq_true, if_false, Nat.lt_succ_self,
      if_true, hend, Nat.sub_zero, hzero]
    rfl

/-- Arguments that do not fit are stored outside of `arguments`. -/
theorem parseCommand_overflow {cmd : CString} (hnul : cmd.NulFree)
    (hname : cmd.name.length < filenameLen) (hargs : maxArgsSize ≤ cmd.args.length) :
    parseCommand cmd = .error .localArray := by
  have hsp : 32 ∈ cmd := by
    by_contra hno
    rw [CString.args_of_no_space hno] at hargs
    exact absurd hargs (by decide)
  have hne : cmd.args ≠ [] := by
    intro hnil
    rw [hnil] at hargs
    exact absurd hargs (by decide)
  unfold parseCommand
  rw [parseLoop_start hnul, if_pos hname, if_pos hsp, parseLoop_args _ hnul.args rfl (le_refl _)]
  by_cases hfit : cmd.args.length ≤ maxArgsSize
  · have hlen : cmd.args.length = maxArgsSize := by omega
    simp [hlen, Except.bind, Except.map, storeLocal]
  · rw [if_neg (by simp only [hne, Nat.sub_self, false_or]; omega)]
    rfl

/-- The string that the parser leaves in `filename`. -/
theorem cstr_name {cmd : CString} (hnul : cmd.NulFree) :
    cstr (filenameLen + 1) (fill (fun _ => 0) 0 (cmd.name.take filenameLen)) =
      cmd.name.take filenameLen := by
  apply Buffers.string_fill
  · intro c hc
    exact hnul.name c (List.mem_of_mem_take hc)
  · rw [List.length_take]
    omega
  · rfl

/-! ## The copy of the arguments -/

/-- The loop that copies `arguments` to `args_array`, with `uint8_t i`, for at most `n` tests of its
condition: the indices stored to, and the array after it. -/
def copyArgs8 (src : Nat → UInt8) :
    Nat → UInt8 → (Nat → UInt8) → Option (List Nat × (Nat → UInt8))
  | 0, _, _ => none
  | n + 1, i, dst =>
    if src i.toNat = 0 then some ([], dst)
    else (copyArgs8 src n (i + 1) (Function.update dst i.toNat (src i.toNat))).map fun r =>
      (i.toNat :: r.1, r.2)

/-- The loop on a string that ends within the 128 bytes of `arguments`: it ends at the NUL, before
the index wraps. -/
theorem copyArgs8_eq {src : Nat → UInt8} : ∀ {xs : List UInt8} {i : UInt8} {dst : Nat → UInt8},
    NulFree xs → i.toNat + xs.length < maxArgsSize →
    (∀ j (h : j < xs.length), src (i.toNat + j) = xs[j]) → src (i.toNat + xs.length) = 0 →
      copyArgs8 src (xs.length + 1) i dst =
        some (List.range' i.toNat xs.length, fill dst i.toNat xs) := by
  intro xs
  induction xs with
  | nil =>
    intro i dst _ _ _ hend
    have h0 : src i.toNat = 0 := by simpa using hend
    simp [copyArgs8, h0]
  | cons x xs ih =>
    intro i dst hnul hroom hget hend
    have hx : src i.toNat = x := hget 0 (by simp)
    have hne : x ≠ 0 := hnul x (by simp)
    have hi : (i + 1).toNat = i.toNat + 1 := by
      rw [UInt8.toNat_add]
      simp only [maxArgsSize, List.length_cons] at hroom
      exact Nat.mod_eq_of_lt (by simp; omega)
    have hrest := @ih (i + 1) (Function.update dst i.toNat x)
      (fun y hy => hnul y (by simp [hy]))
      (by rw [hi]; simp only [List.length_cons] at hroom; omega)
      (fun j hj => by
        have := hget (j + 1) (by simpa using hj)
        rw [hi, Nat.add_assoc, Nat.add_comm 1]
        simpa using this)
      (by rw [hi, Nat.add_assoc, Nat.add_comm 1]; simpa using hend)
    unfold copyArgs8
    rw [hx, if_neg hne, List.length_cons, hrest, hi]
    simp [fill_cons, List.range'_succ]

/-- The copy of the model, which has an index that does not wrap. -/
theorem copyArgs_eq {src : Nat → UInt8} : ∀ {xs : List UInt8} {n i : Nat} {dst : Nat → UInt8},
    NulFree xs → xs.length < n → (∀ j (h : j < xs.length), src (i + j) = xs[j]) →
    src (i + xs.length) = 0 → Proc.copyArgs src n i dst = fill dst i xs := by
  intro xs
  induction xs with
  | nil =>
    intro n i dst _ hn _ hend
    have h0 : src i = 0 := by simpa using hend
    cases n with
    | zero => simp at hn
    | succ n => simp [Proc.copyArgs, h0]
  | cons x xs ih =>
    intro n i dst hnul hn hget hend
    cases n with
    | zero => simp at hn
    | succ n =>
      have hx : src i = x := hget 0 (by simp)
      have hne : x ≠ 0 := hnul x (by simp)
      unfold Proc.copyArgs
      rw [hx, if_neg hne, fill_cons]
      refine ih (fun y hy => hnul y (by simp [hy])) (by simpa using hn) (fun j hj => ?_) ?_
      · have := hget (j + 1) (by simpa using hj)
        rw [Nat.add_assoc, Nat.add_comm 1]
        simpa using this
      · rw [Nat.add_assoc, Nat.add_comm 1]
        simpa using hend

/-- A string in an array of zeros. -/
theorem fill_zeros (xs : CString) :
    (∀ j (h : j < xs.length), fill (fun _ => 0) 0 xs (0 + j) = xs[j]) ∧
      fill (fun _ => (0 : UInt8)) 0 xs (0 + xs.length) = 0 := by
  constructor
  · intro j h
    rw [Nat.zero_add, Buffers.fill_zero, List.getElem?_eq_getElem h]
    rfl
  · rw [Nat.zero_add, Buffers.fill_of_le (le_refl _)]

/-! ## Memory safety -/

/-- The stores of the parser stay inside its arrays; the copy of the arguments ends, and its stores
stay inside `args_array`. -/
def ParsesSafely (cmd : CString) : Prop :=
  ∃ st, parseCommand cmd = .ok st ∧ ∀ dst, ∃ n l dst',
    copyArgs8 st.arguments n 0 dst = some (l, dst') ∧ ∀ i ∈ l, i < maxArgsSize

/-- For a command of any length: `execute` stores inside its arrays exactly when at most 127 bytes
follow the first space, or this space comes after 32 bytes or more. -/
theorem execute_parses_safely (cmd : CString) (hnul : cmd.NulFree) :
    ParsesSafely cmd ↔ 32 ≤ cmd.name.length ∨ cmd.args.length ≤ 127 := by
  constructor
  · rintro ⟨st, hst, _⟩
    by_contra hbad
    have hover := parseCommand_overflow hnul (by simp only [filenameLen]; omega)
      (by simp only [maxArgsSize]; omega)
    rw [hover] at hst
    cases hst
  · intro h
    obtain ⟨st, hst, _, hargs⟩ := parseCommand_ok hnul (by
      simp only [filenameLen, maxArgsSize]
      omega)
    refine ⟨st, hst, fun dst => ?_⟩
    have hshort : cmd.kept.length < maxArgsSize := CString.kept_length (by
      simp only [filenameLen, maxArgsSize]
      omega)
    obtain ⟨hget, hend⟩ := fill_zeros cmd.kept
    have hloop := @copyArgs8_eq st.arguments cmd.kept 0 dst hnul.kept (by simpa using hshort)
      (by rw [hargs]; exact hget) (by rw [hargs]; exact hend)
    refine ⟨_, _, _, hloop, fun i hi => ?_⟩
    rw [List.mem_range'_1] at hi
    exact lt_of_lt_of_le hi.2 (by simpa using hshort.le)

/-- `cat` with a file name. -/
theorem execute_parses_safely_cat : ParsesSafely (Machine.catName ++ [32, 97]) :=
  (execute_parses_safely (Machine.catName ++ [32, 97]) (by decide)).mpr (Or.inr (by decide))

/-- One letter, a space and 128 letters. -/
theorem long_arguments_overflow : ¬ ∀ cmd : CString, cmd.NulFree → ParsesSafely cmd := by
  intro h
  have hnul : NulFree (97 :: 32 :: List.replicate 128 98) := by
    simp [NulFree]
  have hover : parseCommand (97 :: 32 :: List.replicate 128 98) = .error .localArray := by
    apply parseCommand_overflow hnul
    · simp [CString.name, filenameLen]
    · simp [CString.args, maxArgsSize]
  obtain ⟨st, hst, _⟩ := h _ hnul
  rw [hover] at hst
  cases hst

/-! ## What the program gets -/

namespace Proc

variable {img : Image} {cur : Term} {p : Proc} {cmd : CString} {regs : Frame}

theorem prepared_args {q : Pid} {p1 : Proc} (h : (p.prepared cur q).Stored p1) {i : Nat}
    (hi : i < maxArgsSize) : (p1.pcb q).argsArray i = 0 := by
  obtain ⟨mem, rfl, _⟩ := h
  simp [prepared, createPcb, mapProgramMem, hi]

/-- The arguments of a program that is started are those that the parser kept. -/
theorem enter_args (hnul : cmd.NulFree)
    (hshort : filenameLen ≤ cmd.name.length ∨ cmd.args.length < maxArgsSize) {q : Pid} {p' : Proc}
    (h : p.execute img cur (some cmd) regs = .enter q p') {i : Nat} (hi : i < maxArgsSize) :
    (p'.pcb q).argsArray i = (cmd.kept[i]?).getD 0 := by
  obtain ⟨prog, p1, hl, hst, rfl⟩ := execute_enter h
  obtain ⟨cmd', hc, hf⟩ := hl.1.found
  cases hc
  obtain ⟨st, _, hparse, _, _, hargs, _⟩ := findProgram_some hf
  obtain ⟨st', hparse', _, hkept⟩ := parseCommand_ok hnul hshort
  rw [hparse] at hparse'
  cases hparse'
  have hlen := CString.kept_length hshort
  obtain ⟨hget, hend⟩ := fill_zeros cmd.kept
  simp only [launch, Function.update_self]
  rw [hargs, hkept, copyArgs_eq hnul.kept hlen hget hend, Buffers.fill_zero, prepared_args hst hi]

/-- What the parser lets `execute` look for. -/
theorem execute_missing (hnul : cmd.NulFree)
    (hshort : filenameLen ≤ cmd.name.length ∨ cmd.args.length < maxArgsSize)
    (h : img.readDentryByName (cmd.name.take filenameLen) = .ok none) :
    p.execute img cur (some cmd) regs = .ret (-1) p := by
  obtain ⟨st, hst, hname, _⟩ := parseCommand_ok hnul hshort
  have hnone : findProgram img cmd = .ok none := by
    simp only [findProgram, hst, Except.bind]
    rw [hname, cstr_name hnul, h]
  unfold execute
  cases p.freePid with
  | none => rfl
  | some q => simp [hnone]

end Proc

/-- What `execute` has to do with a command: look for the text before the first space, fail when
this is too long or not there, start the program of the entry that has this name, and give it the
text after the space, followed by NULs. -/
structure Splits (img : Image) (cur : Term) (p : Proc) (cmd : CString) (regs : Frame) : Prop where
  lookup : cmd.name.length ≤ filenameLen →
    ∃ st, parseCommand cmd = .ok st ∧ cstr (filenameLen + 1) st.filename = cmd.name
  program : ∀ q p', p.execute img cur (some cmd) regs = .enter q p' →
    ∃ entry prog p1, img.readDentryByName cmd.name = .ok (some entry) ∧
      findProgram img cmd = .ok (some prog) ∧ prog.inode = entry.inodeNum.toNat ∧
      (p.prepared cur q).copyProgramImage img prog.inode = .ok (0, p1) ∧
      p' = p1.launch cur q prog regs
  missing : filenameLen < cmd.name.length ∨ img.readDentryByName cmd.name = .ok none →
    p.execute img cur (some cmd) regs = .ret (-1) p
  arguments : ∀ q p', p.execute img cur (some cmd) regs = .enter q p' →
    ∀ i < maxArgsSize, (p'.pcb q).argsArray i = (cmd.args[i]?).getD 0

/-- A file system with one program, under the given name. -/
def oneProgram (name : CString) : Image where
  dirCount := 1
  inodeCount := 1
  dataCount := 1
  direntries _ := ⟨fun j => name.getD j 0, 2, 0⟩
  inodes _ := ⟨28, fun _ => 0⟩
  dataBlocks _ j := elfMagic.getD j 0

theorem nameMatches_self (s : CString) : ∀ n i, nameMatches s (fun j => s.getD j 0) n i = true := by
  intro n
  induction n with
  | zero =>
    intro i
    rfl
  | succ n ih =>
    intro i
    unfold nameMatches CString.charAt
    rw [if_neg (by simp), ih]
    simp

theorem oneProgram_entry {name : CString} (hnul : name.NulFree) (hlen : name.length ≤ filenameLen) :
    (oneProgram name).readDentryByName name = .ok (some ⟨fun j => name.getD j 0, 2, 0⟩) := by
  have hstrlen : name.strlen = name.length := by
    unfold CString.strlen
    rw [List.takeWhile_eq_self_iff.mpr (by simpa [NulFree] using hnul)]
  unfold Image.readDentryByName
  rw [hstrlen, if_neg (by omega)]
  have hone : (oneProgram name).dirCount.toInt.toNat = 1 := rfl
  rw [hone]
  simp only [Image.findDentry]
  rw [if_neg (by decide)]
  exact if_pos (nameMatches_self name filenameLen 0)

theorem oneProgram_fits (name : CString) :
    (oneProgram name).badBlock ((oneProgram name).inodes 0) = false ∧
      ((oneProgram name).inodes 0).length.toNat ≤ imageRoom := by
  constructor
  · by_contra hbad
    obtain ⟨_, _, _, hv⟩ := Image.badBlock_iff.mp (by simpa using hbad)
    have hvalid : (oneProgram name).validBlock 0 = true := rfl
    exact absurd (hvalid.symm.trans hv) (by decide)
  · have hlen : ((oneProgram name).inodes 0).length.toNat = 28 := rfl
    rw [hlen]
    decide

/-- A command whose name has 32 bytes or more starts the program that has the first 32 as its
name. -/
theorem oneProgram_starts {cmd : CString} (hnul : cmd.NulFree)
    (hlong : filenameLen ≤ cmd.name.length) (cur : Term) (regs : Frame) :
    ∃ p', Machine.booted.kern.proc.execute (oneProgram (cmd.name.take filenameLen)) cur (some cmd)
      regs = .enter 0 p' := by
  obtain ⟨st, hst, hname, _⟩ := parseCommand_ok hnul (Or.inl hlong)
  have hfree : NulFree (cmd.name.take filenameLen) :=
    fun c hc => hnul.name c (List.mem_of_mem_take hc)
  have hentry := oneProgram_entry hfree (List.length_take_le _ _)
  have hfind : ∃ prog, findProgram (oneProgram (cmd.name.take filenameLen)) cmd =
      .ok (some prog) ∧ prog.inode = 0 := by
    simp only [findProgram, hst, Except.bind]
    rw [hname, cstr_name hnul, hentry]
    exact ⟨_, rfl, rfl⟩
  obtain ⟨prog, hprog, hinode⟩ := hfind
  have hloads : Machine.booted.kern.proc.Loads (oneProgram (cmd.name.take filenameLen)) (some cmd) 0
      prog := ⟨⟨rfl, cmd, rfl, hprog⟩, by rw [hinode]; exact (oneProgram_fits _).1⟩
  obtain ⟨p', _, henter⟩ := hloads.enter cur regs (by rw [hinode]; exact (oneProgram_fits _).2)
  exact ⟨_, henter⟩

/-- The command is split as it should be, on every file system and in every state, exactly when its
name has fewer than 32 bytes, or 32 and no arguments. -/
theorem execute_splits_command (cmd : CString) (hnul : cmd.NulFree) (hargs : cmd.args.length ≤ 127) :
    (∀ img cur p regs, Splits img cur p cmd regs) ↔
      cmd.name.length < 32 ∨ cmd.name.length = 32 ∧ cmd.args = [] := by
  have hshort : filenameLen ≤ cmd.name.length ∨ cmd.args.length < maxArgsSize := by
    simp only [maxArgsSize]
    omega
  constructor
  · intro h
    by_contra hbad
    have hlong : filenameLen ≤ cmd.name.length := by
      simp only [filenameLen]
      omega
    obtain ⟨p', henter⟩ := oneProgram_starts hnul hlong 0 ⟨0, 0, none⟩
    have hs := h (oneProgram (cmd.name.take filenameLen)) 0 Machine.booted.kern.proc ⟨0, 0, none⟩
    by_cases hover : filenameLen < cmd.name.length
    · have hret := hs.missing (Or.inl hover)
      rw [henter] at hret
      cases hret
    · -- the arguments are lost
      have hne : cmd.args ≠ [] := by
        intro hnil
        simp only [filenameLen] at hlong hover
        exact hbad (Or.inr ⟨by omega, hnil⟩)
      have hlost : cmd.kept = [] := if_neg (by omega)
      have hfirst := hs.arguments 0 p' henter 0 (by decide)
      rw [Proc.enter_args hnul hshort henter (by decide), hlost] at hfirst
      obtain ⟨c, cs, hc⟩ := List.exists_cons_of_ne_nil hne
      rw [hc] at hfirst
      exact hnul.args c (by rw [hc]; simp) hfirst.symm
  · intro h img cur p regs
    have htake : cmd.name.take filenameLen = cmd.name :=
      List.take_of_length_le (by simp only [filenameLen]; omega)
    have hkept : cmd.kept = cmd.args := CString.kept_eq_args.mpr (h.imp_right And.right)
    obtain ⟨st, hst, hname, _⟩ := parseCommand_ok hnul hshort
    have hlooked : cstr (filenameLen + 1) st.filename = cmd.name := by
      rw [hname, cstr_name hnul, htake]
    refine ⟨fun _ => ⟨st, hst, hlooked⟩, ?_, ?_, ?_⟩
    · intro q p' henter
      obtain ⟨prog, p1, hfinds, hcopy, hp'⟩ := Proc.execute_copied henter
      obtain ⟨cmd', hcmd, hf⟩ := hfinds.found
      cases hcmd
      obtain ⟨st', entry, hst', hentry, hinode, _⟩ := Proc.findProgram_some hf
      rw [hst] at hst'
      cases hst'
      rw [hlooked] at hentry
      exact ⟨entry, prog, p1, hentry, hf, hinode, hcopy, hp'⟩
    · rintro (hlong | hnone)
      · simp only [filenameLen] at hlong
        omega
      · exact Proc.execute_missing hnul hshort (by rw [htake]; exact hnone)
    · intro q p' henter i hi
      rw [Proc.enter_args hnul hshort henter hi, hkept]

/-- `cat` with a file name. -/
theorem execute_splits_command_cat : Splits Machine.disk 0 Machine.booted.kern.proc
    (Machine.catName ++ [32, 97]) ⟨0, 0, none⟩ :=
  (execute_splits_command (Machine.catName ++ [32, 97]) (by decide) (by decide)).mpr
    (Or.inl (by decide)) Machine.disk 0 Machine.booted.kern.proc ⟨0, 0, none⟩

/-- A name of 32 letters, and one argument: the parser stops at the end of the name. -/
theorem execute_drops_arguments :
    ¬ ∀ (img : Image) (cur : Term) (p : Proc) (cmd : CString) (regs : Frame), cmd.NulFree →
      cmd.args.length ≤ 127 → Splits img cur p cmd regs := by
  intro h
  let cmd : CString := List.replicate 32 97 ++ [32, 98]
  have hnul : cmd.NulFree := by decide
  obtain ⟨p', henter⟩ := oneProgram_starts hnul (by decide) 0 ⟨0, 0, none⟩
  have hs := (h _ 0 Machine.booted.kern.proc cmd ⟨0, 0, none⟩ hnul (by decide)).arguments 0 p' henter
    0 (by decide)
  rw [Proc.enter_args hnul (Or.inl (by decide)) henter (by decide)] at hs
  revert hs
  decide

/-! ## `getargs` -/

namespace Kernel

variable {k : Kernel} {q : Pid} {nbytes : Int} {mem : Nat → UInt8}

/-- The string in `args_array`. -/
def storedArgs (k : Kernel) (q : Pid) : CString := cstr maxArgsSize (k.proc.pcb q).argsArray

theorem storedArgs_eq_nil : k.storedArgs q = [] ↔ (k.proc.pcb q).argsArray 0 = 0 := by
  constructor
  · intro h
    have hstop := @Buffers.string_stop UInt8 (k.proc.pcb q).argsArray maxArgsSize _ 0
    have hlen : (Buffers.string 0 maxArgsSize (k.proc.pcb q).argsArray).length = 0 :=
      congrArg List.length h
    rw [hlen] at hstop
    exact hstop (by decide)
  · intro h
    by_contra hne
    have hpos : 0 < (k.storedArgs q).length := List.length_pos_iff.mpr hne
    have hget : (k.storedArgs q)[0] = (k.proc.pcb q).argsArray 0 := Buffers.string_get hpos
    exact Buffers.string_ne (List.getElem_mem hpos) (hget.trans h)

/-- Success hands over the whole string with its NUL and clears the stored arguments; failure
changes nothing. -/
structure AllOrNothing (k k' : Kernel) (q : Pid) (nbytes : Int) (r : Reply) : Prop where
  returns : r.ret = 0 ↔ k.storedArgs q ≠ [] ∧ ((k.storedArgs q).length : Int) + 1 ≤ nbytes
  delivered : r.ret = 0 →
    r.out = k.storedArgs q ++ [0] ∧ ∀ i < maxArgsSize, (k'.proc.pcb q).argsArray i = 0
  refused : r.ret ≠ 0 → r.ret = -1 ∧ k' = k

/-- The kernel with the arguments cleared. -/
def clearArgs (k : Kernel) (q : Pid) : Kernel :=
  k.onProc (·.setPcb q { k.proc.pcb q with
    argsArray := fun i => if i < maxArgsSize then 0 else (k.proc.pcb q).argsArray i })

theorem clearArgs_args {i : Nat} (hi : i < maxArgsSize) :
    ((k.clearArgs q).proc.pcb q).argsArray i = 0 := by
  simp [clearArgs, onProc, Proc.setPcb, hi]

/-- What `getargs` does when the arguments end within `args_array`. -/
theorem getargs_eq (hq : k.currPid = some q) (hp : k.proc.pcbArray q = true)
    (hs : (k.storedArgs q).length ≤ 127) (mem : Nat → UInt8) (nbytes : Int) :
    k.getargs mem nbytes =
      if k.storedArgs q = [] ∨ nbytes < 1 then some (⟨-1, []⟩, k)
      else if ((k.storedArgs q).length : Int) < nbytes then
        some (⟨0, k.storedArgs q ++ [0]⟩, k.clearArgs q)
      else if mem nbytes.toNat ≠ 0 then some (⟨-1, (k.storedArgs q).take nbytes.toNat⟩, k)
      else some (⟨0, (k.storedArgs q).take nbytes.toNat⟩, k.clearArgs q) := by
  have hfit : ¬ ((k.storedArgs q).length = maxArgsSize ∧ (maxArgsSize : Int) < nbytes) := by
    simp only [maxArgsSize]
    omega
  have hargs : ((List.range maxArgsSize).map (k.proc.pcb q).argsArray).takeWhile (· ≠ 0) =
      k.storedArgs q := rfl
  simp only [getargs, hq, Option.bind_some, hp, hargs, storedArgs_eq_nil, if_neg hfit,
    Bool.true_eq_false, false_or]
  rfl

/-- It hands over all or nothing, unless the string does not fit and the byte behind the buffer
is 0. -/
theorem getargs_delivers_iff (hq : k.currPid = some q) (hp : k.proc.pcbArray q = true)
    (hs : (k.storedArgs q).length ≤ 127) (mem : Nat → UInt8) (nbytes : Int) :
    ∃ r k', k.getargs mem nbytes = some (r, k') ∧
      (AllOrNothing k k' q nbytes r ↔ k.storedArgs q = [] ∨ nbytes < 1 ∨
        ((k.storedArgs q).length : Int) < nbytes ∨ mem nbytes.toNat ≠ 0) := by
  have hret : ¬ (-1 : Int) = 0 := by decide
  rw [getargs_eq hq hp hs]
  by_cases hearly : k.storedArgs q = [] ∨ nbytes < 1
  · rw [if_pos hearly]
    refine ⟨_, _, rfl, ?_⟩
    have hno : ¬ (k.storedArgs q ≠ [] ∧ ((k.storedArgs q).length : Int) + 1 ≤ nbytes) := by
      rintro ⟨hne, hle⟩
      rcases hearly with hnil | hlt
      · exact hne hnil
      · omega
    constructor
    · intro _
      rcases hearly with hnil | hlt
      · exact Or.inl hnil
      · exact Or.inr (Or.inl hlt)
    · intro _
      exact ⟨iff_of_false hret hno, fun h => absurd h hret, fun _ => ⟨rfl, rfl⟩⟩
  · rw [if_neg hearly]
    have hne : k.storedArgs q ≠ [] := fun h => hearly (Or.inl h)
    by_cases hfit : ((k.storedArgs q).length : Int) < nbytes
    · rw [if_pos hfit]
      refine ⟨_, _, rfl, fun _ => Or.inr (Or.inr (Or.inl hfit)), fun _ => ⟨?_, ?_, ?_⟩⟩
      · exact ⟨fun _ => ⟨hne, by omega⟩, fun _ => rfl⟩
      · exact fun _ => ⟨rfl, fun i hi => clearArgs_args hi⟩
      · exact fun h => absurd rfl h
    · rw [if_neg hfit]
      have hno : ¬ (k.storedArgs q ≠ [] ∧ ((k.storedArgs q).length : Int) + 1 ≤ nbytes) := by
        rintro ⟨_, hle⟩
        omega
      by_cases hmem : mem nbytes.toNat ≠ 0
      · rw [if_pos hmem]
        refine ⟨_, _, rfl, fun _ => Or.inr (Or.inr (Or.inr hmem)), fun _ => ⟨?_, ?_, ?_⟩⟩
        · exact iff_of_false hret hno
        · exact fun h => absurd h hret
        · exact fun _ => ⟨rfl, rfl⟩
      · rw [if_neg hmem]
        refine ⟨_, _, rfl, fun h => (hno (h.returns.mp rfl)).elim, fun h => ?_⟩
        rcases h with h | h | h | h
        · exact absurd (Or.inl h) hearly
        · exact absurd (Or.inr h) hearly
        · exact absurd h hfit
        · exact absurd h hmem

/-- The memory behind the buffer has no say exactly when `getargs` returns early or finds the NUL. -/
theorem getargs_inside_iff (hq : k.currPid = some q) (hp : k.proc.pcbArray q = true)
    (hs : (k.storedArgs q).length ≤ 127) (nbytes : Int) :
    (∀ mem mem', (∀ i < nbytes.toNat, mem i = mem' i) →
      k.getargs mem nbytes = k.getargs mem' nbytes) ↔
    k.storedArgs q = [] ∨ nbytes < 1 ∨ ((k.storedArgs q).length : Int) < nbytes := by
  have heq := getargs_eq hq hp hs
  constructor
  · intro h
    by_contra hbad
    -- two memories that differ in the byte behind the buffer only
    have h1 := h (fun _ => 0) (Function.update (fun _ => 0) nbytes.toNat 1) (fun i hi => by
      rw [Function.update_of_ne (by omega)])
    have hearly : ¬ (k.storedArgs q = [] ∨ nbytes < 1) := fun he => hbad (he.imp_right Or.inl)
    have hfit : ¬ ((k.storedArgs q).length : Int) < nbytes := fun hf => hbad (Or.inr (Or.inr hf))
    simp [heq, hearly, hfit] at h1
  · intro h mem mem' _
    rw [heq, heq]
    split
    · rfl
    · rename_i hearly
      have hfit : ((k.storedArgs q).length : Int) < nbytes := by
        rcases h with h | h | h
        · exact absurd (Or.inl h) hearly
        · exact absurd (Or.inr h) hearly
        · exact h
      rw [if_pos hfit, if_pos hfit]

/-- When `getargs` delivers all or nothing, and when it goes by the buffer alone. -/
theorem getargs_all_or_nothing (k : Kernel) (q : Pid) (nbytes : Int) (hq : k.currPid = some q)
    (hp : k.proc.pcbArray q = true) (hs : (k.storedArgs q).length ≤ 127) :
    (∀ mem, ∃ r k', k.getargs mem nbytes = some (r, k') ∧
      (AllOrNothing k k' q nbytes r ↔ k.storedArgs q = [] ∨ nbytes < 1 ∨
        ((k.storedArgs q).length : Int) < nbytes ∨ mem nbytes.toNat ≠ 0)) ∧
    ((∀ mem mem', (∀ i < nbytes.toNat, mem i = mem' i) →
        k.getargs mem nbytes = k.getargs mem' nbytes) ↔
      k.storedArgs q = [] ∨ nbytes < 1 ∨ ((k.storedArgs q).length : Int) < nbytes) :=
  ⟨fun mem => getargs_delivers_iff hq hp hs mem nbytes, getargs_inside_iff hq hp hs nbytes⟩

/-- Process `q` runs on terminal `t` with the argument `a`. -/
def startedWith (t : Term) (q : Pid) (a : CString) : Kernel :=
  let p := Machine.booted.kern.proc
  { Machine.booted.kern with proc := { p with
      terminalProcessIndex := some t
      pidArr := Function.update p.pidArr t (some q)
      pcbArray := Function.update p.pcbArray q true
      pcb := Function.update p.pcb q { p.pcb q with argsArray := Buffers.fill (fun _ => 0) 0 a } } }

/-- A buffer for the letter and its NUL. -/
theorem getargs_all_or_nothing_letter : ∃ r k',
    (startedWith 0 0 [97]).getargs (fun _ => 7) 2 = some (r, k') ∧
      AllOrNothing (startedWith 0 0 [97]) k' 0 2 r := by
  obtain ⟨r, k', hrun, hiff⟩ :=
    (getargs_all_or_nothing (startedWith 0 0 [97]) 0 2 rfl rfl (by decide)).1 (fun _ => 7)
  exact ⟨r, k', hrun, hiff.mpr (Or.inr (Or.inr (Or.inl (by decide))))⟩

/-- Two letters, a buffer for one byte, and a 0 behind it: the letter is handed over as if it were
all, and the arguments are gone. -/
theorem getargs_truncates :
    ¬ ∀ (k k' : Kernel) (q : Pid) (nbytes : Int) (mem : Nat → UInt8) (r : Reply),
      k.currPid = some q → k.proc.pcbArray q = true → (k.storedArgs q).length ≤ 127 →
        k.getargs mem nbytes = some (r, k') → AllOrNothing k k' q nbytes r := by
  intro h
  have hall := h (startedWith 0 0 [97, 98]) _ 0 1 (fun _ => 0) _ rfl rfl (by decide) rfl
  have hlen := (hall.returns.mp rfl).2
  exact absurd hlen (by decide)

end Kernel
end DeviceOS
