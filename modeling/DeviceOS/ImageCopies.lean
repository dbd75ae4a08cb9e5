import DeviceOS.CommandLine

/-!
# DeviceOS.ImageCopies

What `execute` leaves in the memory of the program it starts.

* `Proc.storeBytes_fill`: the stores to the program page, as one fill of its frame.
* `Proc.copyProgramImage_fill`: when `copy_program_image` succeeds, the file is in memory, and
  nothing else has changed there.
* `CString.text`: a command up to its NUL, which is all that `execute` looks at.
* `Proc.Started`: the arguments and the image of a program that has been started.
-/

namespace DeviceOS

open Buffers (fill fill_nil fill_cons fill_append fill_get)

/-- Where a program image is, from the start of the 4 MB page. -/
def imageBase : Nat := 0x48000

namespace Proc

variable {img : Image} {cur : Term} {p p' : Proc} {command : Option CString} {regs : Frame}

/-- The frame that the program page maps. -/
def frame (p : Proc) : Nat → UInt8 := p.progMem p.pageDirectory32.physicalAddress

theorem storeByte_frame {a : Nat} {b : UInt8} (h : p.storeByte a b = some p') :
    0x8000000 ≤ a ∧ a < 0x8400000 ∧ p'.frame = Function.update p.frame (a - 0x8000000) b := by
  simp only [storeByte] at h
  split at h
  · rename_i hin
    cases h
    exact ⟨hin.1, hin.2.1, Function.update_self ..⟩
  · cases h

/-- Stores in ascending order, from address `a` on. -/
theorem storeBytes_fill {bs : List UInt8} : ∀ {p p' : Proc} {a : Nat},
    p.storeBytes (a + 0x8000000) bs = some p' → p'.frame = fill p.frame a bs := by
  induction bs with
  | nil =>
    intro p p' a h
    cases h
    rw [fill_nil]
  | cons b bs ih =>
    intro p p' a h
    simp only [storeBytes, Option.bind_eq_some_iff] at h
    obtain ⟨p1, h1, h2⟩ := h
    have hnext : a + 0x8000000 + 1 = a + 1 + 0x8000000 := by omega
    rw [hnext] at h2
    obtain ⟨_, _, hframe⟩ := storeByte_frame h1
    rw [Nat.add_sub_cancel] at hframe
    rw [ih h2, hframe, fill_cons]

theorem storeBytes_end {b : UInt8} {bs : List UInt8} {a : Nat}
    (h : p.storeBytes a (b :: bs) = some p') : a < 0x8400000 := by
  simp only [storeBytes, Option.bind_eq_some_iff] at h
  obtain ⟨p1, h1, _⟩ := h
  exact (storeByte_frame h1).2.1

/-- A pass that stores something begins before the end of the page. -/
theorem loadProgramImage_some {offset : Nat} {bs : List UInt8} (hbs : 0 < bs.length)
    (h : p.loadProgramImage offset bs = some p') :
    offset < imageRoom ∧ p'.pageDirectory32 = p.pageDirectory32 := by
  obtain ⟨b, bs, rfl⟩ := List.exists_cons_of_length_pos hbs
  unfold loadProgramImage at h
  have hend := storeBytes_end h
  refine ⟨?_, (storeBytes_stored h).pageDirectory32⟩
  simp only [imageRoom]
  omega

theorem loadProgramImage_fill {offset : Nat} {bs : List UInt8}
    (h : p.loadProgramImage offset bs = some p') :
    p'.frame = fill p.frame (imageBase + offset) bs := by
  have hbase : offset + 0x8048000 = imageBase + offset + 0x8000000 := by
    simp only [imageBase]
    omega
  unfold loadProgramImage at h
  rw [hbase] at h
  exact storeBytes_fill h

/-- A chunk and the rest of the file after it. -/
theorem chunk_append (img : Image) (ino : Inode) (offset : Nat) :
    chunk img ino offset ++ img.slice ino (offset + (chunk img ino offset).length)
        (ino.length.toNat - (offset + (chunk img ino offset).length)) =
      img.slice ino offset (ino.length.toNat - offset) := by
  have hlen := chunk_length img ino offset
  have hsum : (chunk img ino offset).length +
      (ino.length.toNat - (offset + (chunk img ino offset).length)) = ino.length.toNat - offset := by
    omega
  rw [← hsum, ← Image.slice_append]
  congr 1
  rw [chunk, Image.slice_length]

/-- The loop stores the rest of the file, and nothing else. -/
theorem copyLoop_fill {inode : Nat} (hi : inode < img.inodeCount.toNat) :
    ∀ {n offset : Nat} {p p' : Proc}, LoopAt img (img.inodes inode) offset →
      copyLoop img inode n offset p = .ok (0, p') →
      p'.frame = fill p.frame (imageBase + offset)
        (img.slice (img.inodes inode) offset ((img.inodes inode).length.toNat - offset)) := by
  intro n
  induction n with
  | zero =>
    intro offset p p' _ h
    cases h
  | succ n ih =>
    intro offset p p' hat h
    have hle := hat.le_length
    rw [hat.copyLoop_succ hi] at h
    split at h
    · cases h
    · rename_i hv
      rw [Bool.not_eq_false] at hv
      split at h
      · rename_i hend
        cases h
        rw [← hend, Nat.sub_self, Image.slice_zero, fill_nil]
      · rename_i hend
        split at h
        · cases h
        · rename_i p1 hload
          have hlen := chunk_length img (img.inodes inode) offset
          simp only [fileBufSize] at hlen
          obtain ⟨hroom, _⟩ := loadProgramImage_some (by omega) hload
          rw [ih (hat.next hv (by omega) hroom) h, loadProgramImage_fill hload, ← Nat.add_assoc,
            fill_append, chunk_append]

theorem copyProgramImage_fill {inode : Nat} (hi : inode < img.inodeCount.toNat)
    (h : copyProgramImage img inode p = .ok (0, p')) :
    p'.frame = fill p.frame imageBase (img.content (img.inodes inode)) :=
  copyLoop_fill hi .zero h

/-- Byte `i` of the file is in place. -/
theorem copyProgramImage_copies {inode : Nat} (hi : inode < img.inodeCount.toNat)
    (h : copyProgramImage img inode p = .ok (0, p')) :
    ∀ i < (img.inodes inode).length.toNat,
      p'.frame (imageBase + i) = img.byteAt (img.inodes inode) i := by
  intro i hlt
  have hlen : i < (img.content (img.inodes inode)).length := by
    rw [Image.content, Image.slice_length]
    exact hlt
  rw [copyProgramImage_fill hi h, fill_get _ _ hlen]
  simp [Image.content, Image.slice]

end Proc

/-! ## The command -/

namespace CString

/-- The bytes before the NUL. -/
def text (cmd : CString) : CString := cmd.takeWhile (· ≠ 0)

theorem text_nulFree (cmd : CString) : cmd.text.NulFree := by
  intro c hc
  simpa using List.mem_takeWhile_imp hc

end CString

theorem parseLoop_text : ∀ {cmd : CString} (st : Parse), parseLoop cmd.text st = parseLoop cmd st := by
  intro cmd
  induction cmd with
  | nil => intro st; rfl
  | cons c cs ih =>
    intro st
    by_cases hc : c = 0
    · subst hc
      rfl
    · have htext : CString.text (c :: cs) = c :: CString.text cs := by
        unfold CString.text
        rw [List.takeWhile_cons_of_pos (by simpa using hc)]
      rw [htext, parseLoop_cons, parseLoop_cons]
      simp only [ih]

theorem findProgram_text (img : Image) (cmd : CString) :
    findProgram img cmd.text = findProgram img cmd := by
  unfold findProgram parseCommand
  rw [parseLoop_text]

namespace Proc

variable {img : Image} {cur : Term} {p p' : Proc} {cmd : CString} {regs : Frame}

theorem execute_text (img : Image) (cur : Term) (p : Proc) (cmd : CString) (regs : Frame) :
    p.execute img cur (some cmd.text) regs = p.execute img cur (some cmd) regs := by
  unfold execute
  cases p.freePid with
  | none => rfl
  | some q => simp only [findProgram_text]

/-- Process `q` has the arguments `args`, and the file of `prog` is in its memory. -/
structure Started (img : Image) (p : Proc) (q : Pid) (prog : Program) (args : CString) : Prop where
  args : ∀ i < maxArgsSize, (p.pcb q).argsArray i = (args[i]?).getD 0
  fits : (img.inodes prog.inode).length.toNat ≤ imageRoom
  image : ∀ i < (img.inodes prog.inode).length.toNat,
    p.progMem (pdeOf q).physicalAddress (imageBase + i) = img.byteAt (img.inodes prog.inode) i

theorem launch_progMem (cur : Term) (q : Pid) (prog : Program) (regs : Frame) :
    (p.launch cur q prog regs).progMem = p.progMem := rfl

/-- A program that is entered has the arguments that the parser kept, and its file in memory. -/
theorem enter_started {q : Pid} (h : p.execute img cur (some cmd) regs = .enter q p') :
    ∃ prog, p.Loads img (some cmd) q prog ∧ p'.pageDirectory32 = pdeOf q ∧
      Started img p' q prog cmd.text.kept := by
  have htext := h
  rw [← execute_text] at htext
  obtain ⟨prog, p1, hl, hst, rfl⟩ := execute_enter h
  have hpde : (p1.launch cur q prog regs).pageDirectory32 = pdeOf q := hst.pageDirectory32
  have hargs : ∀ i < maxArgsSize,
      ((p1.launch cur q prog regs).pcb q).argsArray i = (cmd.text.kept[i]?).getD 0 := by
    intro i hi
    -- the parser has not stored outside of its arrays
    refine enter_args (CString.text_nulFree cmd) ?_ htext hi
    by_contra hlong
    obtain ⟨cmd', hc, hf⟩ := hl.1.found
    cases hc
    have hover := parseCommand_overflow (CString.text_nulFree cmd) (by omega) (by omega)
    rw [← findProgram_text] at hf
    simp only [findProgram, hover, Except.bind] at hf
    cases hf
  obtain ⟨cmd', hc, hf⟩ := hl.1.found
  cases hc
  obtain ⟨p2, _, heq⟩ := copyProgramImage_eq (findProgram_inode hf) (p := p.prepared cur q) rfl
  rw [if_neg (by simp [hl.2])] at heq
  unfold prepared at heq
  have hx := h
  simp only [execute, hl.1.freePid, hf] at hx
  by_cases hfit : (img.inodes prog.inode).length.toNat ≤ imageRoom
  · rw [if_pos hfit] at heq
    have hcopy := copyProgramImage_copies (findProgram_inode hf) heq
    rw [heq] at hx
    have hlaunch : p2.launch cur q prog regs = p1.launch cur q prog regs := by simpa using hx
    have hmem : (p1.launch cur q prog regs).progMem = p2.progMem := by
      rw [← hlaunch, launch_progMem]
    have hpage : p2.pageDirectory32 = pdeOf q := by
      rw [← hpde, ← hlaunch]
      rfl
    refine ⟨prog, hl, hpde, hargs, hfit, fun i hi => ?_⟩
    rw [hmem, ← hcopy i hi, frame, hpage]
  · rw [if_neg hfit] at heq
    rw [heq] at hx
    cases hx

end Proc
end DeviceOS
