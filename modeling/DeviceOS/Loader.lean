import DeviceOS.Execute
import DeviceOS.FileData

/-!
# DeviceOS.Loader

What the program loader does, and the outcomes of `execute`.

`copy_program_image` reads 64 bytes at a time, from a multiple of 64, so one read never crosses a
block boundary. It stops at the first block slot that is not valid (`Image.badBlock`), at the end
of the file, or with a page fault at the end of the 4 MB page.

* `Proc.copyProgramImage_eq`: which of the three, for every inode.
* `Proc.execute_badBlock`, `Proc.execute_cases`: the outcomes of `execute` and the process tables
  in each.
-/

namespace DeviceOS

/-- The room for a program image: from `0x08048000` to the end of the 4 MB page. -/
def imageRoom : Nat := 0x3B8000

/-- One of the block slots that the loader looks at is not valid: a slot up to the one at the end
of the file (which is looked at also when the file ends on a block boundary), and no slot beyond
the one at the end of the page. -/
def Image.badBlock (img : Image) (ino : Inode) : Bool :=
  (List.range (min (ino.length.toNat / blockByteSize) (imageRoom / blockByteSize) + 1)).any
    fun k => !img.validBlock (ino.dataBlockNum k)

theorem Image.badBlock_iff {img : Image} {ino : Inode} :
    img.badBlock ino = true ↔ ∃ k, k * blockByteSize ≤ ino.length.toNat ∧ k ≤ 952 ∧
      img.validBlock (ino.dataBlockNum k) = false := by
  have hroom : imageRoom / blockByteSize = 952 := by decide
  simp only [Image.badBlock, hroom, List.any_eq_true, List.mem_range, Bool.not_eq_true']
  constructor
  · rintro ⟨k, hk, hv⟩
    exact ⟨k, (Nat.le_div_iff_mul_le (by decide)).mp (by omega), by omega, hv⟩
  · rintro ⟨k, hk, hk', hv⟩
    have := (Nat.le_div_iff_mul_le (by decide)).mpr hk
    exact ⟨k, by omega, hv⟩

namespace Proc

/-- `p'` is `p` but for the bytes of the frame that the program page maps. -/
def Stored (p p' : Proc) : Prop :=
  ∃ mem, p' = { p with progMem := mem } ∧
    ∀ f, f ≠ p.pageDirectory32.physicalAddress → mem f = p.progMem f

theorem Stored.refl (p : Proc) : p.Stored p := ⟨p.progMem, rfl, fun _ _ => rfl⟩

theorem Stored.trans {p p1 p2 : Proc} (h1 : p.Stored p1) (h2 : p1.Stored p2) : p.Stored p2 := by
  obtain ⟨m1, rfl, e1⟩ := h1
  obtain ⟨m2, rfl, e2⟩ := h2
  exact ⟨m2, rfl, fun f hf => (e2 f hf).trans (e1 f hf)⟩

theorem Stored.pageDirectory32 {p p' : Proc} (h : p.Stored p') :
    p'.pageDirectory32 = p.pageDirectory32 := by
  obtain ⟨m, rfl, _⟩ := h
  rfl

theorem storeByte_stored {p p' : Proc} {a : Nat} {b : UInt8} (h : p.storeByte a b = some p') :
    p.Stored p' := by
  simp only [storeByte] at h
  split at h
  · cases h
    exact ⟨_, rfl, fun f hf => Function.update_of_ne hf _ _⟩
  · cases h

theorem storeBytes_stored {bs : List UInt8} :
    ∀ {p p' : Proc} {a : Nat}, p.storeBytes a bs = some p' → p.Stored p' := by
  induction bs with
  | nil => intro p p' a h; cases h; exact .refl p
  | cons b bs ih =>
    intro p p' a h
    simp only [storeBytes, Option.bind_eq_some_iff] at h
    obtain ⟨p1, h1, h2⟩ := h
    exact (storeByte_stored h1).trans (ih h2)

/-- Stores inside the program page succeed. -/
theorem storeBytes_isSome {bs : List UInt8} :
    ∀ {p : Proc} {a : Nat}, p.pageDirectory32.p = true → 0x8000000 ≤ a →
      a + bs.length ≤ 0x8400000 → ∃ p', p.storeBytes a bs = some p' := by
  induction bs with
  | nil => intro p a _ _ _; exact ⟨p, rfl⟩
  | cons b bs ih =>
    intro p a hp ha hl
    rw [List.length_cons] at hl
    obtain ⟨p1, h1⟩ : ∃ p1, p.storeByte a b = some p1 := by
      simp only [storeByte]
      rw [if_pos ⟨ha, by omega, hp⟩]
      exact ⟨_, rfl⟩
    obtain ⟨p2, h2⟩ := ih (p := p1) (a := a + 1)
      (by rw [(storeByte_stored h1).pageDirectory32]; exact hp) (by omega) (by omega)
    exact ⟨p2, by simp only [storeBytes, h1, Option.bind_some, h2]⟩

theorem storeBytes_eq_none {p : Proc} {a : Nat} {bs : List UInt8} (hbs : bs ≠ [])
    (ha : 0x8400000 ≤ a) : p.storeBytes a bs = none := by
  cases bs with
  | nil => exact absurd rfl hbs
  | cons b bs =>
    simp only [storeBytes, storeByte]
    rw [if_neg (by omega)]
    rfl

/-! ## `copy_program_image` -/

/-- Where the loop of `copy_program_image` can be: at a multiple of 64 or at the end of the file,
with every block before the offset valid. -/
structure LoopAt (img : Image) (ino : Inode) (offset : Nat) : Prop where
  aligned : 64 ∣ offset ∨ offset = ino.length.toNat
  le_length : offset ≤ ino.length.toNat
  le_room : offset ≤ imageRoom
  valid : ∀ k, k * blockByteSize < offset → img.validBlock (ino.dataBlockNum k) = true

theorem LoopAt.zero {img : Image} {ino : Inode} : LoopAt img ino 0 :=
  ⟨Or.inl ⟨0, rfl⟩, Nat.zero_le _, Nat.zero_le _, by intro k hk; omega⟩

/-- The bytes of one call of `read_data`. -/
def chunk (img : Image) (ino : Inode) (offset : Nat) : List UInt8 :=
  img.slice ino offset (min fileBufSize (ino.length.toNat - offset))

theorem chunk_length (img : Image) (ino : Inode) (offset : Nat) :
    (chunk img ino offset).length = min fileBufSize (ino.length.toNat - offset) :=
  Image.slice_length ..

theorem LoopAt.readable {img : Image} {ino : Inode} {offset : Nat} (h : LoopAt img ino offset) :
    img.Readable ino offset fileBufSize := by
  intro s h1 h2
  simp only [blockByteSize, fileBufSize] at h1 h2
  rcases h.aligned with ⟨j, hj⟩ | hl
  · omega
  · omega

/-- The slots up to the offset are valid once the slot of the offset is. -/
theorem LoopAt.valid_le {img : Image} {ino : Inode} {offset k : Nat} (h : LoopAt img ino offset)
    (hv : img.validBlock (ino.dataBlockNum (offset / blockByteSize)) = true)
    (hk : k * blockByteSize ≤ offset) : img.validBlock (ino.dataBlockNum k) = true := by
  rcases Nat.lt_or_eq_of_le hk with hlt | heq
  · exact h.valid k hlt
  · rwa [← heq, Nat.mul_div_cancel _ (by decide)] at hv

/-- The next offset is one buffer further, or the end of the file. -/
theorem LoopAt.next {img : Image} {ino : Inode} {offset : Nat} (h : LoopAt img ino offset)
    (hv : img.validBlock (ino.dataBlockNum (offset / blockByteSize)) = true)
    (hlt : offset < ino.length.toNat) (hroom : offset < imageRoom) :
    LoopAt img ino (offset + (chunk img ino offset).length) := by
  have hal : 64 ∣ offset := by
    rcases h.aligned with hd | he
    · exact hd
    · omega
  obtain ⟨j, hj⟩ := hal
  rw [chunk_length]
  refine ⟨?_, by omega, ?_, ?_⟩
  · simp only [fileBufSize]
    by_cases hm : 64 ≤ ino.length.toNat - offset
    · left; rw [Nat.min_eq_left hm]; omega
    · right; omega
  · simp only [fileBufSize, imageRoom] at *; omega
  · intro k hk
    apply h.valid_le hv
    simp only [fileBufSize, blockByteSize] at hk ⊢
    omega

theorem LoopAt.slot_le {img : Image} {ino : Inode} {offset : Nat} (h : LoopAt img ino offset) :
    offset / blockByteSize ≤ 952 := by
  have := h.le_room
  simp only [imageRoom, blockByteSize] at *
  omega

/-- One iteration: the call of `read_data` fails, or is at the end of the file, or brings the next
bytes to be stored. -/
theorem LoopAt.copyLoop_succ {img : Image} {inode offset : Nat} (hi : inode < img.inodeCount.toNat)
    (hat : LoopAt img (img.inodes inode) offset) (n : Nat) (p : Proc) :
    copyLoop img inode (n + 1) offset p =
      if img.validBlock ((img.inodes inode).dataBlockNum (offset / blockByteSize)) = false then
        .ok (-1, p)
      else if offset = (img.inodes inode).length.toNat then .ok (0, p)
      else
        match p.loadProgramImage offset (chunk img (img.inodes inode) offset) with
        | none => .error .pageFault
        | some p1 =>
          copyLoop img inode n (offset + (chunk img (img.inodes inode) offset).length) p1 := by
  have hslots : offset / blockByteSize < numBlockSlots := by
    have := hat.slot_le
    simp only [numBlockSlots]
    omega
  rw [copyLoop]
  by_cases hv : img.validBlock
      ((img.inodes inode).dataBlockNum (offset / blockByteSize)) = false
  · rw [if_pos hv, Image.readData_invalid hslots hv]
    simp [Except.bind]
  · rw [if_neg hv, Image.readData_eq hi hslots (by simpa using hv) hat.readable, chunk_length]
    simp only [Except.bind]
    have hle := hat.le_length
    by_cases hend : offset = (img.inodes inode).length.toNat
    · rw [if_pos (by omega), if_pos hend]
    · have hm : min fileBufSize ((img.inodes inode).length.toNat - offset) ≠ 0 := by
        simp only [fileBufSize]
        omega
      rw [if_neg (by omega), if_neg (by omega), if_neg hend, Int.toNat_natCast]
      rfl

/-- When the loop gets to the end of the file or of the room, no block that it needs is invalid. -/
theorem LoopAt.not_badBlock {img : Image} {ino : Inode} {offset : Nat} (h : LoopAt img ino offset)
    (hv : img.validBlock (ino.dataBlockNum (offset / blockByteSize)) = true)
    (hend : offset = ino.length.toNat ∨ offset = imageRoom) : img.badBlock ino = false := by
  by_contra hb
  obtain ⟨k, hk, hk952, hk'⟩ := Image.badBlock_iff.mp (by simpa using hb)
  have hle : k * blockByteSize ≤ offset := by
    rcases hend with hend | hend
    · omega
    · rw [hend]
      simp only [imageRoom, blockByteSize]
      omega
  rw [h.valid_le hv hle] at hk'
  cases hk'

theorem copyLoop_eq {img : Image} {inode : Nat} (hi : inode < img.inodeCount.toNat) :
    ∀ {n offset : Nat} {p : Proc}, p.pageDirectory32.p = true →
      LoopAt img (img.inodes inode) offset → (imageRoom - offset) / 64 + 2 ≤ n →
      ∃ p', p.Stored p' ∧ copyLoop img inode n offset p =
        if img.badBlock (img.inodes inode) then .ok (-1, p')
        else if (img.inodes inode).length.toNat ≤ imageRoom then .ok (0, p')
        else .error .pageFault := by
  intro n
  induction n with
  | zero => intro offset p _ _ hn; exact absurd hn (by omega)
  | succ n ih =>
    intro offset p hp hat hn
    have hle := hat.le_length
    rw [hat.copyLoop_succ hi]
    split
    · rename_i hv
      have hbad : img.badBlock (img.inodes inode) = true := by
        refine Image.badBlock_iff.mpr ⟨_, ?_, hat.slot_le, hv⟩
        have := Nat.div_mul_le_self offset blockByteSize
        omega
      refine ⟨p, .refl p, ?_⟩
      rw [if_pos hbad]
    · rename_i hv
      rw [Bool.not_eq_false] at hv
      split
      · -- the end of the file: every slot up to it has been found valid
        rename_i hend
        refine ⟨p, .refl p, ?_⟩
        rw [hat.not_badBlock hv (Or.inl hend), if_neg Bool.false_ne_true, ← hend,
          if_pos hat.le_room]
      · rename_i hend
        have hlen := chunk_length img (img.inodes inode) offset
        by_cases hroom : offset = imageRoom
        · -- the file goes on behind the program page
          refine ⟨p, .refl p, ?_⟩
          have hne : chunk img (img.inodes inode) offset ≠ [] := by
            intro hnil
            rw [hnil] at hlen
            simp only [fileBufSize, List.length_nil] at hlen
            omega
          rw [loadProgramImage, storeBytes_eq_none hne (by rw [hroom, imageRoom]),
            hat.not_badBlock hv (Or.inr hroom), if_neg Bool.false_ne_true, if_neg (by omega)]
        · have hlt : offset < imageRoom := by
            have := hat.le_room
            omega
          have hnext := hat.next hv (by omega) hlt
          obtain ⟨p1, h1⟩ : ∃ p1, p.loadProgramImage offset
              (chunk img (img.inodes inode) offset) = some p1 := by
            apply storeBytes_isSome hp (by omega)
            have := hnext.le_room
            simp only [imageRoom] at this
            omega
          have hst := storeBytes_stored h1
          have hfuel : (imageRoom - (offset + (chunk img (img.inodes inode) offset).length)) / 64 +
              2 ≤ n := by
            have := hat.aligned
            simp only [imageRoom, fileBufSize] at *
            omega
          obtain ⟨p2, h2, heq⟩ := ih (by rw [hst.pageDirectory32]; exact hp) hnext hfuel
          refine ⟨p2, hst.trans h2, ?_⟩
          rw [h1]
          exact heq

theorem copyProgramImage_eq {img : Image} {inode : Nat} (hi : inode < img.inodeCount.toNat)
    {p : Proc} (hp : p.pageDirectory32.p = true) :
    ∃ p', p.Stored p' ∧ copyProgramImage img inode p =
      if img.badBlock (img.inodes inode) then .ok (-1, p')
      else if (img.inodes inode).length.toNat ≤ imageRoom then .ok (0, p')
      else .error .pageFault :=
  copyLoop_eq hi hp .zero (by decide)

/-! ## The outcomes of `execute` -/

theorem freePid_spec {p : Proc} {q : Pid} (h : p.freePid = some q) : p.pidMask q = false := by
  have := List.find?_some h
  simpa using this

/-- What a command that finds a program leads to: the entry of the name that the parser left. -/
theorem findProgram_some {img : Image} {cmd : CString} {prog : Program}
    (h : findProgram img cmd = .ok (some prog)) :
    ∃ st entry, parseCommand cmd = .ok st ∧
      img.readDentryByName (cstr (filenameLen + 1) st.filename) = .ok (some entry) ∧
      prog.inode = entry.inodeNum.toNat ∧ prog.arguments = st.arguments ∧
      prog.inode < img.inodeCount.toNat := by
  simp only [findProgram] at h
  cases hp : parseCommand cmd with
  | error f => simp [hp, Except.bind] at h
  | ok st =>
    simp only [hp, Except.bind] at h
    cases hd : img.readDentryByName (cstr (filenameLen + 1) st.filename) with
    | error f => simp [hd] at h
    | ok entry? =>
      cases entry? with
      | none => simp [hd] at h
      | some entry =>
        simp only [hd] at h
        cases hr : img.readData entry.inodeNum.toNat 0 4 with
        | error f => simp [hr] at h
        | ok header =>
          simp only [hr] at h
          split at h
          · cases h
          · rename_i hret
            have hlt := (Image.readData_pos hr (by omega)).1
            cases he : img.readData entry.inodeNum.toNat 24 4 with
            | error f => simp [he] at h
            | ok eip =>
              simp only [he] at h
              split at h
              · cases h
              · split at h
                · cases h
                · cases h
                  exact ⟨st, entry, rfl, hd, rfl, rfl, hlt⟩

theorem findProgram_inode {img : Image} {cmd : CString} {prog : Program}
    (h : findProgram img cmd = .ok (some prog)) : prog.inode < img.inodeCount.toNat := by
  obtain ⟨_, _, _, _, _, _, hlt⟩ := findProgram_some h
  exact hlt

theorem eq_ok_of_join {x : Except Fault (Option Program)} {prog : Program}
    (h : x.toOption.join = some prog) : x = .ok (some prog) := by
  cases x with
  | error f => simp [Except.toOption] at h
  | ok o =>
    simp only [Except.toOption, Option.join_some] at h
    rw [h]

/-- The process tables when the program of process `q` is about to be copied. -/
def prepared (p : Proc) (cur : Term) (q : Pid) : Proc := (p.createPcb cur q).mapProgramMem q

/-- The new program gets past the checks of `execute`, as process `q`. -/
structure Finds (img : Image) (p : Proc) (command : Option CString) (q : Pid) (prog : Program) :
    Prop where
  freePid : p.freePid = some q
  found : ∃ cmd, command = some cmd ∧ findProgram img cmd = .ok (some prog)

/-- `execute` starts the program: it passes the checks and every block of it can be read. -/
def Loads (img : Image) (p : Proc) (command : Option CString) (q : Pid) (prog : Program) : Prop :=
  p.Finds img command q prog ∧ img.badBlock (img.inodes prog.inode) = false

variable {img : Image} {cur : Term} {p : Proc} {command : Option CString} {regs : Frame}

theorem execute_badBlock (cur : Term) (regs : Frame) {q : Pid} {prog : Program}
    (h : p.Finds img command q prog) (hb : img.badBlock (img.inodes prog.inode) = true) :
    ∃ p', (p.prepared cur q).Stored p' ∧ p.execute img cur command regs = .ret (-1) p' := by
  obtain ⟨hq, cmd, rfl, hf⟩ := h
  obtain ⟨p', hst, heq⟩ :=
    copyProgramImage_eq (findProgram_inode hf) (p := p.prepared cur q) rfl
  refine ⟨p', hst, ?_⟩
  simp only [prepared, hb, if_true] at heq
  simp [execute, hq, hf, heq]

/-- A program that can be loaded and fits is copied and started. -/
theorem Loads.copied (cur : Term) (regs : Frame) {q : Pid} {prog : Program}
    (h : p.Loads img command q prog) (hl : (img.inodes prog.inode).length.toNat ≤ imageRoom) :
    ∃ p', (p.prepared cur q).Stored p' ∧
      (p.prepared cur q).copyProgramImage img prog.inode = .ok (0, p') ∧
      p.execute img cur command regs = .enter q (p'.launch cur q prog regs) := by
  obtain ⟨⟨hq, cmd, rfl, hf⟩, hb⟩ := h
  obtain ⟨p', hst, heq⟩ :=
    copyProgramImage_eq (findProgram_inode hf) (p := p.prepared cur q) rfl
  simp only [hb, if_neg (Bool.false_ne_true), if_pos hl] at heq
  refine ⟨p', hst, heq, ?_⟩
  rw [prepared] at heq
  simp [execute, hq, hf, heq]

theorem Loads.enter (cur : Term) (regs : Frame) {q : Pid} {prog : Program}
    (h : p.Loads img command q prog) (hl : (img.inodes prog.inode).length.toNat ≤ imageRoom) :
    ∃ p', (p.prepared cur q).Stored p' ∧
      p.execute img cur command regs = .enter q (p'.launch cur q prog regs) := by
  obtain ⟨p', hst, _, henter⟩ := h.copied cur regs hl
  exact ⟨p', hst, henter⟩

/-- A longer one leaves the program page while it is copied. -/
theorem Loads.pageFault (cur : Term) (regs : Frame) {q : Pid} {prog : Program}
    (h : p.Loads img command q prog) (hl : ¬ (img.inodes prog.inode).length.toNat ≤ imageRoom) :
    p.execute img cur command regs = .fault .pageFault := by
  obtain ⟨⟨hq, cmd, rfl, hf⟩, hb⟩ := h
  obtain ⟨p', _, heq⟩ :=
    copyProgramImage_eq (findProgram_inode hf) (p := p.prepared cur q) rfl
  simp only [prepared, hb, if_neg (Bool.false_ne_true), if_neg hl] at heq
  simp [execute, hq, hf, heq]

/-- The four outcomes: an early return that changes nothing, a fault, a return after the copy of
the image failed, and the start of the program. -/
theorem execute_cases (img : Image) (cur : Term) (p : Proc) (command : Option CString)
    (regs : Frame) :
    (p.execute img cur command regs = .ret (-1) p ∧ ∀ q prog, ¬ p.Finds img command q prog) ∨
    (∃ f, p.execute img cur command regs = .fault f) ∨
    (∃ q prog p', p.Finds img command q prog ∧ img.badBlock (img.inodes prog.inode) = true ∧
      (p.prepared cur q).Stored p' ∧ p.execute img cur command regs = .ret (-1) p') ∨
    (∃ q prog p', p.Loads img command q prog ∧ (p.prepared cur q).Stored p' ∧
      p.execute img cur command regs = .enter q (p'.launch cur q prog regs)) := by
  cases hq : p.freePid with
  | none =>
    left
    refine ⟨by simp [execute, hq], fun q prog h => ?_⟩
    have := h.freePid
    rw [hq] at this
    cases this
  | some q =>
    cases command with
    | none =>
      left
      refine ⟨by simp [execute, hq], fun q prog h => ?_⟩
      obtain ⟨cmd, hc, _⟩ := h.found
      cases hc
    | some cmd =>
      cases hf : findProgram img cmd with
      | error f => exact Or.inr (Or.inl ⟨f, by simp [execute, hq, hf]⟩)
      | ok prog? =>
        cases prog? with
        | none =>
          left
          refine ⟨by simp [execute, hq, hf], fun q prog h => ?_⟩
          obtain ⟨cmd', hc, hf'⟩ := h.found
          cases hc
          rw [hf] at hf'
          cases hf'
        | some prog =>
          have hfinds : p.Finds img (some cmd) q prog := ⟨hq, cmd, rfl, hf⟩
          by_cases hb : img.badBlock (img.inodes prog.inode) = true
          · obtain ⟨p', hst, heq⟩ := execute_badBlock cur regs hfinds hb
            exact Or.inr (Or.inr (Or.inl ⟨q, prog, p', hfinds, hb, hst, heq⟩))
          · have hloads : p.Loads img (some cmd) q prog := ⟨hfinds, by simpa using hb⟩
            by_cases hl : (img.inodes prog.inode).length.toNat ≤ imageRoom
            · obtain ⟨p', hst, heq⟩ := hloads.enter cur regs hl
              exact Or.inr (Or.inr (Or.inr ⟨q, prog, p', hloads, hst, heq⟩))
            · exact Or.inr (Or.inl ⟨.pageFault, hloads.pageFault cur regs hl⟩)

/-- What a command finds is determined by the process tables and the image. -/
theorem Finds.unique {q q' : Pid} {prog prog' : Program} (h : p.Finds img command q prog)
    (h' : p.Finds img command q' prog') : q = q' ∧ prog = prog' := by
  obtain ⟨hq, cmd, rfl, hf⟩ := h
  obtain ⟨hq', cmd', heq, hf'⟩ := h'
  cases heq
  rw [hf] at hf'
  cases hf'
  exact ⟨Option.some.inj (hq.symm.trans hq'), rfl⟩

/-- A program that can be loaded is started, or does not fit in the program page. -/
theorem Loads.not_ret {q : Pid} {prog : Program} (h : p.Loads img command q prog) {v : Int}
    {p' : Proc} : p.execute img cur command regs ≠ .ret v p' := by
  intro hx
  rcases execute_cases img cur p command regs with ⟨_, hno⟩ | ⟨f, h1⟩ | ⟨q', prog', _, hf', hb', _, _⟩ |
    ⟨_, _, _, _, _, h1⟩
  · exact hno _ _ h.1
  · rw [h1] at hx
    cases hx
  · rw [← (h.1.unique hf').2, h.2] at hb'
    cases hb'
  · rw [h1] at hx
    cases hx

theorem execute_enter {q : Pid} {p' : Proc} (h : p.execute img cur command regs = .enter q p') :
    ∃ prog p1, p.Loads img command q prog ∧ (p.prepared cur q).Stored p1 ∧
      p' = p1.launch cur q prog regs := by
  rcases execute_cases img cur p command regs with ⟨h1, _⟩ | ⟨f, h1⟩ | ⟨q', prog, p1, _, _, _, h1⟩ |
    ⟨q', prog, p1, hl, hst, h1⟩
  all_goals rw [h1] at h; cases h
  exact ⟨prog, p1, hl, hst, rfl⟩

/-- The program that is entered is the copy of the file that was found. -/
theorem execute_copied {q : Pid} {p' : Proc} (h : p.execute img cur command regs = .enter q p') :
    ∃ prog p1, p.Finds img command q prog ∧
      (p.prepared cur q).copyProgramImage img prog.inode = .ok (0, p1) ∧
      p' = p1.launch cur q prog regs := by
  obtain ⟨prog, _, hloads, _, _⟩ := execute_enter h
  by_cases hl : (img.inodes prog.inode).length.toNat ≤ imageRoom
  · obtain ⟨p1, _, hcopy, henter⟩ := hloads.copied cur regs hl
    rw [henter] at h
    cases h
    exact ⟨prog, p1, hloads.1, hcopy, rfl⟩
  · rw [hloads.pageFault cur regs hl] at h
    cases h

theorem execute_ret {v : Int} {p' : Proc} (h : p.execute img cur command regs = .ret v p') :
    v = -1 ∧ (p' = p ∨ ∃ q prog, p.Finds img command q prog ∧
      img.badBlock (img.inodes prog.inode) = true ∧ (p.prepared cur q).Stored p') := by
  rcases execute_cases img cur p command regs with ⟨h1, _⟩ | ⟨f, h1⟩ | ⟨q, prog, p1, hf, hb, hst, h1⟩ |
    ⟨q', prog, p1, hl, hst, h1⟩
  all_goals rw [h1] at h; cases h
  · exact ⟨rfl, Or.inl rfl⟩
  · exact ⟨rfl, Or.inr ⟨q, prog, hf, hb, hst⟩⟩

/-- What the preparation and the start of a program keep, `execute` keeps. -/
theorem execute_keeps {I : Proc → Prop} (hp : I p)
    (hprepared : ∀ q p', (p.prepared cur q).Stored p' → I p')
    (hlaunch : ∀ q prog p', I p' → I (p'.launch cur q prog regs)) :
    (∀ v p', p.execute img cur command regs = .ret v p' → I p') ∧
      ∀ q p', p.execute img cur command regs = .enter q p' → I p' := by
  constructor
  · intro v p' h
    rcases (execute_ret h).2 with rfl | ⟨q, prog, _, _, hst⟩
    · exact hp
    · exact hprepared q p' hst
  · intro q p' h
    obtain ⟨prog, p1, _, hst, rfl⟩ := execute_enter h
    exact hlaunch q prog p1 (hprepared q p1 hst)

/-- The pid that `execute` starts the program with, if it starts one. -/
def newPid (img : Image) (p : Proc) (command : Option CString) : Option Pid :=
  match p.freePid, command with
  | some q, some cmd =>
    match findProgram img cmd with
    | .ok (some prog) => if img.badBlock (img.inodes prog.inode) then none else some q
    | _ => none
  | _, _ => none

theorem newPid_eq_some {q : Pid} :
    p.newPid img command = some q ↔ ∃ prog, p.Loads img command q prog := by
  constructor
  · intro h
    simp only [newPid] at h
    split at h
    · rename_i q' cmd hq
      split at h
      · rename_i prog hf
        split at h
        · cases h
        · cases h
          exact ⟨prog, ⟨hq, cmd, rfl, hf⟩, by simpa using ‹¬ _ = true›⟩
      · cases h
    · cases h
  · rintro ⟨prog, ⟨hq, cmd, rfl, hf⟩, hb⟩
    simp [newPid, hq, hf, hb]

end Proc
end DeviceOS
