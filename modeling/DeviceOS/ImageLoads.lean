import DeviceOS.FileReads
import DeviceOS.ImageCopies

/-!
# DeviceOS.ImageLoads

The calls that the loop of `copy_program_image` makes, on its machine words: which offsets it reads
from, and which addresses it stores to.

* `Proc.copyWords`: the loop with a record of its calls. `LoopAt.copyWords_succ`: one pass.
* `Traced`: the words do not overflow, so the result is that of the loop without the record; every
  call reads inside one block; and a store outside of the program page is what the page fault is.
  `Proc.copyWords_traced`: so it is for the whole loop.
* `Proc.copy_program_image_copies`, `Proc.loader_stays_in_page`, `Proc.loading_ends`: when the loop
  copies the whole file, when it stays inside the page, and when it returns.
-/

namespace DeviceOS

open Buffers (fill fill_nil)

/-- One pass of the loop of `copy_program_image`: the offset, what `read_data` returned (an
`int32_t`), and the addresses that `load_program_image` stored to. -/
structure LoadCall where
  offset : BitVec 32
  cnt : BitVec 32
  stores : List (BitVec 32)

namespace Proc

/-- The loop of `load_program_image`, with the addresses it stores to. The last one is the address
of the page fault if there is one. -/
def storeWords (p : Proc) : BitVec 32 → List UInt8 → List (BitVec 32) × Option Proc
  | _, [] => ([], some p)
  | a, b :: bs =>
    match p.storeByte a.toNat b with
    | none => ([a], none)
    | some p1 =>
      let r := p1.storeWords (a + 1) bs
      (a :: r.1, r.2)

/-- The loop of `copy_program_image` with at most `n` passes; `buf` is the local buffer. -/
def copyWords (img : Image) (inode : BitVec 32) : Nat → BitVec 32 → (Nat → UInt8) → Proc →
    List LoadCall × Except Fault (Int × Proc)
  | 0, _, _, _ => ([], .error .noProgress)
  | n + 1, offset, buf, p =>
    match img.readDataWords inode offset buf 64 with
    | .error f => ([], .error f)
    | .ok (cnt, buf1) =>
      if cnt = 0 then ([⟨offset, cnt, []⟩], .ok (0, p))
      else if cnt = -1 then ([⟨offset, cnt, []⟩], .ok (-1, p))
      else
        let s := p.storeWords (offset + 0x8048000) ((List.range cnt.toNat).map buf1)
        match s.2 with
        | none => ([⟨offset, cnt, s.1⟩], .error .pageFault)
        | some p1 =>
          let r := copyWords img inode n (offset + cnt) buf1 p1
          (⟨offset, cnt, s.1⟩ :: r.1, r.2)

/-- `copy_program_image` with the record of its calls. -/
def copyProgramWords (img : Image) (inode : BitVec 32) (buf : Nat → UInt8) (p : Proc) :
    List LoadCall × Except Fault (Int × Proc) :=
  copyWords img inode 65536 0 buf p

/-! ## One pass -/

variable {img : Image}

/-- The addresses do not wrap around: the stores are those of `storeBytes`. -/
theorem storeWords_eq {bs : List UInt8} : ∀ {p : Proc} {a : BitVec 32},
    a.toNat + bs.length < 2 ^ 32 → (p.storeWords a bs).2 = p.storeBytes a.toNat bs := by
  induction bs with
  | nil => intro p a _; rfl
  | cons b bs ih =>
    intro p a ha
    rw [List.length_cons] at ha
    unfold storeWords storeBytes
    cases p.storeByte a.toNat b with
    | none => rfl
    | some p1 =>
      have hnext : (a + 1).toNat = a.toNat + 1 :=
        Image.toNat_succ (n := 2 ^ 32 - 1) (by omega) (by omega)
      simp only [Option.bind_some]
      rw [ih (by omega), hnext]

/-- The stores of one pass fail exactly when one of them is outside of the program page. -/
theorem storeWords_addresses {bs : List UInt8} : ∀ {p : Proc} {a : BitVec 32},
    p.pageDirectory32.p = true → 0x8048000 ≤ a.toNat → a.toNat + bs.length < 2 ^ 32 →
      ((p.storeWords a bs).2 = none ↔
        ¬ ∀ x ∈ (p.storeWords a bs).1, 0x8048000 ≤ x.toNat ∧ x.toNat < 0x8400000) := by
  induction bs with
  | nil =>
    intro p a _ _ _
    simp [storeWords]
  | cons b bs ih =>
    intro p a hp ha hlen
    rw [List.length_cons] at hlen
    unfold storeWords
    cases hs : p.storeByte a.toNat b with
    | none =>
      have hout : ¬ (a.toNat < 0x8400000) := by
        intro hlt
        simp only [storeByte] at hs
        rw [if_pos ⟨by omega, hlt, hp⟩] at hs
        cases hs
      simp [hout]
    | some p1 =>
      have hin : a.toNat < 0x8400000 := (storeByte_frame hs).2.1
      have hnext : (a + 1).toNat = a.toNat + 1 :=
        Image.toNat_succ (n := 2 ^ 32 - 1) (by omega) (by omega)
      have hp1 : p1.pageDirectory32.p = true := by
        rw [(storeByte_stored hs).pageDirectory32]
        exact hp
      simp only [List.mem_cons, forall_eq_or_imp]
      rw [ih hp1 (by omega) (by omega)]
      simp [ha, hin]

/-- The call of `read_data` in one pass. -/
theorem LoopAt.readData {inode offset : Nat} (hi : inode < img.inodeCount.toNat)
    (hat : LoopAt img (img.inodes inode) offset) :
    img.readData inode offset fileBufSize =
      if img.validBlock ((img.inodes inode).dataBlockNum (offset / blockByteSize)) = false then
        .ok ⟨-1, []⟩
      else .ok ⟨(chunk img (img.inodes inode) offset).length,
        chunk img (img.inodes inode) offset⟩ := by
  have hslots : offset / blockByteSize < numBlockSlots := by
    have := hat.slot_le
    simp only [numBlockSlots]
    omega
  split
  · rename_i hv
    exact Image.readData_invalid hslots hv
  · rename_i hv
    rw [chunk_length]
    exact Image.readData_eq hi hslots (by simpa using hv) hat.readable

/-- One pass, by what `read_data` returned. -/
theorem copyWords_read {inode offset cnt : BitVec 32} {buf buf1 : Nat → UInt8}
    (h : img.readDataWords inode offset buf 64 = .ok (cnt, buf1)) (n : Nat) (p : Proc) :
    (cnt = -1 → copyWords img inode (n + 1) offset buf p = ([⟨offset, cnt, []⟩], .ok (-1, p))) ∧
    (cnt = 0 → copyWords img inode (n + 1) offset buf p = ([⟨offset, cnt, []⟩], .ok (0, p))) ∧
    (cnt ≠ -1 → cnt ≠ 0 → copyWords img inode (n + 1) offset buf p =
      let s := p.storeWords (offset + 0x8048000) ((List.range cnt.toNat).map buf1)
      match s.2 with
      | none => ([⟨offset, cnt, s.1⟩], .error .pageFault)
      | some p1 =>
        let r := copyWords img inode n (offset + cnt) buf1 p1
        (⟨offset, cnt, s.1⟩ :: r.1, r.2)) := by
  rw [copyWords, h]
  refine ⟨fun h1 => ?_, fun h0 => ?_, fun h1 h0 => ?_⟩
  · have h0 : ¬ cnt = 0 := by
      rw [h1]
      simp
    simp only [if_neg h0, if_pos h1]
  · simp only [if_pos h0]
  · simp only [if_neg h0, if_neg h1]

/-- One pass: the call of `read_data` fails, or is at the end of the file, or brings the next bytes
to be stored. -/
theorem LoopAt.copyWords_succ {inode offset : BitVec 32} (hi : inode.toNat < img.inodeCount.toNat)
    (hat : LoopAt img (img.inodes inode.toNat) offset.toNat) (n : Nat) (buf : Nat → UInt8)
    (p : Proc) :
    copyWords img inode (n + 1) offset buf p =
      if img.validBlock ((img.inodes inode.toNat).dataBlockNum (offset.toNat / blockByteSize)) =
          false then
        ([⟨offset, -1, []⟩], .ok (-1, p))
      else if offset.toNat = (img.inodes inode.toNat).length.toNat then
        ([⟨offset, 0, []⟩], .ok (0, p))
      else
        let xs := chunk img (img.inodes inode.toNat) offset.toNat
        let cnt := BitVec.ofNat 32 xs.length
        let s := p.storeWords (offset + 0x8048000) xs
        match s.2 with
        | none => ([⟨offset, cnt, s.1⟩], .error .pageFault)
        | some p1 =>
          let r := copyWords img inode n (offset + cnt) (fill buf 0 xs) p1
          (⟨offset, cnt, s.1⟩ :: r.1, r.2) := by
  have hlen := chunk_length img (img.inodes inode.toNat) offset.toNat
  have hle := hat.le_length
  have hread := @Image.readDataWords_eq img inode offset buf 64
  have hnum : img.readData inode.toNat offset.toNat (64 : BitVec 32).toNat = _ :=
    LoopAt.readData hi hat
  rw [hnum] at hread
  by_cases hv : img.validBlock
      ((img.inodes inode.toNat).dataBlockNum (offset.toNat / blockByteSize)) = false
  · rw [if_pos hv] at hread ⊢
    exact (copyWords_read hread n p).1 rfl
  · rw [if_neg hv] at hread ⊢
    simp only [fileBufSize] at hlen
    simp only [Except.map, Image.words_natCast] at hread
    generalize chunk img (img.inodes inode.toNat) offset.toNat = xs at hlen hread
    obtain ⟨_, hzero, hmore⟩ := copyWords_read hread n p
    by_cases hend : offset.toNat = (img.inodes inode.toNat).length.toNat
    · have hnil : xs = [] := List.length_eq_zero_iff.mp (by omega)
      subst hnil
      rw [if_pos hend, hzero rfl]
      rfl
    · have hto : (BitVec.ofNat 32 xs.length).toNat = xs.length := by
        rw [BitVec.toNat_ofNat, Nat.mod_eq_of_lt (by omega)]
      have h0 : BitVec.ofNat 32 xs.length ≠ 0 := by
        intro h
        have hz : xs.length = 0 := by
          rw [← hto, h]
          rfl
        omega
      have h1 : BitVec.ofNat 32 xs.length ≠ -1 := by
        intro h
        have hz : xs.length = 4294967295 := by
          rw [← hto, h]
          rfl
        omega
      rw [if_neg hend, hmore h1 h0, hto, Buffers.range_map_fill]

/-! ## The whole loop -/

end Proc

namespace LoadCall

/-- The call does not cross from one block into the next. -/
def InBlock (c : LoadCall) : Prop := c.cnt = -1 ∨ c.cnt = 0 ∨
  c.offset.toNat / blockByteSize = (c.offset.toNat + c.cnt.toNat - 1) / blockByteSize

/-- `offset += cnt` does not wrap around. -/
def NoWrap (c : LoadCall) : Prop := c.cnt = -1 ∨ c.offset.toNat + c.cnt.toNat < 2 ^ 32

/-- The stores are between `0x08048000` and the end of the program page. -/
def InPage (c : LoadCall) : Prop := ∀ a ∈ c.stores, 0x8048000 ≤ a.toNat ∧ a.toNat < 0x8400000

end LoadCall

namespace Proc

variable {img : Image}

/-- The loop with its record does what the loop without it does, its calls stay inside their blocks,
and it ends with a page fault when it stores outside of the page. -/
structure Traced (r : List LoadCall × Except Fault (Int × Proc)) (x : Except Fault (Int × Proc)) :
    Prop where
  result : r.2 = x
  calls : ∀ c ∈ r.1, c.InBlock ∧ c.NoWrap
  fault : x = .error .pageFault ↔ ¬ ∀ c ∈ r.1, c.InPage

/-- A last call that stores nothing. -/
theorem Traced.last {c : LoadCall} {x : Except Fault (Int × Proc)} (hb : c.InBlock)
    (hw : c.NoWrap) (hs : c.stores = []) (hx : x ≠ .error .pageFault) : Traced ([c], x) x := by
  refine ⟨rfl, ?_, ?_⟩
  · intro d hd
    rw [List.mem_singleton.mp hd]
    exact ⟨hb, hw⟩
  · simp [hx, LoadCall.InPage, hs]

/-- A call before the rest of the loop. -/
theorem Traced.cons {c : LoadCall} {r : List LoadCall × Except Fault (Int × Proc)}
    {x : Except Fault (Int × Proc)} (h : Traced r x) (hb : c.InBlock) (hw : c.NoWrap)
    (hp : c.InPage) : Traced (c :: r.1, r.2) x := by
  refine ⟨h.result, ?_, ?_⟩
  · intro d hd
    rcases List.mem_cons.mp hd with rfl | hd
    · exact ⟨hb, hw⟩
    · exact h.calls d hd
  · rw [h.fault]
    simp [hp]

/-- A call inside the file, from a multiple of 64. -/
theorem LoopAt.call {ino : Inode} {offset : BitVec 32} (hat : LoopAt img ino offset.toNat)
    (hne : offset.toNat ≠ ino.length.toNat) (stores : List (BitVec 32)) :
    (⟨offset, BitVec.ofNat 32 (chunk img ino offset.toNat).length, stores⟩ : LoadCall).InBlock ∧
      (⟨offset, BitVec.ofNat 32 (chunk img ino offset.toNat).length, stores⟩ : LoadCall).NoWrap ∧
      (offset + BitVec.ofNat 32 (chunk img ino offset.toNat).length).toNat =
        offset.toNat + (chunk img ino offset.toNat).length := by
  have hlen := chunk_length img ino offset.toNat
  have hroom := hat.le_room
  have hal := hat.aligned
  have hle := hat.le_length
  simp only [fileBufSize] at hlen
  simp only [imageRoom] at hroom
  have hto : (BitVec.ofNat 32 (chunk img ino offset.toNat).length).toNat =
      (chunk img ino offset.toNat).length := by
    rw [BitVec.toNat_ofNat, Nat.mod_eq_of_lt (by omega)]
  have hsum : offset.toNat + (chunk img ino offset.toNat).length < 2 ^ 32 := by omega
  refine ⟨Or.inr (Or.inr ?_), Or.inr ?_, ?_⟩
  · simp only [hto, blockByteSize]
    omega
  · simp only [hto]
    exact hsum
  · rw [BitVec.toNat_add, hto, Nat.mod_eq_of_lt hsum]

/-- The stores of one pass are those of `load_program_image`, which fails when one of them is outside
of the page. -/
theorem LoopAt.stores {ino : Inode} {offset : BitVec 32} (hat : LoopAt img ino offset.toNat)
    {p : Proc} (hp : p.pageDirectory32.p = true) :
    let s := p.storeWords (offset + 0x8048000) (chunk img ino offset.toNat)
    s.2 = p.loadProgramImage offset.toNat (chunk img ino offset.toNat) ∧
      (s.2 = none ↔ ¬ ∀ a ∈ s.1, 0x8048000 ≤ a.toNat ∧ a.toNat < 0x8400000) := by
  have hroom := hat.le_room
  have hlen := chunk_length img ino offset.toNat
  simp only [imageRoom] at hroom
  simp only [fileBufSize] at hlen
  have hbase : (offset + 0x8048000).toNat = offset.toNat + 0x8048000 := by
    rw [BitVec.toNat_add]
    simp only [BitVec.reduceToNat]
    omega
  refine ⟨?_, storeWords_addresses hp (by omega) (by omega)⟩
  rw [storeWords_eq (by omega), hbase, loadProgramImage]

/-- The words of the loop do not overflow, and it stops at the first store outside of the page. -/
theorem copyWords_traced {inode : BitVec 32} (hi : inode.toNat < img.inodeCount.toNat) :
    ∀ {n : Nat} {offset : BitVec 32} {buf : Nat → UInt8} {p : Proc},
      p.pageDirectory32.p = true → LoopAt img (img.inodes inode.toNat) offset.toNat →
      Traced (copyWords img inode n offset buf p) (copyLoop img inode.toNat n offset.toNat p) := by
  intro n
  induction n with
  | zero =>
    intro offset buf p _ _
    exact ⟨rfl, by simp [copyWords], by simp [copyLoop, copyWords]⟩
  | succ n ih =>
    intro offset buf p hp hat
    rw [hat.copyWords_succ hi, hat.copyLoop_succ hi]
    split
    · exact .last (Or.inl rfl) (Or.inl rfl) rfl (by simp)
    · rename_i hv
      rw [Bool.not_eq_false] at hv
      split
      · have hword : offset.toNat + (0 : BitVec 32).toNat < 2 ^ 32 := by
          simp
          exact offset.isLt
        exact .last (Or.inr (Or.inl rfl)) (Or.inr hword) rfl (by simp)
      · rename_i hend
        obtain ⟨heq, hstores⟩ := hat.stores hp
        obtain ⟨hblock, hwrap, hnext⟩ := hat.call hend (p.storeWords (offset + 0x8048000)
          (chunk img (img.inodes inode.toNat) offset.toNat)).1
        have hlen := chunk_length img (img.inodes inode.toNat) offset.toNat
        have hle := hat.le_length
        simp only [fileBufSize] at hlen
        rw [heq] at hstores
        simp only [heq]
        cases hload : p.loadProgramImage offset.toNat
            (chunk img (img.inodes inode.toNat) offset.toNat) with
        | none =>
          refine ⟨rfl, ?_, ?_⟩
          · intro c hc
            rw [List.mem_singleton.mp hc]
            exact ⟨hblock, hwrap⟩
          · have hout := hstores.mp hload
            simpa [LoadCall.InPage] using hout
        | some p1 =>
          obtain ⟨hlt, hdir⟩ := loadProgramImage_some (by omega) hload
          have hin : ∀ a ∈ (p.storeWords (offset + 0x8048000)
              (chunk img (img.inodes inode.toNat) offset.toNat)).1,
                0x8048000 ≤ a.toNat ∧ a.toNat < 0x8400000 := by
            by_contra hout
            rw [hstores.mpr hout] at hload
            cases hload
          have hrest := @ih
            (offset + BitVec.ofNat 32 (chunk img (img.inodes inode.toNat) offset.toNat).length)
            (fill buf 0 (chunk img (img.inodes inode.toNat) offset.toNat)) p1 (by rw [hdir, hp])
            (by rw [hnext]; exact hat.next hv (by omega) hlt)
          rw [hnext] at hrest
          exact hrest.cons hblock hwrap hin

/-! ## `copy_program_image` -/

variable (img) (inode : BitVec 32) (buf : Nat → UInt8) (p : Proc) (q : Pid)

/-- An inode number that does not exist: `read_data` fails at once. -/
theorem copyProgram_noInode (h : img.inodeCount.toNat ≤ inode.toNat) :
    copyProgramWords img inode buf p = ([⟨0, -1, []⟩], .ok (-1, p)) := by
  have hread : img.readDataWords inode 0 buf 64 = .ok (-1, buf) := by
    rw [Image.readDataWords, if_pos h]
  exact (copyWords_read hread 65535 p).1 rfl

/-- What the loop does after `map_program_mem`. -/
theorem copyProgramWords_traced (h : inode.toNat < img.inodeCount.toNat) :
    Traced (copyProgramWords img inode buf (p.mapProgramMem q))
      ((p.mapProgramMem q).copyProgramImage img inode.toNat) :=
  copyWords_traced h rfl LoopAt.zero

/-- The loop stops before the end of the program page: the inode does not exist, a block that is
needed before does not exist, or the file fits. -/
def StopsInPage : Prop :=
  img.inodeCount.toNat ≤ inode.toNat ∨ img.badBlock (img.inodes inode.toNat) = true ∨
    (img.inodes inode.toNat).length.toNat ≤ imageRoom

/-- Otherwise it leaves the page. -/
theorem copyProgramWords_pageFault :
    (copyProgramWords img inode buf (p.mapProgramMem q)).2 = .error .pageFault ↔
      ¬ StopsInPage img inode := by
  by_cases hi : img.inodeCount.toNat ≤ inode.toNat
  · rw [copyProgram_noInode img inode buf _ hi]
    simp [StopsInPage, hi]
  · have hlt : inode.toNat < img.inodeCount.toNat := by omega
    obtain ⟨p', _, heq⟩ := copyProgramImage_eq hlt (p := p.mapProgramMem q) rfl
    rw [(copyProgramWords_traced img inode buf p q hlt).result, heq]
    by_cases hb : img.badBlock (img.inodes inode.toNat) = true
    · simp [StopsInPage, hb]
    · by_cases hl : (img.inodes inode.toNat).length.toNat ≤ imageRoom
      · simp [StopsInPage, hb, hl]
      · simp [StopsInPage, hb, hl, hi]

/-- A file of one byte more than the program page has room for, in blocks that exist. -/
def bigFile : Image := { Image.twoBlocks with inodes := fun _ => ⟨3899393, fun _ => 0⟩ }

theorem bigFile_leaves : ¬ StopsInPage bigFile 0 := by
  rintro (h | h | h)
  · exact absurd h (by decide)
  · obtain ⟨k, _, _, hv⟩ := Image.badBlock_iff.mp h
    have hvalid : bigFile.validBlock 0 = true := by decide
    have hv : bigFile.validBlock 0 = false := hv
    rw [hvalid] at hv
    cases hv
  · exact absurd h (by decide)

/-- Every address that the loader stores to is in the program page exactly when the inode does not
exist, a block before the end of the page does not exist, or the file fits into the page. -/
theorem loader_stays_in_page :
    (∀ c ∈ (copyProgramWords img inode buf (p.mapProgramMem q)).1, c.InPage) ↔
      StopsInPage img inode := by
  by_cases hi : img.inodeCount.toNat ≤ inode.toNat
  · rw [copyProgram_noInode img inode buf _ hi]
    simp [StopsInPage, hi, LoadCall.InPage]
  · have htraced := copyProgramWords_traced img inode buf p q (by omega)
    have hfault := copyProgramWords_pageFault img inode buf p q
    rw [htraced.result, htraced.fault] at hfault
    exact not_iff_not.mp hfault

/-- Byte 3899392 of a file is stored behind the page. -/
theorem large_file_leaves_page : ¬ ∀ (img : Image) (inode : BitVec 32) (buf : Nat → UInt8)
    (p : Proc) (q : Pid), ∀ c ∈ (copyProgramWords img inode buf (p.mapProgramMem q)).1,
      c.InPage := by
  intro h
  have hfault := (copyProgramWords_pageFault bigFile 0 (fun _ => 0) Machine.booted.kern.proc 0).mpr
    bigFile_leaves
  have htraced := copyProgramWords_traced bigFile 0 (fun _ => 0) Machine.booted.kern.proc 0
    (by decide)
  rw [htraced.result] at hfault
  exact htraced.fault.mp hfault (h bigFile 0 (fun _ => 0) Machine.booted.kern.proc 0)

/-- The loop returns, after calls of `read_data` that stay inside one block each, with an offset
that does not wrap around. -/
structure LoadEnds (r : List LoadCall × Except Fault (Int × Proc)) : Prop where
  returns : ∃ v p', r.2 = .ok (v, p')
  calls : ∀ c ∈ r.1, c.InBlock ∧ c.NoWrap

/-- The loop ends for every image and every inode number, after calls that stay inside their blocks
and do not wrap around; it returns when it has not left the program page. -/
theorem loading_ends :
    ((copyProgramWords img inode buf (p.mapProgramMem q)).2 ≠ .error .noProgress ∧
      ∀ c ∈ (copyProgramWords img inode buf (p.mapProgramMem q)).1, c.InBlock ∧ c.NoWrap) ∧
    (LoadEnds (copyProgramWords img inode buf (p.mapProgramMem q)) ↔ StopsInPage img inode) := by
  have hfault := copyProgramWords_pageFault img inode buf p q
  have hends : (copyProgramWords img inode buf (p.mapProgramMem q)).2 = .error .pageFault ∨
      ∃ v p', (copyProgramWords img inode buf (p.mapProgramMem q)).2 = .ok (v, p') := by
    by_cases hi : img.inodeCount.toNat ≤ inode.toNat
    · rw [copyProgram_noInode img inode buf _ hi]
      exact Or.inr ⟨-1, _, rfl⟩
    · have hlt : inode.toNat < img.inodeCount.toNat := by omega
      obtain ⟨p', _, heq⟩ := copyProgramImage_eq hlt (p := p.mapProgramMem q) rfl
      rw [(copyProgramWords_traced img inode buf p q hlt).result, heq]
      split
      · exact Or.inr ⟨-1, p', rfl⟩
      · split
        · exact Or.inr ⟨0, p', rfl⟩
        · exact Or.inl rfl
  have hcalls : ∀ c ∈ (copyProgramWords img inode buf (p.mapProgramMem q)).1,
      c.InBlock ∧ c.NoWrap := by
    by_cases hi : img.inodeCount.toNat ≤ inode.toNat
    · rw [copyProgram_noInode img inode buf _ hi]
      intro c hc
      rw [List.mem_singleton.mp hc]
      exact ⟨Or.inl rfl, Or.inl rfl⟩
    · exact (copyProgramWords_traced img inode buf p q (by omega)).calls
  generalize copyProgramWords img inode buf (p.mapProgramMem q) = r at hfault hends hcalls
  refine ⟨⟨?_, hcalls⟩, ?_⟩
  · intro hno
    rcases hends with h | ⟨v, p', h⟩
    · rw [h] at hno
      cases hno
    · rw [h] at hno
      cases hno
  · constructor
    · rintro ⟨⟨v, p', h⟩, _⟩
      by_contra hout
      rw [hfault.mpr hout] at h
      cases h
    · intro hin
      refine ⟨?_, hcalls⟩
      rcases hends with h | h
      · exact absurd hin (hfault.mp h)
      · exact h

/-- The page fault on the way to byte 3899392 of a file does not return. -/
theorem large_file_does_not_return : ¬ ∀ (img : Image) (inode : BitVec 32) (buf : Nat → UInt8)
    (p : Proc) (q : Pid), LoadEnds (copyProgramWords img inode buf (p.mapProgramMem q)) := by
  intro h
  have hfault := (copyProgramWords_pageFault bigFile 0 (fun _ => 0) Machine.booted.kern.proc 0).mpr
    bigFile_leaves
  obtain ⟨v, p', hret⟩ := (h bigFile 0 (fun _ => 0) Machine.booted.kern.proc 0).returns
  rw [hfault] at hret
  cases hret

/-- The byte at virtual address `a`, in the program page. -/
def peek (p : Proc) (a : Nat) : UInt8 := p.frame (a - 0x8000000)

/-- The loader returns 0, byte `k` of the file is at `0x08048000 + k` for every `k`, and nothing
else has changed. -/
structure LoadsFile (ino : Inode) (p : Proc) (r : List LoadCall × Except Fault (Int × Proc))
    (p' : Proc) : Prop where
  returns : r.2 = .ok (0, p')
  file : ∀ k < ino.length.toNat, p'.peek (0x8048000 + k) = img.byteAt ino k
  page : ∀ a, 0x8000000 ≤ a → ¬ (0x8048000 ≤ a ∧ a < 0x8048000 + ino.length.toNat) →
    p'.peek a = p.peek a
  frames : ∀ f, f ≠ p.pageDirectory32.physicalAddress → p'.progMem f = p.progMem f
  tables : p' = { p with progMem := p'.progMem }

/-- For a file whose blocks exist: the loader copies all of it, and nothing else, exactly when it
fits into the program page and the slot at its end can be read. -/
theorem copy_program_image_copies (hi : inode.toNat < img.inodeCount.toNat)
    (hf : img.HoldsFile (img.inodes inode.toNat)) :
    (∃ p', LoadsFile img (img.inodes inode.toNat) (p.mapProgramMem q)
        (copyProgramWords img inode buf (p.mapProgramMem q)) p') ↔
      (img.inodes inode.toNat).length.toNat ≤ imageRoom ∧
        img.SlotReadable (img.inodes inode.toNat) (img.inodes inode.toNat).length.toNat := by
  have htraced := (copyProgramWords_traced img inode buf p q hi).result
  have hp : (p.mapProgramMem q).pageDirectory32.p = true := rfl
  generalize p.mapProgramMem q = p0 at hp htraced
  obtain ⟨p1, ⟨mem, rfl, hmem⟩, heq⟩ := copyProgramImage_eq hi hp
  constructor
  · rintro ⟨p', hret, _⟩
    rw [htraced] at hret
    have hroom : (img.inodes inode.toNat).length.toNat ≤ imageRoom := by
      rw [hret] at heq
      split at heq
      · cases heq
      · split at heq
        · assumption
        · cases heq
    exact ⟨hroom, (Image.copyProgramImage_iff hi hf hp hroom).mp ⟨p', hret⟩⟩
  · rintro ⟨hroom, hslot⟩
    obtain ⟨p', hret⟩ := (Image.copyProgramImage_iff hi hf hp hroom).mpr hslot
    rw [hret, if_pos hroom] at heq
    split at heq
    · cases heq
    · cases heq
      have hfill := copyProgramImage_fill hi hret
      have hlen : (img.content (img.inodes inode.toNat)).length =
          (img.inodes inode.toNat).length.toNat := Image.slice_length ..
      refine ⟨_, htraced.trans hret, fun k hk => ?_, fun a ha hout => ?_, hmem, rfl⟩
      · have hbase : 0x8048000 + k - 0x8000000 = imageBase + k := by
          simp only [imageBase]
          omega
        rw [peek, hbase]
        exact copyProgramImage_copies hi hret k hk
      · have hfar : a - 0x8000000 < imageBase ∨ imageBase +
            (img.content (img.inodes inode.toNat)).length ≤ a - 0x8000000 := by
          simp only [imageBase]
          omega
        rw [peek, peek, hfill, Buffers.fill_outside _ hfar]

theorem copy_program_image_copies_two : ∃ p', LoadsFile Image.twoBlocks (Image.twoBlocks.inodes 0)
    (Machine.booted.kern.proc.mapProgramMem 0)
    (copyProgramWords Image.twoBlocks 0 (fun _ => 0)
      (Machine.booted.kern.proc.mapProgramMem 0)) p' :=
  (copy_program_image_copies Image.twoBlocks 0 (fun _ => 0) Machine.booted.kern.proc 0 (by decide)
    (Image.twoBlocks_holdsFile _)).mpr ⟨by decide, Or.inr rfl⟩

/-- All 1023 slots are valid, and the loader does not get to the end of the file. -/
theorem large_file_is_not_copied : ¬ ∀ (img : Image) (inode : BitVec 32) (buf : Nat → UInt8)
    (p : Proc) (q : Pid), inode.toNat < img.inodeCount.toNat →
      0 ≤ (img.inodes inode.toNat).length.toInt →
      (img.inodes inode.toNat).length.toInt ≤ 1023 * 4096 →
      (∀ s < numBlockSlots, img.validBlock ((img.inodes inode.toNat).dataBlockNum s) = true) →
      ∃ p', LoadsFile img (img.inodes inode.toNat) (p.mapProgramMem q)
        (copyProgramWords img inode buf (p.mapProgramMem q)) p' := by
  intro h
  have hfault := (copyProgramWords_pageFault bigFile 0 (fun _ => 0) Machine.booted.kern.proc 0).mpr
    bigFile_leaves
  have hlen : ((bigFile.inodes (0 : BitVec 32).toNat).length).toInt = 3899393 := by decide
  have hvalid : bigFile.validBlock 0 = true := by decide
  obtain ⟨p', hload⟩ := h bigFile 0 (fun _ => 0) Machine.booted.kern.proc 0 (by decide)
    (by rw [hlen]; omega) (by rw [hlen]; omega) (fun s _ => hvalid)
  rw [hload.returns] at hfault
  cases hfault

end Proc
end DeviceOS
