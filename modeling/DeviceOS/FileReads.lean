import DeviceOS.Lib.Buffers
import DeviceOS.Loader
import DeviceOS.Machine

/-!
# DeviceOS.FileReads

`read_data` with its machine words and its buffer, and what depends on where it fails.

* `Image.readDataWords`: the function on `uint32_t` and `int32_t`, with the buffer that it stores to.
  `Image.readDataWords_eq`: it is `Image.readData`, which counts in `Nat` and lists the bytes stored.
* `Image.Delivers`: the blocks that a call looks at are valid. `Image.readData_delivers_iff`: the call
  fails exactly when one of them is not.
* `Image.read_data_returns_slice`: a call inside a file returns the bytes from the offset on.
* `Image.end_of_file_is_zero`: a call at the end of a file, and the loops that read up to it.
* `Kernel.file_read_moves_position`: what `file_read` does to the position.
-/

namespace DeviceOS
namespace Image

open Buffers (fill fill_nil fill_cons fill_of_le range_map_fill)

variable (img : Image)

/-! ## Machine words -/

/-- The locals that the loop of `read_data` changes, and the buffer. `read` is an `int32_t`; it is
compared with `length` as a `uint32_t`. -/
structure ReadLocals where
  offset : BitVec 32
  read : BitVec 32
  slot : BitVec 32
  blockOffset : BitVec 32
  data : BitVec 32
  buf : Nat → UInt8

/-- The move to the next data block; `none` is the return of -1. -/
def ReadLocals.nextBlock (ino : Inode) (s : ReadLocals) : Except Fault (Option ReadLocals) :=
  if s.blockOffset = 4096 then
    let slot := s.slot + 1
    if numBlockSlots ≤ slot.toNat then .error .dataBlockNum
    else if img.validBlock (ino.dataBlockNum slot.toNat) then
      .ok (some { s with slot := slot, data := ino.dataBlockNum slot.toNat, blockOffset := 0 })
    else .ok none
  else .ok (some s)

/-- The store of one byte. -/
def ReadLocals.store (s : ReadLocals) : ReadLocals :=
  { s with
    buf := Function.update s.buf s.read.toNat (img.dataBlocks s.data.toNat s.blockOffset.toNat)
    blockOffset := s.blockOffset + 1
    read := s.read + 1
    offset := s.offset + 1 }

/-- The loop, with at most `n` tests of its condition. -/
def readWordsLoop (ino : Inode) (length : BitVec 32) :
    Nat → ReadLocals → Except Fault (BitVec 32 × (Nat → UInt8))
  | 0, _ => .error .noProgress
  | n + 1, s =>
    if s.offset.toNat < ino.length.toNat ∧ s.read.toNat < length.toNat then
      (s.nextBlock img ino).bind fun
        | none => .ok (-1, s.buf)
        | some s1 => readWordsLoop ino length n (s1.store img)
    else .ok (s.read, s.buf)

/-- `read_data` with a buffer that is not NULL: what it returns, and the buffer. -/
def readDataWords (inode offset : BitVec 32) (buf : Nat → UInt8) (length : BitVec 32) :
    Except Fault (BitVec 32 × (Nat → UInt8)) :=
  if img.inodeCount.toNat ≤ inode.toNat then .ok (-1, buf)
  else
    let ino := img.inodes inode.toNat
    let slot := offset / 4096
    if numBlockSlots ≤ slot.toNat then .ok (0, buf)
    else if img.validBlock (ino.dataBlockNum slot.toNat) then
      img.readWordsLoop ino length (length.toNat + 1)
        ⟨offset, 0, slot, offset % 4096, ino.dataBlockNum slot.toNat, buf⟩
    else .ok (-1, buf)

/-- The result of `readData` as the word and the buffer. -/
def DataRead.words (buf : Nat → UInt8) (start : Nat) (r : DataRead) : BitVec 32 × (Nat → UInt8) :=
  (BitVec.ofInt 32 r.ret, fill buf start r.bytes)

theorem map_words_store (buf : Nat → UInt8) (start : Nat) (b : UInt8) (x : Except Fault DataRead) :
    (x.map (DataRead.store b)).map (DataRead.words buf start) =
      x.map (DataRead.words (Function.update buf start b) (start + 1)) := by
  cases x with
  | error f => rfl
  | ok r => simp [Except.map, DataRead.words, DataRead.store, fill_cons]

variable {img}

theorem map_eq_ok {α β : Type} {f : α → β} {x : Except Fault α} {b : β} (h : x.map f = .ok b) :
    ∃ a, x = .ok a ∧ f a = b := by
  cases x with
  | error e => cases h
  | ok a =>
    cases h
    exact ⟨a, rfl, rfl⟩

theorem toNat_succ {x : BitVec 32} {n : Nat} (h : x.toNat < n) (hn : n < 2 ^ 32) :
    (x + 1).toNat = x.toNat + 1 := by
  rw [BitVec.toNat_add]
  exact Nat.mod_eq_of_lt (by simp; omega)

theorem readWordsLoop_eq (ino : Inode) (length : BitVec 32) :
    ∀ (n fuel : Nat) (s : ReadLocals), n < fuel → s.read.toNat + n = length.toNat →
      s.slot.toNat < numBlockSlots → s.blockOffset.toNat ≤ blockByteSize →
      img.readWordsLoop ino length fuel s =
        (img.readLoop ino n s.offset.toNat s.read.toNat s.slot.toNat s.blockOffset.toNat
          s.data.toNat).map (DataRead.words s.buf s.read.toNat) := by
  intro n
  induction n with
  | zero =>
    intro fuel s hf hr _ _
    cases fuel with
    | zero => omega
    | succ fuel =>
      unfold readWordsLoop readLoop
      rw [if_neg (by omega)]
      simp [Except.map, DataRead.words, fill_nil]
  | succ n ih =>
    intro fuel s hf hr hs hb
    cases fuel with
    | zero => omega
    | succ fuel =>
      have hread : (s.read + 1).toNat = s.read.toNat + 1 :=
        toNat_succ (n := length.toNat) (by omega) length.isLt
      unfold readWordsLoop readLoop
      by_cases hlt : s.offset.toNat < ino.length.toNat
      · have hoff : (s.offset + 1).toNat = s.offset.toNat + 1 := toNat_succ hlt ino.length.isLt
        have hslot : (s.slot + 1).toNat = s.slot.toNat + 1 := toNat_succ hs (by decide)
        rw [if_pos ⟨hlt, by omega⟩, if_pos hlt]
        by_cases hbo : s.blockOffset = 4096
        · have hbn : s.blockOffset.toNat = blockByteSize := by rw [hbo]; rfl
          rw [if_pos hbn]
          simp only [ReadLocals.nextBlock, if_pos hbo, hslot]
          by_cases hmax : numBlockSlots ≤ s.slot.toNat + 1
          · rw [if_pos hmax, if_pos hmax]
            rfl
          · rw [if_neg hmax, if_neg hmax]
            by_cases hv : img.validBlock (ino.dataBlockNum (s.slot.toNat + 1)) = true
            · rw [if_pos hv, if_pos hv]
              simp only [Except.bind]
              rw [ih fuel _ (by omega) (by simp only [ReadLocals.store, hread]; omega)
                (by simp only [ReadLocals.store, hslot]; omega)
                (by simp [ReadLocals.store, blockByteSize])]
              simp only [ReadLocals.store, hread, hoff, hslot]
              rw [map_words_store]
              rfl
            · rw [if_neg hv, if_neg hv]
              simp [Except.bind, Except.map, DataRead.words, fill_nil]
        · have hbn : s.blockOffset.toNat ≠ blockByteSize := by
            intro h
            exact hbo (BitVec.eq_of_toNat_eq h)
          have hbs : (s.blockOffset + 1).toNat = s.blockOffset.toNat + 1 :=
            toNat_succ (n := blockByteSize) (by omega) (by decide)
          simp only [ReadLocals.nextBlock, if_neg hbo, if_neg hbn, Except.bind]
          rw [ih fuel (s.store img) (by omega) (by simp only [ReadLocals.store, hread]; omega) hs
            (by simp only [ReadLocals.store, hbs]; omega)]
          simp only [ReadLocals.store, hread, hoff, hbs]
          rw [map_words_store]
      · rw [if_neg (fun h => hlt h.1), if_neg hlt]
        simp [Except.map, DataRead.words, fill_nil]

/-- The words do not overflow: the call is `readData` on their values. -/
theorem readDataWords_eq (inode offset : BitVec 32) (buf : Nat → UInt8) (length : BitVec 32) :
    img.readDataWords inode offset buf length =
      (img.readData inode.toNat offset.toNat length.toNat).map (DataRead.words buf 0) := by
  have hdiv : (offset / 4096).toNat = offset.toNat / blockByteSize := rfl
  have hmod : (offset % 4096).toNat = offset.toNat % blockByteSize := rfl
  unfold readDataWords readData
  dsimp only
  rw [hdiv]
  split
  · simp [Except.map, DataRead.words, fill_nil]
  · split
    · simp [Except.map, DataRead.words, fill_nil]
    · split
      · rw [readWordsLoop_eq (n := length.toNat)]
        · rfl
        · omega
        · simp
        · show (offset / 4096).toNat < numBlockSlots
          omega
        · show (offset % 4096).toNat ≤ blockByteSize
          rw [hmod]
          exact (Nat.mod_lt _ (by decide)).le
      · simp [Except.map, DataRead.words, fill_nil]

/-! ## The blocks of a call -/

variable (img)

/-- The file fits into the block slots, and its blocks exist. Nothing is said about other slots. -/
structure HoldsFile (ino : Inode) : Prop where
  length_nonneg : 0 ≤ ino.length.toInt
  length_le : ino.length.toInt ≤ 1023 * 4096
  valid : ∀ s < (ino.length.toNat + 4095) / 4096, img.validBlock (ino.dataBlockNum s) = true

/-- The data blocks of a file, one after the other. -/
def blocksOf (ino : Inode) : List UInt8 :=
  (List.range ((ino.length.toNat + 4095) / 4096)).flatMap fun s =>
    (List.range blockByteSize).map (img.dataBlocks (ino.dataBlockNum s).toNat)

/-- The slot of the offset holds a valid block, or the offset is past the last slot. -/
def SlotReadable (ino : Inode) (offset : Nat) : Prop :=
  numBlockSlots ≤ offset / blockByteSize ∨
    img.validBlock (ino.dataBlockNum (offset / blockByteSize)) = true

/-- Every block number that `read_data` looks at is valid. -/
def Delivers (ino : Inode) (offset n : Nat) : Prop :=
  img.SlotReadable ino offset ∧ (offset / blockByteSize < numBlockSlots → img.Readable ino offset n)

variable {img}

theorem HoldsFile.toNat_le {ino : Inode} (h : img.HoldsFile ino) :
    ino.length.toNat ≤ 1023 * 4096 := by
  have h0 := h.length_nonneg
  have h1 := h.length_le
  have hbound := ino.length.isLt
  rw [BitVec.toInt_eq_toNat_cond] at h0 h1
  split at h0 <;> omega

/-- The slots before the end of the file. -/
theorem HoldsFile.slot {ino : Inode} (h : img.HoldsFile ino) {s : Nat}
    (hs : s * blockByteSize < ino.length.toNat) :
    s < numBlockSlots ∧ img.validBlock (ino.dataBlockNum s) = true := by
  have hle := h.toNat_le
  simp only [blockByteSize] at hs
  constructor
  · simp only [numBlockSlots]
    omega
  · apply h.valid
    omega

theorem HoldsFile.readable {ino : Inode} (h : img.HoldsFile ino) (offset n : Nat) :
    img.Readable ino offset n := by
  intro s _ hs
  exact h.slot (by omega)

theorem HoldsFile.slotReadable {ino : Inode} (h : img.HoldsFile ino) {offset : Nat}
    (ho : offset < ino.length.toNat) : img.SlotReadable ino offset := by
  have hdiv := Nat.div_mul_le_self offset blockByteSize
  exact Or.inr (h.slot (by omega)).2

theorem blocks_eq_slice (ino : Inode) : ∀ n : Nat,
    ((List.range n).flatMap fun s =>
      (List.range blockByteSize).map (img.dataBlocks (ino.dataBlockNum s).toNat)) =
        img.slice ino 0 (n * blockByteSize) := by
  intro n
  induction n with
  | zero => simp
  | succ n ih =>
    have hblock : (List.range blockByteSize).map (img.dataBlocks (ino.dataBlockNum n).toNat) =
        img.slice ino (n * blockByteSize) blockByteSize := by
      unfold slice
      rw [List.range'_eq_map_range, List.map_map]
      apply List.map_congr_left
      intro j hj
      rw [List.mem_range] at hj
      simp only [Function.comp, byteAt]
      rw [Nat.add_comm, Nat.add_mul_div_right _ _ (by decide), Nat.div_eq_of_lt hj,
        Nat.add_mul_mod_self_right, Nat.mod_eq_of_lt hj, Nat.zero_add]
    rw [List.range_succ, List.flatMap_append, ih]
    simp only [List.flatMap_cons, List.flatMap_nil, List.append_nil]
    rw [hblock, Nat.add_mul, Nat.one_mul, ← slice_append, Nat.zero_add]

/-- A slice of a file is a part of its blocks. -/
theorem slice_eq_blocks (ino : Inode) {offset n : Nat} (h : offset + n ≤ ino.length.toNat) :
    img.slice ino offset n = ((img.blocksOf ino).drop offset).take n := by
  have hlen : offset + n ≤ (ino.length.toNat + 4095) / 4096 * blockByteSize := by
    simp only [blockByteSize]
    omega
  unfold blocksOf
  rw [blocks_eq_slice]
  obtain ⟨k, hk⟩ := Nat.exists_eq_add_of_le hlen
  rw [hk, ← slice_append, ← slice_append]
  simp

/-- A call that finds all its blocks valid. -/
theorem readData_delivers {inode offset n : Nat} (hi : inode < img.inodeCount.toNat)
    (h : img.Delivers (img.inodes inode) offset n) :
    img.readData inode offset n = .ok ⟨0, []⟩ ∨
      img.readData inode offset n =
        .ok ⟨(min n ((img.inodes inode).length.toNat - offset) : Nat),
          img.slice (img.inodes inode) offset
            (min n ((img.inodes inode).length.toNat - offset))⟩ := by
  by_cases hs : offset / blockByteSize < numBlockSlots
  · right
    have hv : img.validBlock ((img.inodes inode).dataBlockNum (offset / blockByteSize)) = true := by
      rcases h.1 with hfar | hv
      · omega
      · exact hv
    exact readData_eq hi hs hv (h.2 hs)
  · left
    simp only [readData]
    rw [if_neg (by omega), if_pos (by omega)]

/-- A loop that does not fail has found its blocks valid. -/
theorem readLoop_readable {ino : Inode} : ∀ {n offset read slot bo data : Nat} {r : DataRead},
    offset = slot * blockByteSize + bo → bo ≤ blockByteSize →
    img.readLoop ino n offset read slot bo data = .ok r → r.ret ≠ -1 →
      (bo = blockByteSize → n ≠ 0 → offset < ino.length.toNat →
        slot + 1 < numBlockSlots ∧ img.validBlock (ino.dataBlockNum (slot + 1)) = true) ∧
      img.Readable ino offset n := by
  intro n
  induction n with
  | zero =>
    intro offset read slot bo data r _ _ _ _
    exact ⟨fun _ h => absurd rfl h, fun s h1 h2 => by omega⟩
  | succ n ih =>
    intro offset read slot bo data r ho hbo h hr
    unfold readLoop at h
    split at h
    · rename_i hlt
      split at h
      · rename_i hb
        split at h
        · cases h
        · rename_i hmax
          split at h
          · rename_i hv
            obtain ⟨r1, h1, rfl⟩ := map_eq_ok h
            have hoff : offset + 1 = (slot + 1) * blockByteSize + 1 := by
              rw [ho, hb, Nat.add_mul, Nat.one_mul]
            obtain ⟨_, hread⟩ := ih hoff (by decide) h1 hr
            refine ⟨fun _ _ _ => ⟨by omega, hv⟩, fun s hs1 hs2 => ?_⟩
            simp only [blockByteSize] at *
            exact hread s (by simp only [blockByteSize]; omega) (by simp only [blockByteSize]; omega)
          · cases h
            exact absurd rfl hr
      · rename_i hb
        obtain ⟨r1, h1, rfl⟩ := map_eq_ok h
        obtain ⟨hnext, hread⟩ := ih (by omega) (by omega) h1 hr
        refine ⟨fun hb' => absurd hb' hb, fun s hs1 hs2 => ?_⟩
        by_cases hedge : s * blockByteSize = offset + 1
        · -- the next byte is the first one of block `s`
          have hslot : bo + 1 = blockByteSize ∧ s = slot + 1 := by
            simp only [blockByteSize] at *
            omega
          obtain ⟨hb1, rfl⟩ := hslot
          exact hnext hb1 (by omega) (by omega)
        · exact hread s (by omega) (by omega)
    · rename_i hge
      exact ⟨fun _ _ hlt => absurd hlt hge, fun s hs1 hs2 => by omega⟩

/-- A call fails exactly when its inode or one of its blocks is not valid. -/
theorem readData_delivers_iff {inode offset n : Nat} {r : DataRead}
    (h : img.readData inode offset n = .ok r) :
    r.ret ≠ -1 ↔ inode < img.inodeCount.toNat ∧ img.Delivers (img.inodes inode) offset n := by
  constructor
  · intro hr
    unfold readData at h
    split at h
    · cases h
      exact absurd rfl hr
    · rename_i hi
      dsimp only at h
      split at h
      · rename_i hs
        exact ⟨by omega, Or.inl hs, fun hlt => by omega⟩
      · split at h
        · rename_i hv
          have hoff : offset = offset / blockByteSize * blockByteSize + offset % blockByteSize := by
            rw [Nat.mul_comm]
            exact (Nat.div_add_mod _ _).symm
          have hmod : offset % blockByteSize < blockByteSize := Nat.mod_lt _ (by decide)
          exact ⟨by omega, Or.inr hv, fun _ => (readLoop_readable hoff hmod.le h hr).2⟩
        · cases h
          exact absurd rfl hr
  · rintro ⟨hi, hd⟩
    rcases readData_delivers hi hd with heq | heq
    · rw [heq] at h
      cases h
      simp
    · rw [heq] at h
      cases h
      simp only
      omega

/-! ## Reading inside a file -/

theorem words_natCast (buf : Nat → UInt8) (n : Nat) (bytes : List UInt8) :
    DataRead.words buf 0 ⟨(n : Nat), bytes⟩ = (BitVec.ofNat 32 n, fill buf 0 bytes) := by
  simp [DataRead.words]

/-- A call inside a file. -/
theorem readData_inside {img : Image} {inode offset : Nat} (n : Nat)
    (hi : inode < img.inodeCount.toNat) (hf : img.HoldsFile (img.inodes inode))
    (ho : offset < (img.inodes inode).length.toNat) :
    img.readData inode offset n =
      .ok ⟨(min n ((img.inodes inode).length.toNat - offset) : Nat),
        img.slice (img.inodes inode) offset
          (min n ((img.inodes inode).length.toNat - offset))⟩ := by
  have hslot : offset / blockByteSize < numBlockSlots := by
    have := hf.toNat_le
    simp only [blockByteSize, numBlockSlots]
    omega
  rcases hf.slotReadable ho with hfar | hv
  · omega
  · exact readData_eq hi hslot hv (hf.readable _ _)

/-- From any offset inside a file, `read_data` returns the number of bytes up to the end of the file
or the length asked for, and stores exactly these bytes. -/
theorem read_data_returns_slice (img : Image) (inode offset length : BitVec 32)
    (buf : Nat → UInt8) (hi : inode.toNat < img.inodeCount.toNat)
    (hf : img.HoldsFile (img.inodes inode.toNat))
    (ho : offset.toNat < (img.inodes inode.toNat).length.toNat) :
    ∃ n buf', n = min length.toNat ((img.inodes inode.toNat).length.toNat - offset.toNat) ∧
      img.readDataWords inode offset buf length = .ok (BitVec.ofNat 32 n, buf') ∧
      (List.range n).map buf' =
        ((img.blocksOf (img.inodes inode.toNat)).drop offset.toNat).take n ∧
      ∀ i, n ≤ i → buf' i = buf i := by
  let n := min length.toNat ((img.inodes inode.toNat).length.toNat - offset.toNat)
  let bytes := img.slice (img.inodes inode.toNat) offset.toNat n
  have hlen : bytes.length = n := slice_length ..
  refine ⟨n, fill buf 0 bytes, rfl, ?_, ?_, ?_⟩
  · rw [readDataWords_eq, readData_inside _ hi hf ho]
    exact congrArg Except.ok (words_natCast ..)
  · rw [← slice_eq_blocks _ (by omega)]
    have hall := range_map_fill buf bytes
    rwa [hlen] at hall
  · intro i hni
    exact fill_of_le (hlen.trans_le hni)

/-- One file of 5000 bytes in two blocks. No other block number is valid. -/
def twoBlocks : Image where
  dirCount := 0
  inodeCount := 1
  dataCount := 2
  direntries _ := ⟨fun _ => 0, 0, 0⟩
  inodes _ := ⟨5000, fun s => s⟩
  dataBlocks s _ := if s = 0 then 1 else 2

theorem twoBlocks_holdsFile (i : Nat) : twoBlocks.HoldsFile (twoBlocks.inodes i) where
  length_nonneg := by
    simp only [twoBlocks]
    decide
  length_le := by
    simp only [twoBlocks]
    decide
  valid := by
    intro s hs
    have hlt : s < 2 := by
      simpa [twoBlocks] using hs
    match s with
    | 0 => rfl
    | 1 => rfl

/-- Ten bytes from 4090 on, across the boundary of the two blocks. -/
theorem read_data_returns_slice_across : ∃ buf',
    twoBlocks.readDataWords 0 4090 (fun _ => 7) 10 = .ok (10, buf') ∧
      (List.range 10).map buf' = [1, 1, 1, 1, 1, 1, 2, 2, 2, 2] ∧ buf' 10 = 7 := by
  obtain ⟨n, buf', hn, hread, hbytes, hrest⟩ := read_data_returns_slice twoBlocks 0 4090 10
    (fun _ => 7) (by decide) (twoBlocks_holdsFile _) (by decide)
  have hten : n = 10 := hn
  subst hten
  refine ⟨buf', hread, ?_, hrest 10 (le_refl _)⟩
  rw [hbytes, ← slice_eq_blocks _ (by decide)]
  rfl

/-! ## The end of a file -/

/-- A call at or behind the end of the file: it looks at the slot of the offset before it compares
the offset with the length. -/
theorem readData_atEnd {img : Image} {inode offset : Nat} (n : Nat)
    (hi : inode < img.inodeCount.toNat) (ho : (img.inodes inode).length.toNat ≤ offset) :
    (img.SlotReadable (img.inodes inode) offset → img.readData inode offset n = .ok ⟨0, []⟩) ∧
      (¬ img.SlotReadable (img.inodes inode) offset →
        img.readData inode offset n = .ok ⟨-1, []⟩) := by
  constructor
  · intro hs
    have hread : img.Readable (img.inodes inode) offset n := fun s h1 h2 => by omega
    rcases readData_delivers hi ⟨hs, fun _ => hread⟩ with heq | heq
    · exact heq
    · rw [heq, Nat.sub_eq_zero_of_le ho]
      simp
  · intro hs
    unfold SlotReadable at hs
    exact readData_invalid (by omega) (by simpa using fun hv => hs (Or.inr hv))

/-- The loop of `cat` (where `n` is 1024): it reads until the result is 0 or -1, at most as many
times as the second argument says. -/
def readUntilEnd (img : Image) (inode n : Nat) : Nat → Nat → Except Fault Int
  | 0, _ => .error .noProgress
  | m + 1, offset =>
    (img.readData inode offset n).bind fun r =>
      if r.ret = 0 ∨ r.ret = -1 then .ok r.ret
      else readUntilEnd img inode n m (offset + r.ret.toNat)

/-- Where the loop ends: at the end of the file, with the result there. -/
theorem readUntilEnd_iff {img : Image} {inode n : Nat} (hi : inode < img.inodeCount.toNat)
    (hf : img.HoldsFile (img.inodes inode)) (hn : 0 < n) :
    ∀ {m offset : Nat}, offset ≤ (img.inodes inode).length.toNat →
      (img.inodes inode).length.toNat - offset < m →
      (img.readUntilEnd inode n m offset = .ok 0 ↔
        img.SlotReadable (img.inodes inode) (img.inodes inode).length.toNat) := by
  intro m
  induction m with
  | zero =>
    intro offset _ hm
    omega
  | succ m ih =>
    intro offset ho hm
    unfold readUntilEnd
    by_cases hend : offset = (img.inodes inode).length.toNat
    · subst hend
      obtain ⟨hgood, hbad⟩ := readData_atEnd n hi (le_refl (img.inodes inode).length.toNat)
      by_cases hs : img.SlotReadable (img.inodes inode) (img.inodes inode).length.toNat
      · simp [hgood hs, hs, Except.bind]
      · simp [hbad hs, hs, Except.bind]
    · have hlt : offset < (img.inodes inode).length.toNat := by omega
      rw [readData_inside n hi hf hlt]
      simp only [Except.bind]
      rw [if_neg (by omega), Int.toNat_natCast]
      exact ih (by omega) (by omega)

/-- The loader of a program that fits into the page gets to the end of its file. -/
theorem copyProgramImage_iff {img : Image} {inode : Nat} {p : Proc}
    (hi : inode < img.inodeCount.toNat) (hf : img.HoldsFile (img.inodes inode))
    (hp : p.pageDirectory32.p = true) (hroom : (img.inodes inode).length.toNat ≤ imageRoom) :
    (∃ p', p.copyProgramImage img inode = .ok (0, p')) ↔
      img.SlotReadable (img.inodes inode) (img.inodes inode).length.toNat := by
  obtain ⟨p', _, heq⟩ := Proc.copyProgramImage_eq hi hp
  rw [if_pos hroom] at heq
  have hdiv := Nat.div_mul_le_self (img.inodes inode).length.toNat blockByteSize
  have hlast : (img.inodes inode).length.toNat / blockByteSize ≤ 952 := by
    simp only [imageRoom, blockByteSize] at hroom ⊢
    omega
  constructor
  · rintro ⟨p1, h1⟩
    right
    by_contra hv
    have hbad : img.badBlock (img.inodes inode) = true :=
      Image.badBlock_iff.mpr ⟨_, hdiv, hlast, by simpa using hv⟩
    rw [if_pos hbad, h1] at heq
    cases heq
  · intro hs
    refine ⟨p', ?_⟩
    rw [heq, if_neg]
    intro hbad
    obtain ⟨k, hk, _, hv⟩ := Image.badBlock_iff.mp hbad
    rcases Nat.lt_or_eq_of_le hk with hlt | hkend
    · rw [(hf.slot hlt).2] at hv
      cases hv
    · unfold SlotReadable at hs
      rw [← hkend, Nat.mul_div_cancel _ (by decide), hv] at hs
      simp only [numBlockSlots, Bool.false_eq_true, or_false] at hs
      omega

/-- At the end of a file `read_data` returns 0, and the loops that read up to it end, exactly when
the slot there happens to hold a valid block number. -/
theorem end_of_file_is_zero (img : Image) (inode : BitVec 32)
    (hi : inode.toNat < img.inodeCount.toNat) (hf : img.HoldsFile (img.inodes inode.toNat)) :
    (∀ (offset length : BitVec 32) (buf : Nat → UInt8),
      (img.inodes inode.toNat).length.toNat ≤ offset.toNat →
        (img.readDataWords inode offset buf length = .ok (0, buf) ↔
          img.SlotReadable (img.inodes inode.toNat) offset.toNat)) ∧
    (∀ n, 0 < n → (img.readUntilEnd inode.toNat n ((img.inodes inode.toNat).length.toNat + 1) 0 =
        .ok 0 ↔
      img.SlotReadable (img.inodes inode.toNat) (img.inodes inode.toNat).length.toNat)) ∧
    ∀ p : Proc, p.pageDirectory32.p = true → (img.inodes inode.toNat).length.toNat ≤ imageRoom →
      ((∃ p', p.copyProgramImage img inode.toNat = .ok (0, p')) ↔
        img.SlotReadable (img.inodes inode.toNat) (img.inodes inode.toNat).length.toNat) := by
  refine ⟨fun offset length buf ho => ?_, fun n hn => ?_, fun p hp hroom => ?_⟩
  · obtain ⟨hgood, hbad⟩ := readData_atEnd length.toNat hi ho
    rw [readDataWords_eq]
    by_cases hs : img.SlotReadable (img.inodes inode.toNat) offset.toNat
    · simp [hgood hs, hs, Except.map, DataRead.words, fill_nil]
    · rw [hbad hs]
      simp [hs, Except.map, DataRead.words]
  · exact readUntilEnd_iff hi hf hn (Nat.zero_le _) (by omega)
  · exact copyProgramImage_iff hi hf hp hroom

/-- The file of two blocks ends inside its second one. -/
theorem end_of_file_is_zero_inside :
    twoBlocks.readDataWords 0 6000 (fun _ => 7) 100 = .ok (0, fun _ => 7) :=
  ((end_of_file_is_zero twoBlocks 0 (by decide) (twoBlocks_holdsFile _)).1 6000 100 _
    (by decide)).mpr (Or.inr rfl)

/-- A file that fills one block, with no block number in the other slots. -/
def fullBlock : Image := { twoBlocks with inodes := fun _ => ⟨4096, fun s => if s = 0 then 0 else -1⟩ }

theorem fullBlock_holdsFile (i : Nat) : fullBlock.HoldsFile (fullBlock.inodes i) where
  length_nonneg := by
    simp only [fullBlock]
    decide
  length_le := by
    simp only [fullBlock]
    decide
  valid := by
    intro s hs
    have hzero : s = 0 := by
      simpa [fullBlock] using hs
    subst hzero
    rfl

/-- At the end of the file that fills one block `read_data` looks at slot 1 and fails. -/
theorem end_of_full_block_fails :
    ¬ ∀ (img : Image) (inode offset length : BitVec 32) (buf : Nat → UInt8),
      inode.toNat < img.inodeCount.toNat → img.HoldsFile (img.inodes inode.toNat) →
      (img.inodes inode.toNat).length.toNat ≤ offset.toNat →
        img.readDataWords inode offset buf length = .ok (0, buf) := by
  intro h
  have hread := h fullBlock 0 4096 64 (fun _ => 0) (by decide) (fullBlock_holdsFile _) (by decide)
  have hfail : fullBlock.readDataWords 0 4096 (fun _ => 0) 64 = .ok (-1, fun _ => 0) := rfl
  rw [hfail] at hread
  simp at hread

end Image

/-! ## The position of a descriptor -/

namespace Kernel

/-- The position moves by what is returned; nothing else of the entry changes, and nothing at all
when the call fails. -/
structure MovesBy (e e' : FdaEntry) (ret : Int) : Prop where
  moved : 0 ≤ ret → e' = { e with filePos := e.filePos + ret.toNat }
  failed : ret = -1 → e' = e

theorem fileRead_eq {img : Image} {k k' : Kernel} {q : Pid} {w : Fin 8} {nbytes : Nat} {r : Reply}
    (h : k.fileRead img q w nbytes = some (r, k')) :
    ∃ d, img.readData ((k.proc.pcb q).fdarray w).inodeNum ((k.proc.pcb q).fdarray w).filePos nbytes =
        .ok d ∧ r = ⟨d.ret, d.bytes⟩ ∧
      (k'.proc.pcb q).fdarray w = { (k.proc.pcb q).fdarray w with
        filePos := (((k.proc.pcb q).fdarray w).filePos + (d.ret % 2 ^ 32).toNat) % 2 ^ 32 } := by
  unfold fileRead at h
  dsimp only at h
  split at h
  · cases h
  · rename_i d hd
    cases h
    exact ⟨d, hd, rfl, by simp [setFd, Proc.setPcb]⟩

/-- `file_read` moves the position by what it returns exactly when `read_data` finds the inode and
the blocks valid: the result -1 moves it back by one. -/
theorem file_read_moves_position (img : Image) (k k' : Kernel) (q : Pid) (w : Fin 8) (nbytes : Nat)
    (r : Reply) (hpos : ((k.proc.pcb q).fdarray w).filePos < 2 ^ 32)
    (h : k.fileRead img q w nbytes = some (r, k')) :
    MovesBy ((k.proc.pcb q).fdarray w) ((k'.proc.pcb q).fdarray w) r.ret ↔
      ((k.proc.pcb q).fdarray w).inodeNum < img.inodeCount.toNat ∧
        img.Delivers (img.inodes ((k.proc.pcb q).fdarray w).inodeNum)
          ((k.proc.pcb q).fdarray w).filePos nbytes := by
  obtain ⟨d, hd, rfl, hk⟩ := fileRead_eq h
  rw [hk, ← Image.readData_delivers_iff hd]
  generalize (k.proc.pcb q).fdarray w = e at hd hpos ⊢
  have hback : (e.filePos + ((-1 : Int) % 2 ^ 32).toNat) % 2 ^ 32 ≠ e.filePos := by
    have : ((-1 : Int) % 2 ^ 32).toNat = 2 ^ 32 - 1 := rfl
    omega
  constructor
  · rintro ⟨_, hfailed⟩ hret
    have heq := congrArg FdaEntry.filePos (hfailed hret)
    rw [hret] at heq
    exact hback heq
  · intro hret
    obtain ⟨hi, hdel⟩ := (Image.readData_delivers_iff hd).mp hret
    have hlen := (img.inodes e.inodeNum).length.isLt
    obtain ⟨n, hn, hfit⟩ : ∃ n : Nat, d.ret = n ∧ e.filePos + n < 2 ^ 32 := by
      rcases Image.readData_delivers hi hdel with heq | heq
      · rw [heq] at hd
        cases hd
        exact ⟨0, rfl, hpos⟩
      · rw [heq] at hd
        cases hd
        refine ⟨_, rfl, ?_⟩
        omega
    refine ⟨fun _ => ?_, fun hfail => absurd hfail hret⟩
    have hmod : ((n : Int) % 2 ^ 32).toNat = n := by omega
    simp only [hn, hmod, Int.toNat_natCast, Nat.mod_eq_of_lt hfit]

/-- The kernel with descriptor `w` of process `q` open on inode 0, at `pos`. -/
def openAt (q : Pid) (w : Fin 8) (pos : Nat) : Kernel :=
  Machine.booted.kern.setFd q w ⟨some .file, 0, pos, true⟩

/-- A read of the file of two blocks, from its last byte on. -/
theorem file_read_moves_position_last : ∃ r k',
    (openAt 0 2 4999).fileRead Image.twoBlocks 0 2 10 = some (r, k') ∧ r.ret = 1 ∧
      MovesBy (((openAt 0 2 4999).proc.pcb 0).fdarray 2) ((k'.proc.pcb 0).fdarray 2) r.ret := by
  refine ⟨_, _, rfl, rfl, ?_⟩
  refine (file_read_moves_position Image.twoBlocks (openAt 0 2 4999) _ 0 2 10 _ (by decide) rfl).mpr ?_
  refine ⟨by decide, Or.inr rfl, fun _ s h1 h2 => ?_⟩
  have h3 : s * 4096 < 5000 := lt_of_lt_of_le h2 (Nat.min_le_right _ _)
  have h4 : 4999 < s * 4096 := h1
  omega

/-- At the end of the file that fills one block the position goes back by one. -/
theorem file_read_steps_back :
    ¬ ∀ (img : Image) (k k' : Kernel) (q : Pid) (w : Fin 8) (nbytes : Nat) (r : Reply),
      ((k.proc.pcb q).fdarray w).filePos < 2 ^ 32 → k.fileRead img q w nbytes = some (r, k') →
        MovesBy ((k.proc.pcb q).fdarray w) ((k'.proc.pcb q).fdarray w) r.ret := by
  intro h
  have hmoves := h Image.fullBlock (openAt 0 2 4096) _ 0 2 10 _ (by decide) rfl
  have hpos := congrArg FdaEntry.filePos (hmoves.failed rfl)
  have hback : (4095 : Nat) = 4096 := hpos
  exact absurd hback (by decide)

end Kernel
end DeviceOS
