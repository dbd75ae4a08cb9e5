import DeviceOS.Directory
import DeviceOS.Lib.AccessLog

/-!
# DeviceOS.FileAccesses

The accesses of the file system to its tables, for an image with any content.

The counts of the boot block are `int32_t`. `read_dentry_by_index` and `read_data` compare them with
a `uint32_t`, so a negative count passes for a large one; `read_dentry_by_name` compares them with
an `int32_t`.

* `readDentryByNameLogged`, `readDentryByIndexLogged`, `readDataLogged`: the three functions with
  the accesses that they make. `_result`: apart from the log they are the ones of `FileSystem`.
* `InTables`: the accesses that the tables allow.
* `readLoopLogged_within_iff`: the loop of `read_data` leaves `data_block_num` exactly when it gets
  past the last slot.
* `Bounded`, `accesses_in_tables_iff`: the calls that stay inside the tables.
-/

namespace DeviceOS

open AccessLog (Logged)
open AccessLog.Logged

/-- An access to `direntries[i]`, to `inode_ptr[n]`, to `data_block_num[slot]` of inode `n`, or to
byte `i` of the data block with the number `b`. -/
inductive Access where
  | direntry (i : Nat)
  | inode (n : Nat)
  | blockNum (n slot : Nat)
  | byte (b : BitVec 32) (i : Nat)
  deriving DecidableEq

/-- A call of one of the three functions; `none` is a NULL pointer. -/
inductive FileCall where
  | byName (fname : Option CString)
  | byIndex (index : BitVec 32)
  | data (inode offset : BitVec 32) (buf : Option (Nat → UInt8)) (length : BitVec 32)

namespace Image

variable (img : Image)

def InTables : Access → Prop
  | .direntry i => i < numDirentries
  | .inode n => (n : Int) < img.inodeCount.toInt
  | .blockNum n slot => (n : Int) < img.inodeCount.toInt ∧ slot < numBlockSlots
  | .byte b i => (0 ≤ b.toInt ∧ b.toInt < img.dataCount.toInt) ∧ i < blockByteSize

/-! ## The functions with their accesses

A log ends at the first access outside of `direntries` or `data_block_num`; what follows it is
undefined. -/

def findDentryLogged (fname : CString) :
    Nat → Nat → Logged Access (Except Fault (Option Dentry))
  | 0, _ => done (.ok none)
  | n + 1, i =>
    access (.direntry i) <|
      if numDirentries ≤ i then done (.error .direntries)
      else if nameMatches fname (img.direntries i).filename filenameLen 0 then
        -- `*dentry = *entry`
        access (.direntry i) (done (.ok (some (img.direntries i))))
      else findDentryLogged fname n (i + 1)

/-- `none` is a NULL pointer. -/
def readDentryByNameLogged : Option CString → Logged Access (Except Fault (Option Dentry))
  | none => done (.ok none)
  | some fname =>
    if fname.strlen > filenameLen then done (.ok none)
    else img.findDentryLogged fname img.dirCount.toInt.toNat 0

def readDentryByIndexLogged (index : BitVec 32) : Logged Access (Except Fault (Option Dentry)) :=
  if img.dirCount.toNat ≤ index.toNat then done (.ok none)
  else
    access (.direntry index.toNat) <|
      if numDirentries ≤ index.toNat then done (.error .direntries)
      else done (.ok (some (img.direntries index.toNat)))

def readLoopLogged (inode : Nat) : (n offset read slot blockOffset : Nat) → (data : BitVec 32) →
    Logged Access (Except Fault DataRead)
  | 0, _, read, _, _, _ => done (.ok ⟨read, []⟩)
  | n + 1, offset, read, slot, blockOffset, data =>
    let ino := img.inodes inode
    if offset < ino.length.toNat then
      if blockOffset = blockByteSize then
        access (.blockNum inode (slot + 1)) <|
          if numBlockSlots ≤ slot + 1 then done (.error .dataBlockNum)
          else
            let b := ino.dataBlockNum (slot + 1)
            if img.validBlock b then
              access (.byte b 0) <|
                (readLoopLogged inode n (offset + 1) (read + 1) (slot + 1) 1 b).map
                  (Except.map (DataRead.store (img.dataBlocks b.toNat 0)))
            else done (.ok ⟨-1, []⟩)
      else
        access (.byte data blockOffset) <|
          (readLoopLogged inode n (offset + 1) (read + 1) slot (blockOffset + 1) data).map
            (Except.map (DataRead.store (img.dataBlocks data.toNat blockOffset)))
    else done (.ok ⟨read, []⟩)

def readDataLogged (inode offset : BitVec 32) (buf : Option (Nat → UInt8)) (length : BitVec 32) :
    Logged Access (Except Fault DataRead) :=
  if img.inodeCount.toNat ≤ inode.toNat then done (.ok ⟨-1, []⟩)
  else if buf.isNone then done (.ok ⟨-1, []⟩)
  else
    -- `curr_inode->length` is read before the offset is checked
    access (.inode inode.toNat) <|
      let slot := offset.toNat / blockByteSize
      if numBlockSlots ≤ slot then done (.ok ⟨0, []⟩)
      else
        access (.blockNum inode.toNat slot) <|
          let b := (img.inodes inode.toNat).dataBlockNum slot
          if img.validBlock b then
            img.readLoopLogged inode.toNat length.toNat offset.toNat 0 slot
              (offset.toNat % blockByteSize) b
          else done (.ok ⟨-1, []⟩)

variable {img}

theorem findDentryLogged_result (fname : CString) (n i : Nat) :
    (img.findDentryLogged fname n i).result = img.findDentry fname n i := by
  induction n generalizing i with
  | zero => rfl
  | succ n ih =>
    unfold findDentryLogged findDentry
    rw [result_access]
    split
    · rfl
    · split
      · rfl
      · exact ih (i + 1)

theorem readDentryByNameLogged_result (fname : CString) :
    (img.readDentryByNameLogged (some fname)).result = img.readDentryByName fname := by
  unfold readDentryByNameLogged readDentryByName
  dsimp only
  split
  · rfl
  · exact findDentryLogged_result fname _ _

theorem readDentryByIndexLogged_result (index : BitVec 32) :
    (img.readDentryByIndexLogged index).result = img.readDentryByIndex index.toNat := by
  unfold readDentryByIndexLogged readDentryByIndex
  split
  · rfl
  · rw [result_access]
    split
    · rfl
    · rfl

theorem readLoopLogged_result (inode n offset read slot blockOffset : Nat) (data : BitVec 32) :
    (img.readLoopLogged inode n offset read slot blockOffset data).result =
      img.readLoop (img.inodes inode) n offset read slot blockOffset data.toNat := by
  induction n generalizing offset read slot blockOffset data with
  | zero => rfl
  | succ n ih =>
    unfold readLoopLogged readLoop
    dsimp only
    split
    · split
      · rw [result_access]
        split
        · rfl
        · split
          · rw [result_access, result_map, ih]
          · rfl
      · rw [result_access, result_map, ih]
    · rfl

theorem readDataLogged_result (inode offset : BitVec 32) (buf : Nat → UInt8) (length : BitVec 32) :
    (img.readDataLogged inode offset (some buf) length).result =
      img.readData inode.toNat offset.toNat length.toNat := by
  unfold readDataLogged readData
  split
  · rfl
  · rw [if_neg (by simp), result_access]
    dsimp only
    split
    · rfl
    · rw [result_access]
      split
      · exact readLoopLogged_result ..
      · rfl

/-! ## Accesses inside the tables -/

theorem findDentryLogged_within_iff (fname : CString) (n i : Nat) (hi : i ≤ numDirentries) :
    (img.findDentryLogged fname n i).Within img.InTables ↔ i + n ≤ numDirentries ∨
      ∃ j, i ≤ j ∧ j < numDirentries ∧
        nameMatches fname (img.direntries j).filename filenameLen 0 = true := by
  induction n generalizing i with
  | zero => simpa [findDentryLogged] using Or.inl hi
  | succ n ih =>
    unfold findDentryLogged
    rw [within_access]
    by_cases hend : numDirentries ≤ i
    · rw [if_pos hend]
      constructor
      · rintro ⟨hin, -⟩
        exact absurd hin (by simp only [InTables]; omega)
      · rintro (hle | ⟨j, hij, hj, -⟩)
        · omega
        · omega
    · have hin : img.InTables (.direntry i) := by
        simp only [InTables]
        omega
      rw [if_neg hend]
      by_cases hm : nameMatches fname (img.direntries i).filename filenameLen 0 = true
      · rw [if_pos hm]
        simp only [within_access, within_done, hin, and_true, true_iff]
        exact Or.inr ⟨i, le_refl i, by omega, hm⟩
      · rw [if_neg hm, ih (i + 1) (by omega), and_iff_right hin]
        have hlen : i + 1 + n ≤ numDirentries ↔ i + (n + 1) ≤ numDirentries := by omega
        rw [hlen]
        -- entry `i` is not the one
        refine or_congr_right ⟨?_, ?_⟩
        · rintro ⟨j, hij, hj, hmatch⟩
          exact ⟨j, by omega, hj, hmatch⟩
        · rintro ⟨j, hij, hj, hmatch⟩
          rcases Nat.lt_or_eq_of_le hij with hlt | rfl
          · exact ⟨j, hlt, hj, hmatch⟩
          · exact absurd hmatch hm

variable (img)

/-- A read of `n` bytes from `offset` on gets past the last block of the inode: the length says that
there are more bytes, and every block on the way is valid. -/
def Overruns (ino : Inode) (offset n : Nat) : Prop :=
  numBlockSlots * blockByteSize < min (offset + n) ino.length.toNat ∧
    ∀ s, offset / blockByteSize ≤ s → s < numBlockSlots →
      img.validBlock (ino.dataBlockNum s) = true

variable {img}

theorem overruns_succ {ino : Inode} {offset n : Nat}
    (hv : img.validBlock (ino.dataBlockNum (offset / blockByteSize)) = true) :
    img.Overruns ino (offset + 1) n ↔ img.Overruns ino offset (n + 1) := by
  have hsum : offset + 1 + n = offset + (n + 1) := by omega
  unfold Overruns
  rw [hsum]
  refine and_congr_right fun _ => ⟨?_, ?_⟩
  · intro h s hs hmax
    by_cases hfirst : s = offset / blockByteSize
    · rw [hfirst]
      exact hv
    · refine h s ?_ hmax
      simp only [blockByteSize] at *
      omega
  · intro h s hs hmax
    exact h s (le_trans (Nat.div_le_div_right (Nat.le_succ offset)) hs) hmax

theorem validBlock_iff {b : BitVec 32} :
    img.validBlock b = true ↔ 0 ≤ b.toInt ∧ b.toInt < img.dataCount.toInt := by
  simp [validBlock]

theorem offset_le {slot blockOffset : Nat} (hs : slot < numBlockSlots)
    (hb : blockOffset ≤ blockByteSize) :
    slot * blockByteSize + blockOffset ≤ numBlockSlots * blockByteSize := by
  calc slot * blockByteSize + blockOffset
      ≤ slot * blockByteSize + blockByteSize := Nat.add_le_add_left hb _
    _ = (slot + 1) * blockByteSize := (Nat.succ_mul _ _).symm
    _ ≤ numBlockSlots * blockByteSize := Nat.mul_le_mul_right _ hs

/-- The loop, from a byte of the block in slot `slot`. -/
theorem readLoopLogged_within_iff {inode : Nat} (hi : (inode : Int) < img.inodeCount.toInt)
    (n offset read slot blockOffset : Nat) (ho : offset = slot * blockByteSize + blockOffset)
    (hb : blockOffset ≤ blockByteSize) (hs : slot < numBlockSlots)
    (hv : img.validBlock ((img.inodes inode).dataBlockNum slot) = true) :
    (img.readLoopLogged inode n offset read slot blockOffset
        ((img.inodes inode).dataBlockNum slot)).Within img.InTables ↔
      ¬ img.Overruns (img.inodes inode) offset n := by
  induction n generalizing offset read slot blockOffset with
  | zero =>
    have hle := offset_le hs hb
    have hno : ¬ img.Overruns (img.inodes inode) offset 0 := fun h => by
      have := h.1
      omega
    simpa [readLoopLogged] using hno
  | succ n ih =>
    have hle := offset_le hs hb
    unfold readLoopLogged
    dsimp only
    by_cases hlt : offset < (img.inodes inode).length.toNat
    · rw [if_pos hlt]
      by_cases hbo : blockOffset = blockByteSize
      · have hdiv : offset / blockByteSize = slot + 1 := by
          rw [ho, hbo, ← Nat.succ_mul, Nat.mul_div_cancel _ (by decide)]
        rw [if_pos hbo, within_access]
        by_cases hend : numBlockSlots ≤ slot + 1
        · -- the slot behind the last one
          have hover : img.Overruns (img.inodes inode) offset (n + 1) := by
            have hslot : slot + 1 = numBlockSlots := by omega
            have hoff : offset = numBlockSlots * blockByteSize := by
              rw [ho, hbo, ← hslot, Nat.succ_mul]
            exact ⟨by omega, fun s hs1 hs2 => by omega⟩
          rw [if_pos hend]
          constructor
          · rintro ⟨hin, -⟩
            exact absurd hin.2 (by omega)
          · intro hno
            exact absurd hover hno
        · have hin : img.InTables (.blockNum inode (slot + 1)) := ⟨hi, by omega⟩
          rw [if_neg hend, and_iff_right hin]
          by_cases hnext : img.validBlock ((img.inodes inode).dataBlockNum (slot + 1)) = true
          · have hbyte : img.InTables (.byte ((img.inodes inode).dataBlockNum (slot + 1)) 0) :=
              ⟨validBlock_iff.1 hnext, by decide⟩
            have hoff : offset + 1 = (slot + 1) * blockByteSize + 1 := by
              rw [ho, hbo, Nat.succ_mul]
            have hrest := ih (offset + 1) (read + 1) (slot + 1) 1 hoff (by decide) (by omega) hnext
            rw [if_pos hnext, within_access, within_map, and_iff_right hbyte, hrest]
            exact not_congr (overruns_succ (by rw [hdiv]; exact hnext))
          · have hno : ¬ img.Overruns (img.inodes inode) offset (n + 1) := fun h =>
              hnext (h.2 (slot + 1) (by omega) (by omega))
            rw [if_neg hnext]
            simpa using hno
      · have hdiv : offset / blockByteSize = slot := by
          simp only [blockByteSize] at *
          omega
        have hbyte : img.InTables (.byte ((img.inodes inode).dataBlockNum slot) blockOffset) :=
          ⟨validBlock_iff.1 hv, by omega⟩
        have hrest := ih (offset + 1) (read + 1) slot (blockOffset + 1) (by omega) (by omega) hs hv
        rw [if_neg hbo, within_access, within_map, and_iff_right hbyte, hrest]
        exact not_congr (overruns_succ (by rw [hdiv]; exact hv))
    · have hno : ¬ img.Overruns (img.inodes inode) offset (n + 1) := fun h => by
        have := h.1
        omega
      rw [if_neg hlt]
      simpa using hno

theorem byName_within_iff (fname : CString) :
    (img.readDentryByNameLogged (some fname)).Within img.InTables ↔ filenameLen < fname.strlen ∨
      img.dirCount.toInt ≤ numDirentries ∨
      ∃ i < numDirentries, fname.text = (img.direntries i).name := by
  unfold readDentryByNameLogged
  dsimp only
  by_cases hlen : filenameLen < fname.strlen
  · rw [if_pos hlen]
    simp [hlen]
  · have hcount : 0 + img.dirCount.toInt.toNat ≤ numDirentries ↔
        img.dirCount.toInt ≤ numDirentries := by omega
    rw [if_neg hlen, findDentryLogged_within_iff fname _ 0 (Nat.zero_le _), hcount,
      or_iff_right hlen]
    simp [nameMatches_name (Nat.not_lt.1 hlen)]

theorem byIndex_within_iff (index : BitVec 32) :
    (img.readDentryByIndexLogged index).Within img.InTables ↔
      index.toNat < numDirentries ∨ img.dirCount.toNat ≤ index.toNat := by
  unfold readDentryByIndexLogged
  by_cases hcount : img.dirCount.toNat ≤ index.toNat
  · rw [if_pos hcount]
    simp [hcount]
  · rw [if_neg hcount, within_access, or_iff_left hcount]
    refine and_iff_left_of_imp fun hin => ?_
    have hlt : index.toNat < numDirentries := hin
    rw [if_neg (by omega)]
    exact within_done _

theorem readDataLogged_refused {inode offset length : BitVec 32} {buf : Option (Nat → UInt8)}
    (h : img.inodeCount.toNat ≤ inode.toNat ∨ buf = none) :
    img.readDataLogged inode offset buf length = done (.ok ⟨-1, []⟩) := by
  unfold readDataLogged
  split
  · rfl
  · rename_i hi
    rw [h.resolve_left hi]
    rfl

theorem readDataLogged_within_iff (inode offset : BitVec 32) (buf : Nat → UInt8)
    (length : BitVec 32) (hi : inode.toNat < img.inodeCount.toNat) :
    (img.readDataLogged inode offset (some buf) length).Within img.InTables ↔
      0 ≤ img.inodeCount.toInt ∧
        (numBlockSlots ≤ offset.toNat / blockByteSize ∨
          ¬ img.Overruns (img.inodes inode.toNat) offset.toNat length.toNat) := by
  have hsign : (inode.toNat : Int) < img.inodeCount.toInt ↔ 0 ≤ img.inodeCount.toInt := by
    rw [BitVec.toInt_eq_toNat_cond]
    split
    · omega
    · omega
  unfold readDataLogged
  rw [if_neg (by omega), if_neg (by simp), within_access, ← hsign]
  refine and_congr_right fun hin => ?_
  dsimp only
  by_cases hfar : numBlockSlots ≤ offset.toNat / blockByteSize
  · rw [if_pos hfar]
    simp [hfar]
  · have hslot : img.InTables (.blockNum inode.toNat (offset.toNat / blockByteSize)) :=
      ⟨hin, by omega⟩
    rw [if_neg hfar, within_access, and_iff_right hslot, or_iff_right hfar]
    by_cases hv : img.validBlock ((img.inodes inode.toNat).dataBlockNum
        (offset.toNat / blockByteSize)) = true
    · rw [if_pos hv]
      exact readLoopLogged_within_iff hin _ _ _ _ _ (Nat.div_add_mod' _ _).symm
        (Nat.mod_lt _ (by decide)).le (by omega) hv
    · have hno : ¬ img.Overruns (img.inodes inode.toNat) offset.toNat length.toNat := fun h =>
        hv (h.2 _ (le_refl _) (by omega))
      rw [if_neg hv]
      simpa using hno

variable (img)

def accesses : FileCall → List Access
  | .byName fname => (img.readDentryByNameLogged fname).log
  | .byIndex index => (img.readDentryByIndexLogged index).log
  | .data inode offset buf length => (img.readDataLogged inode offset buf length).log

/-- What the image has to be like for a call that is not refused. -/
def Bounded : FileCall → Prop
  | .byName none => True
  | .byName (some fname) => filenameLen < fname.strlen ∨
      img.dirCount.toInt ≤ numDirentries ∨
      ∃ i < numDirentries, fname.text = (img.direntries i).name
  | .byIndex index => index.toNat < numDirentries ∨ img.dirCount.toNat ≤ index.toNat
  | .data _ _ none _ => True
  | .data inode offset (some _) length => img.inodeCount.toNat ≤ inode.toNat ∨
      0 ≤ img.inodeCount.toInt ∧
        (numBlockSlots ≤ offset.toNat / blockByteSize ∨
          ¬ img.Overruns (img.inodes inode.toNat) offset.toNat length.toNat)

/-- For an image with any content and a call with any arguments: no access leaves the tables, if and
only if the call is `Bounded`. -/
theorem accesses_in_tables_iff (c : FileCall) :
    (∀ a ∈ img.accesses c, img.InTables a) ↔ img.Bounded c := by
  cases c with
  | byName fname =>
    cases fname with
    | none => exact iff_of_true (within_done _) trivial
    | some fname => exact byName_within_iff fname
  | byIndex index => exact byIndex_within_iff index
  | data inode offset buf length =>
    cases buf with
    | none =>
      have hrefused : img.readDataLogged inode offset none length = done (.ok ⟨-1, []⟩) :=
        readDataLogged_refused (Or.inr rfl)
      rw [accesses, hrefused]
      exact iff_of_true (within_done _) trivial
    | some buf =>
      by_cases hi : img.inodeCount.toNat ≤ inode.toNat
      · have hrefused : img.readDataLogged inode offset (some buf) length =
            done (.ok ⟨-1, []⟩) := readDataLogged_refused (Or.inl hi)
        rw [accesses, hrefused]
        exact iff_of_true (within_done _) (Or.inl hi)
      · simp only [Bounded, or_iff_right hi]
        exact readDataLogged_within_iff inode offset buf length (Nat.not_le.1 hi)

/-- An image with one entry more than the boot block has room for. -/
def overfull : Image where
  dirCount := 64
  inodeCount := 1
  dataCount := 1
  direntries _ := ⟨fun _ => 0, 2, 0⟩
  inodes _ := ⟨0, fun _ => 0⟩
  dataBlocks _ _ := 0

theorem accesses_leave_tables : ¬ ∀ (img : Image) (c : FileCall),
    ∀ a ∈ img.accesses c, img.InTables a := by
  intro h
  have hlog : overfull.accesses (.byIndex 63) = [.direntry 63] := by decide
  have hin : 63 < numDirentries :=
    h overfull (.byIndex 63) (.direntry 63) (hlog ▸ List.mem_singleton_self _)
  exact absurd hin (by decide)

end Image
end DeviceOS
