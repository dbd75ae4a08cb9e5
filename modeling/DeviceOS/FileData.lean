import DeviceOS.FileSystem
import Mathlib.Data.List.Basic

/-!
# DeviceOS.FileData

What `read_data` delivers. A file is the concatenation of its data blocks, cut off at its length
(`Image.content`).

* `Image.readLoop_eq`: the loop invariant. From any position inside a block, and for as long as the
  blocks that it moves into are valid, the loop stores the bytes from the offset on, up to `n` of
  them or the end of the file.
* `Image.readData_eq`: the same for a whole call.
* `Image.readData_invalid`: the call fails when the block at the offset is not valid.
-/

namespace DeviceOS
namespace Image

variable (img : Image)

/-- Byte `i` of the concatenation of the data blocks. -/
def byteAt (ino : Inode) (i : Nat) : UInt8 :=
  img.dataBlocks (ino.dataBlockNum (i / blockByteSize)).toNat (i % blockByteSize)

/-- Bytes `offset .. offset + n` of the file. -/
def slice (ino : Inode) (offset n : Nat) : List UInt8 :=
  (List.range' offset n).map (img.byteAt ino)

def content (ino : Inode) : List UInt8 := img.slice ino 0 ino.length.toNat

/-- `read_data` can read `n` bytes from `offset`: every block that it moves into is valid. -/
def Readable (ino : Inode) (offset n : Nat) : Prop :=
  ∀ s, offset < s * blockByteSize → s * blockByteSize < min (offset + n) ino.length.toNat →
    s < numBlockSlots ∧ img.validBlock (ino.dataBlockNum s) = true

variable {img}

@[simp] theorem slice_zero (ino : Inode) (offset : Nat) : img.slice ino offset 0 = [] := rfl

@[simp] theorem slice_length (ino : Inode) (offset n : Nat) :
    (img.slice ino offset n).length = n := by
  simp [slice]

theorem slice_succ (ino : Inode) (offset n : Nat) :
    img.slice ino offset (n + 1) = img.byteAt ino offset :: img.slice ino (offset + 1) n := by
  simp [slice, List.range'_succ]

theorem slice_append (ino : Inode) (offset n m : Nat) :
    img.slice ino offset n ++ img.slice ino (offset + n) m = img.slice ino offset (n + m) := by
  simp [slice, ← List.map_append, List.range'_append_1]

theorem slice_eq_take (ino : Inode) {n m : Nat} (h : n ≤ m) :
    img.slice ino 0 n = (img.slice ino 0 m).take n := by
  obtain ⟨k, rfl⟩ := Nat.exists_eq_add_of_le h
  rw [← slice_append, List.take_append_of_le_length (by simp)]
  rw [List.take_of_length_le (by simp)]

theorem Readable.step {ino : Inode} {offset n : Nat} (h : img.Readable ino offset (n + 1)) :
    img.Readable ino (offset + 1) n := by
  intro s h1 h2
  exact h s (by omega) (by omega)

theorem readLoop_eq (ino : Inode) :
    ∀ (n offset read slot bo : Nat), offset = slot * blockByteSize + bo → bo ≤ blockByteSize →
      (bo = blockByteSize → n ≠ 0 → offset < ino.length.toNat →
        slot + 1 < numBlockSlots ∧ img.validBlock (ino.dataBlockNum (slot + 1)) = true) →
      img.Readable ino offset n →
      img.readLoop ino n offset read slot bo (ino.dataBlockNum slot).toNat =
        .ok ⟨(read + min n (ino.length.toNat - offset) : Nat),
          img.slice ino offset (min n (ino.length.toNat - offset))⟩ := by
  intro n
  induction n with
  | zero => intro offset read slot bo _ _ _ _; simp [readLoop]
  | succ n ih =>
    intro offset read slot bo ho hbo hnext hr
    by_cases hlt : offset < ino.length.toNat
    · have hmin : min (n + 1) (ino.length.toNat - offset) =
          min n (ino.length.toNat - (offset + 1)) + 1 := by omega
      rw [hmin, slice_succ]
      have hadd : read + (min n (ino.length.toNat - (offset + 1)) + 1) =
          read + 1 + min n (ino.length.toNat - (offset + 1)) := by omega
      rw [hadd]
      simp only [readLoop, if_pos hlt]
      by_cases hb : bo = blockByteSize
      · obtain ⟨hs, hv⟩ := hnext hb (by omega) hlt
        rw [if_pos hb, if_neg (by omega), if_pos hv]
        have hoff : offset + 1 = (slot + 1) * blockByteSize + 1 := by
          rw [ho, hb, Nat.add_mul]; omega
        rw [ih _ _ _ _ hoff (by decide) (by intro h; exact absurd h (by decide)) hr.step]
        have hbyte : img.dataBlocks (ino.dataBlockNum (slot + 1)).toNat 0 =
            img.byteAt ino offset := by
          have hdiv : offset = (slot + 1) * blockByteSize := by omega
          rw [byteAt, hdiv, Nat.mul_div_cancel _ (by decide), Nat.mul_mod_left]
        rw [hbyte]
        rfl
      · rw [if_neg hb]
        have hoff : offset + 1 = slot * blockByteSize + (bo + 1) := by omega
        have hnext' : bo + 1 = blockByteSize → n ≠ 0 → offset + 1 < ino.length.toNat →
            slot + 1 < numBlockSlots ∧ img.validBlock (ino.dataBlockNum (slot + 1)) = true := by
          intro hbe hn hl
          have hmul : (slot + 1) * blockByteSize = offset + 1 := by
            rw [Nat.add_mul, Nat.one_mul]; omega
          exact hr (slot + 1) (by omega) (by omega)
        rw [ih _ _ _ _ hoff (by omega) hnext' hr.step]
        have hbyte : img.dataBlocks (ino.dataBlockNum slot).toNat bo = img.byteAt ino offset := by
          have hlt' : bo < blockByteSize := by omega
          have hdiv : offset / blockByteSize = slot := by
            rw [ho, Nat.add_comm, Nat.add_mul_div_right _ _ (by decide), Nat.div_eq_of_lt hlt']
            omega
          have hmod : offset % blockByteSize = bo := by
            rw [ho, Nat.add_comm, Nat.add_mul_mod_self_right, Nat.mod_eq_of_lt hlt']
          rw [byteAt, hdiv, hmod]
        rw [hbyte]
        rfl
    · have hzero : ino.length.toNat - offset = 0 := by omega
      simp [readLoop, if_neg hlt, hzero]

theorem readData_eq {inode offset n : Nat} (hi : inode < img.inodeCount.toNat)
    (hs : offset / blockByteSize < numBlockSlots)
    (hv : img.validBlock ((img.inodes inode).dataBlockNum (offset / blockByteSize)) = true)
    (hr : img.Readable (img.inodes inode) offset n) :
    img.readData inode offset n =
      .ok ⟨(min n ((img.inodes inode).length.toNat - offset) : Nat),
        img.slice (img.inodes inode) offset
          (min n ((img.inodes inode).length.toNat - offset))⟩ := by
  have hlt : offset % blockByteSize < blockByteSize := Nat.mod_lt _ (by decide)
  have hloop := readLoop_eq (img.inodes inode) n offset 0 (offset / blockByteSize)
    (offset % blockByteSize) (by rw [Nat.mul_comm]; exact (Nat.div_add_mod _ _).symm) (by omega)
    (by intro h; omega) hr
  rw [Nat.zero_add] at hloop
  simp only [readData]
  rw [if_neg (by omega), if_neg (by omega), if_pos hv, hloop]

theorem readData_invalid {inode offset n : Nat} (hs : offset / blockByteSize < numBlockSlots)
    (hv : img.validBlock ((img.inodes inode).dataBlockNum (offset / blockByteSize)) = false) :
    img.readData inode offset n = .ok ⟨-1, []⟩ := by
  simp only [readData]
  split
  · rfl
  · rw [if_neg (by omega), if_neg (by simp [hv])]

/-- What a call that returned at least one byte says about the inode. -/
theorem readData_pos {inode offset n : Nat} {r : DataRead} (h : img.readData inode offset n = .ok r)
    (hr : 0 < r.ret) :
    inode < img.inodeCount.toNat ∧ offset / blockByteSize < numBlockSlots ∧
      img.validBlock ((img.inodes inode).dataBlockNum (offset / blockByteSize)) = true := by
  simp only [readData] at h
  split at h
  · cases h; simp at hr
  · split at h
    · cases h; simp at hr
    · split at h
      · exact ⟨by omega, by omega, ‹_›⟩
      · cases h; simp at hr

end Image
end DeviceOS
