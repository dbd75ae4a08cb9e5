import DeviceOS.PrivateCalls

/-!
# DeviceOS.UserCalls

What a program gets from its system calls, as long as it uses them the way the programs of
`syscalls/` do: it takes its arguments, opens one file or directory, reads it from the start and
writes to the terminal.

* `StringAt`: a string in the memory of the program, with its NUL.
* `getargs_all`, `open_file`, `open_dir`, `open_missing`, `read_file`, `read_dir`, `write_out`: the
  replies, and what becomes of the process.
-/

namespace DeviceOS

open Buffers (Holds)
open CString (NulFree)

/-! ## Strings -/

/-- The bytes of a string literal. -/
def literal (s : String) : CString := s.toList.map fun c => UInt8.ofNat c.toNat

/-- The string `s`, with its NUL, is at the start of the memory `mem`. -/
def StringAt (mem : Nat → UInt8) (s : CString) : Prop := NulFree s ∧ Holds mem (s ++ [0])

instance (mem : Nat → UInt8) (s : CString) : Decidable (StringAt mem s) :=
  inferInstanceAs (Decidable (_ ∧ _))

namespace StringAt

variable {mem : Nat → UInt8} {s t : CString}

theorem unique (h : StringAt mem s) (h' : StringAt mem t) : s = t := by
  have hs := h.2.string_eq (n := s.length + t.length + 1) h.1 (by omega)
  have ht := h'.2.string_eq (n := s.length + t.length + 1) h'.1 (by omega)
  exact hs.symm.trans ht

theorem bytes (h : StringAt mem s) : (List.range s.length).map mem = s := by
  have htake := h.2.take (n := s.length) (by simp)
  rwa [List.take_left' rfl] at htake

end StringAt

theorem CString.NulFree.strlen {s : CString} (h : s.NulFree) : s.strlen = s.length := by
  have hall : s.takeWhile (· ≠ 0) = s := List.takeWhile_eq_self_iff.mpr fun c hc => by
    simpa using h c hc
  unfold CString.strlen
  rw [hall]

/-! ## System calls -/

namespace Own

variable {img : Image} {o : Own} {args name : CString} {entry : Dentry} {w : Fin 8}

/-- `getargs` with a buffer for the longest arguments. -/
theorem Fresh.getargs_all (h : o.Fresh args) {n : Nat} (hn : maxArgsSize ≤ n) (mem : Nat → UInt8) :
    o.getargs mem n = if args = [] then some (⟨-1, []⟩, o)
      else some (⟨0, args ++ [0]⟩, o.clearArgs) := by
  have hlen := h.length
  have hfirst : args = if o.argsArray 0 = 0 then [] else
      o.argsArray 0 :: Buffers.string 0 127 fun i => o.argsArray (i + 1) :=
    h.args.symm.trans (Buffers.string_succ 0 127 o.argsArray)
  have hsize : maxArgsSize = 128 := rfl
  unfold getargs
  by_cases h0 : o.argsArray 0 = 0
  · rw [if_pos h0] at hfirst
    rw [if_pos (Or.inl h0), if_pos hfirst]
  · rw [if_neg h0] at hfirst
    have hne : args ≠ [] := by
      rw [hfirst]
      simp
    have hn1 : ¬ (n : Int) < 1 := by omega
    have hfits : ¬ (args.length = maxArgsSize ∧ (maxArgsSize : Int) < n) := by omega
    have hless : (args.length : Int) < n := by omega
    rw [if_neg (not_or.mpr ⟨h0, hn1⟩), if_neg hne, h.args]
    simp only [if_neg hfits, if_pos hless]

/-- The first `open` gets descriptor 2. -/
theorem freeFd_first (h : (o.fdarray 2).flags = false) : o.freeFd = some 2 := by
  have hall : List.finRange 8 = [0, 1, 2, 3, 4, 5, 6, 7] := rfl
  simp [freeFd, hall, h]

theorem open_file (hfree : o.freeFd = some w) (hl : img.readDentryByName name = .ok (some entry))
    (ht : entry.filetype = 2) : o.open' img (some name) =
      some ((w.val : Int), o.setFd w ⟨some .file, entry.inodeNum.toNat, 0, true⟩) := by
  simp [open', hfree, hl, ht, Kernel.fopsOfType]

theorem open_dir (hfree : o.freeFd = some w) (hl : img.readDentryByName name = .ok (some entry))
    (ht : entry.filetype = 1) : o.open' img (some name) =
      some ((w.val : Int), o.setFd w ⟨some .dir, entry.inodeNum.toNat, 0, true⟩) := by
  simp [open', hfree, hl, ht, Kernel.fopsOfType]

theorem open_missing (hfree : o.freeFd = some w) (hl : img.readDentryByName name = .ok none) :
    o.open' img (some name) = some (-1, o) := by
  simp [open', hfree, hl]

theorem read_open {f : Fops} (hf : (o.fdarray w).flags = true) (ho : (o.fdarray w).fopsPtr = some f)
    (mem : Nat → UInt8) (n : Nat) : o.read img w.val (some mem) n = match f with
      | .rtc => some .rtc
      | .file => o.fileRead img w n
      | .dir => o.directoryRead img w n
      | .read => some .terminal
      | .write => some (.ret ⟨-1, []⟩ o) := by
  have hn : ¬ (n : Int) < 0 := by omega
  simp only [read, Kernel.fdOf_val, hf, ho, hn, Option.isNone_some, Bool.true_eq_false,
    Bool.false_eq_true, or_self, if_false, Int.toNat_natCast]
  cases f <;> rfl

/-- One read of a file: the position moves by the result, a `uint32_t`. -/
theorem read_file {inode pos n : Nat} {r : Image.DataRead}
    (hf : o.fdarray w = ⟨some .file, inode, pos, true⟩) (hx : img.readData inode pos n = .ok r)
    (mem : Nat → UInt8) : o.read img w.val (some mem) n = some (.ret ⟨r.ret, r.bytes⟩
      (o.setFd w ⟨some .file, inode, (pos + (r.ret % 2 ^ 32).toNat) % 2 ^ 32, true⟩)) := by
  rw [read_open (by rw [hf]) (by rw [hf])]
  simp only [fileRead, hf, hx]

theorem read_dir (h63 : img.dirCount.toNat ≤ 63) {inode pos : Nat}
    (hf : o.fdarray w = ⟨some .dir, inode, pos, true⟩) (hpos : pos < img.dirCount.toNat)
    (mem : Nat → UInt8) (n : Nat) : o.read img w.val (some mem) n = some (.ret
      ⟨((img.direntries pos).name.take n).length, (img.direntries pos).name.take n⟩
      (o.setFd w ⟨some .dir, inode, pos + 1, true⟩)) := by
  have hword : (pos + 1) % 2 ^ 32 = pos + 1 := Nat.mod_eq_of_lt (by omega)
  have hout : ((List.range (min n filenameLen)).map (img.direntries pos).filename).takeWhile (· ≠ 0) =
      (img.direntries pos).name.take n := Buffers.string_take 0 filenameLen n _
  rw [read_open (by rw [hf]) (by rw [hf])]
  simp only [directoryRead, hf, Image.readDentryByIndex_of_lt h63 hpos, hword, hout]

theorem read_dir_end {inode pos : Nat} (hf : o.fdarray w = ⟨some .dir, inode, pos, true⟩)
    (hpos : img.dirCount.toNat ≤ pos) (mem : Nat → UInt8) (n : Nat) :
    o.read img w.val (some mem) n = some (.ret ⟨0, []⟩ o) := by
  rw [read_open (by rw [hf]) (by rw [hf])]
  simp only [directoryRead, hf, Image.readDentryByIndex_of_le hpos]

theorem write_out (hf : o.fdarray 1 = stdoutFd) (mem : Nat → UInt8) (n : Nat) :
    o.write 1 (some mem) n = some ⟨n, []⟩ := by
  have hn : ¬ (n : Int) < 0 := by omega
  have hfd : Kernel.fdOf 1 = some 1 := rfl
  simp [write, hfd, hf, stdoutFd, hn]

end Own
end DeviceOS
