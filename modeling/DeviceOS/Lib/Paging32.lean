import DeviceOS.Lib.BitFields

/-!
# Lib.Paging32

Address translation of a 32-bit x86 processor with 4 KB and 4 MB pages: the directory entry of an
address maps 4 MB of memory itself, or refers to a table of 1024 entries for 4 KB each.

* `translate`: what the processor finds for an address, from the bits P, U/S and PS and the frame
  numbers of the entries. `none` is a page fault.
* `Absent`, `MapsLarge`, `RefersTo`, `MapsSmall`: what an entry says, and the rules
  `translate_absent`, `translate_large`, `translate_small`, `translate_small_absent` for each case.
-/

namespace Paging32

open BitFields (Field)

abbrev Entry := BitVec 32

abbrev present : Field := ⟨0, 1⟩
abbrev userMode : Field := ⟨2, 1⟩
abbrev pageSize : Field := ⟨7, 1⟩
/-- The frame of a page table, or of a 4 KB page. -/
abbrev frame : Field := ⟨12, 20⟩
/-- The frame of a 4 MB page. -/
abbrev largeFrame : Field := ⟨22, 10⟩

/-- Physical memory, as 1024 entries in each 4 KB frame. -/
abbrev Memory := Nat → Fin 1024 → Entry

/-- A physical address, and whether user mode has access. -/
structure Mapping where
  phys : Nat
  user : Bool
  deriving DecidableEq

def dirIndex (a : BitVec 32) : Fin 1024 := ⟨a.toNat / 2 ^ 22, by have := a.isLt; omega⟩

def tableIndex (a : BitVec 32) : Fin 1024 := ⟨a.toNat / 2 ^ 12 % 1024, by omega⟩

/-- The translation of `a` with the page directory in frame `cr3`. -/
def translate (mem : Memory) (cr3 : Nat) (a : BitVec 32) : Option Mapping :=
  let pde := mem cr3 (dirIndex a)
  if present.get pde = 0 then none
  else if pageSize.get pde = 1 then
    some ⟨largeFrame.get pde * 2 ^ 22 + a.toNat % 2 ^ 22, decide (userMode.get pde = 1)⟩
  else
    let pte := mem (frame.get pde) (tableIndex a)
    if present.get pte = 0 then none
    else some ⟨frame.get pte * 2 ^ 12 + a.toNat % 2 ^ 12,
      decide (userMode.get pde = 1) && decide (userMode.get pte = 1)⟩

/-! ## What an entry says -/

def Absent (e : Entry) : Prop := present.get e = 0

/-- A directory entry for the 4 MB page in frame `f`. -/
structure MapsLarge (e : Entry) (f : Nat) (user : Bool) : Prop where
  present : present.get e = 1
  pageSize : pageSize.get e = 1
  frame : largeFrame.get e = f
  user : decide (userMode.get e = 1) = user

/-- A directory entry for the page table in frame `f`. -/
structure RefersTo (e : Entry) (f : Nat) (user : Bool) : Prop where
  present : present.get e = 1
  pageSize : pageSize.get e = 0
  frame : frame.get e = f
  user : decide (userMode.get e = 1) = user

/-- A table entry for the 4 KB page in frame `f`. -/
structure MapsSmall (e : Entry) (f : Nat) (user : Bool) : Prop where
  present : present.get e = 1
  frame : frame.get e = f
  user : decide (userMode.get e = 1) = user

variable {mem : Memory} {cr3 : Nat} {a : BitVec 32} {f g : Nat} {u v : Bool}

theorem translate_absent (h : Absent (mem cr3 (dirIndex a))) : translate mem cr3 a = none := by
  rw [Absent] at h
  simp [translate, h]

theorem translate_large (h : MapsLarge (mem cr3 (dirIndex a)) f u) :
    translate mem cr3 a = some ⟨f * 2 ^ 22 + a.toNat % 2 ^ 22, u⟩ := by
  obtain ⟨hp, hs, hf, hu⟩ := h
  simp only [translate, hp, hs, hf, hu, if_true, if_neg Nat.one_ne_zero]

theorem translate_small (h : RefersTo (mem cr3 (dirIndex a)) f u)
    (h' : MapsSmall (mem f (tableIndex a)) g v) :
    translate mem cr3 a = some ⟨g * 2 ^ 12 + a.toNat % 2 ^ 12, u && v⟩ := by
  obtain ⟨hp, hs, hf, hu⟩ := h
  obtain ⟨hp', hf', hu'⟩ := h'
  simp only [translate, hp, hs, hf, hu, hp', hf', hu', if_neg Nat.one_ne_zero,
    if_neg Nat.zero_ne_one]

theorem translate_small_absent (h : RefersTo (mem cr3 (dirIndex a)) f u)
    (h' : Absent (mem f (tableIndex a))) : translate mem cr3 a = none := by
  obtain ⟨hp, hs, hf, _⟩ := h
  rw [Absent] at h'
  simp only [translate, hp, hs, hf, h', if_true, if_neg Nat.one_ne_zero, if_neg Nat.zero_ne_one]

end Paging32
