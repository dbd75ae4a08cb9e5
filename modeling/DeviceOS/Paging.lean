import DeviceOS.Lib.Paging32
import DeviceOS.Syscalls

/-!
# DeviceOS.Paging

`paging.c` and the other functions that edit the page tables: `vidmap`, `switch_terminal` and
`schedule`. The three tables of `paging.h` are tables of 32-bit entries, and every assignment to a
bit field changes the bits of that field.

* `Layout`: where the linker has put the tables.
* `PageState`: what can change in the tables after `paging_init`, and `PageState.lookup`: what an
  address then translates to.
* `Describes`: the tables are those of a `PageState`. `paging_init` sets it up, every edit keeps it.
* `translate_eq`: the processor's translation through the tables is `PageState.lookup`.
-/

namespace DeviceOS

open BitFields (Field assign)
open Paging32 (Entry Memory Mapping translate)

/-! ## `paging.h` -/

/-! `page_directory_entry_kb_t` -/

namespace Kb

abbrev p : Field := ⟨0, 1⟩
abbrev rW : Field := ⟨1, 1⟩
abbrev uS : Field := ⟨2, 1⟩
abbrev pwt : Field := ⟨3, 1⟩
abbrev pcd : Field := ⟨4, 1⟩
abbrev a : Field := ⟨5, 1⟩
abbrev rsvd : Field := ⟨6, 1⟩
abbrev ps : Field := ⟨7, 1⟩
abbrev g : Field := ⟨8, 1⟩
abbrev avl : Field := ⟨9, 3⟩
abbrev physicalAddress : Field := ⟨12, 20⟩

end Kb

/-! `page_directory_entry_mb_t` -/

namespace Mb

abbrev p : Field := ⟨0, 1⟩
abbrev rW : Field := ⟨1, 1⟩
abbrev uS : Field := ⟨2, 1⟩
abbrev pwt : Field := ⟨3, 1⟩
abbrev pcd : Field := ⟨4, 1⟩
abbrev a : Field := ⟨5, 1⟩
abbrev d : Field := ⟨6, 1⟩
abbrev ps : Field := ⟨7, 1⟩
abbrev g : Field := ⟨8, 1⟩
abbrev avl : Field := ⟨9, 3⟩
abbrev pat : Field := ⟨12, 1⟩
abbrev rsvd : Field := ⟨13, 9⟩
abbrev physicalAddress : Field := ⟨22, 10⟩

end Mb

/-! `page_table_entry_t` -/

namespace Pte

abbrev p : Field := ⟨0, 1⟩
abbrev rW : Field := ⟨1, 1⟩
abbrev uS : Field := ⟨2, 1⟩
abbrev pwt : Field := ⟨3, 1⟩
abbrev pcd : Field := ⟨4, 1⟩
abbrev a : Field := ⟨5, 1⟩
abbrev d : Field := ⟨6, 1⟩
abbrev pat : Field := ⟨7, 1⟩
abbrev g : Field := ⟨8, 1⟩
abbrev avl : Field := ⟨9, 3⟩
abbrev physicalAddress : Field := ⟨12, 20⟩

end Pte

def term2Index : Nat := 0xBA
def term3Index : Nat := 0xBB

structure PageTables where
  pageDirectory : Fin 1024 → Entry
  firstPageTable : Fin 1024 → Entry
  vidmapPageTable : Fin 1024 → Entry

/-- The addresses of the three tables, which are `aligned(4096)`. -/
structure Layout where
  pageDirectory : Nat
  firstPageTable : Nat
  vidmapPageTable : Nat
  lt : firstPageTable < 2 ^ 32 ∧ vidmapPageTable < 2 ^ 32
  aligned : pageDirectory % 4096 = 0 ∧ firstPageTable % 4096 = 0 ∧ vidmapPageTable % 4096 = 0
  distinct : pageDirectory ≠ firstPageTable ∧ pageDirectory ≠ vidmapPageTable ∧
    firstPageTable ≠ vidmapPageTable

namespace PageTables

variable (t : PageTables)

def editDir (i : Nat) (f : Entry → Entry) : PageTables :=
  { t with pageDirectory := fun j => if j.val = i then f (t.pageDirectory j) else t.pageDirectory j }

def editVidmap (i : Nat) (f : Entry → Entry) : PageTables :=
  { t with
    vidmapPageTable := fun j => if j.val = i then f (t.vidmapPageTable j) else t.vidmapPageTable j }

/-! ## `paging.c` -/

def initKb : Entry → Entry := assign [(Kb.p, 0), (Kb.uS, 0), (Kb.rW, 1), (Kb.rsvd, 0), (Kb.pcd, 0),
  (Kb.pwt, 0), (Kb.a, 0), (Kb.ps, 0), (Kb.g, 1), (Kb.avl, 0)]

/-- The body of the loop over the page directory. -/
def initMb (i : Nat) : Entry → Entry := assign [(Mb.p, if i = 1 then 1 else 0),
  (Mb.g, if i = 1 then 1 else 0), (Mb.uS, 0), (Mb.rW, 1), (Mb.rsvd, 0), (Mb.pcd, 0), (Mb.pwt, 0),
  (Mb.a, 0), (Mb.d, 0), (Mb.ps, 1), (Mb.pat, 0), (Mb.avl, 0), (Mb.physicalAddress, i)]

/-- The body of the loops over the two page tables, which give `G` a different value. -/
def initPte (g i : Nat) : Entry → Entry := assign [(Pte.p, 0), (Pte.g, g), (Pte.uS, 0), (Pte.rW, 1),
  (Pte.pcd, 0), (Pte.pwt, 0), (Pte.a, 0), (Pte.d, 0), (Pte.pat, 0), (Pte.avl, 0),
  (Pte.physicalAddress, i)]

def pagingInit (L : Layout) : PageTables where
  pageDirectory i :=
    if i.val = 0 then
      assign [(Kb.p, 1), (Kb.physicalAddress, L.firstPageTable >>> 12)] (initKb (t.pageDirectory i))
    else initMb i (t.pageDirectory i)
  firstPageTable i :=
    let e := initPte 0 i (t.firstPageTable i)
    if i.val = 184 ∨ i.val = 185 ∨ i.val = 186 ∨ i.val = 187 then assign [(Pte.p, 1), (Pte.g, 1)] e
    else e
  vidmapPageTable i := initPte 1 i (t.vidmapPageTable i)

def mapProgramMem (pid : Int) : Int × PageTables :=
  if pid < 0 then (-1, t)
  else (0, t.editDir 32
    (assign [(Mb.physicalAddress, (2 + pid).toNat), (Mb.p, 1), (Mb.uS, 1)]))

/-! ## `vidmap`, `switch_terminal`, `schedule` -/

/-- `vidmap` opens page `i` for user mode. -/
def openPage (i : Nat) : PageTables :=
  t.editVidmap i (assign [(Pte.p, 1), (Pte.uS, 1), (Pte.rW, 1), (Pte.physicalAddress, i)])

/-- `vidmap` up to the store to `*screen_start`; address 0 is NULL. -/
def vidmap (L : Layout) (screenStart : Nat) : Int × PageTables :=
  if screenStart < Kernel.usrmemBottom ∨ Kernel.usrmemTop < screenStart then (-1, t)
  else
    let t1 := t.editDir 0 (assign [(Kb.p, 1), (Kb.uS, 1), (Kb.rW, 1),
      (Kb.physicalAddress, L.vidmapPageTable >>> 12)])
    (0, (((t1.openPage vidmemIndex).openPage term1Index).openPage term2Index).openPage term3Index)

/-- `vidmap_page_table[VIDMEM_INDEX].physical_address = page` -/
def setVidmem (page : Nat) : PageTables :=
  t.editVidmap vidmemIndex (assign [(Pte.physicalAddress, page)])

/-- What `switch_terminal` does to the tables. -/
def switchTerminal (tpi : Option Term) (keycode : Nat) : PageTables :=
  if h : (keycode + 256 - 0x3B) % 256 < 3 then
    let n : Term := ⟨(keycode + 256 - 0x3B) % 256, h⟩
    let t1 := t.setVidmem vidmemIndex
    if tpi ≠ some n then t1.setVidmem (Console.termPage tpi) else t1
  else t

/-- What `schedule` does to the tables, once `terminal_process_index` is `tpi`: it resumes `pid`, or
calls `execute`. `shell` is the pid for which that `execute` gets to `map_program_mem`. -/
def schedule (tpi cur : Term) (pid shell : Option Pid) : PageTables :=
  match pid, shell with
  | some q, _ =>
    let t1 := (t.mapProgramMem q.val).2
    if tpi ≠ cur then t1.setVidmem (term1Index + tpi.val) else t1.setVidmem vidmemIndex
  | none, some q => (t.mapProgramMem q.val).2
  | none, none => t

end PageTables

/-- Physical memory with the tables in their frames, and anything elsewhere. -/
def Layout.memory (L : Layout) (t : PageTables) (other : Memory) : Memory := fun f =>
  if f = L.pageDirectory >>> 12 then t.pageDirectory
  else if f = L.firstPageTable >>> 12 then t.firstPageTable
  else if f = L.vidmapPageTable >>> 12 then t.vidmapPageTable
  else other f

/-- `load_page_directory` has put the address of the page directory into CR3. -/
def Layout.cr3 (L : Layout) : Nat := L.pageDirectory >>> 12

namespace Layout

variable (L : Layout) (t : PageTables) (other : Memory)

theorem memory_pageDirectory : L.memory t other L.cr3 = t.pageDirectory := if_pos rfl

theorem memory_firstPageTable : L.memory t other (L.firstPageTable >>> 12) = t.firstPageTable := by
  obtain ⟨h1, h2, _⟩ := L.aligned
  have hne : L.firstPageTable >>> 12 ≠ L.pageDirectory >>> 12 := by
    simp only [Nat.shiftRight_eq_div_pow]
    have := L.distinct.1
    omega
  simp [memory, hne]

theorem memory_vidmapPageTable :
    L.memory t other (L.vidmapPageTable >>> 12) = t.vidmapPageTable := by
  obtain ⟨h1, h2, h3⟩ := L.aligned
  have hne1 : L.vidmapPageTable >>> 12 ≠ L.pageDirectory >>> 12 := by
    simp only [Nat.shiftRight_eq_div_pow]
    have := L.distinct.2.1
    omega
  have hne2 : L.vidmapPageTable >>> 12 ≠ L.firstPageTable >>> 12 := by
    simp only [Nat.shiftRight_eq_div_pow]
    have := L.distinct.2.2
    omega
  simp [memory, hne1, hne2]

theorem frame_lt : L.firstPageTable >>> 12 < 2 ^ 20 ∧ L.vidmapPageTable >>> 12 < 2 ^ 20 := by
  have := L.lt
  simp only [Nat.shiftRight_eq_div_pow]
  omega

end Layout

/-! ## What the tables say -/

/-- What can change after `paging_init`: directory entry 32, whether directory entry 0 refers to
`vidmap_page_table`, and the frame of page 0xB8 in that table. -/
structure PageState where
  program : Pde
  vidmapped : Bool
  vidmemPage : Nat

/-- The video page and the three terminal pages. -/
def IsVideoPage (i : Nat) : Prop := vidmemIndex ≤ i ∧ i ≤ term3Index

instance (i : Nat) : Decidable (IsVideoPage i) := inferInstanceAs (Decidable (_ ∧ _))

namespace PageState

/-- What address `a` translates to. -/
def lookup (s : PageState) (a : Nat) : Option Mapping :=
  if IsVideoPage (a / 0x1000) then
    some ⟨if s.vidmapped = true ∧ a / 0x1000 = vidmemIndex then s.vidmemPage * 0x1000 + a % 0x1000
      else a, s.vidmapped⟩
  else if 0x400000 ≤ a ∧ a < 0x800000 then some ⟨a, false⟩
  else if 0x8000000 ≤ a ∧ a < 0x8400000 ∧ s.program.p = true then
    some ⟨s.program.physicalAddress * 0x400000 + (a - 0x8000000), s.program.uS⟩
  else none

end PageState

open Paging32 (Absent MapsLarge RefersTo MapsSmall)

/-- Directory entry 32 is that of a 4 MB page as `d` says. -/
structure ProgramEntry (e : Entry) (d : Pde) : Prop where
  present : Mb.p.get e = if d.p then 1 else 0
  pageSize : Mb.ps.get e = 1
  frame : Mb.physicalAddress.get e = d.physicalAddress
  user : decide (Mb.uS.get e = 1) = d.uS

/-- The tables are as `s` says. -/
structure Describes (L : Layout) (t : PageTables) (s : PageState) : Prop where
  video : RefersTo (t.pageDirectory 0)
    (if s.vidmapped then L.vidmapPageTable >>> 12 else L.firstPageTable >>> 12) s.vidmapped
  kernel : MapsLarge (t.pageDirectory 1) 1 false
  program : ProgramEntry (t.pageDirectory 32) s.program
  directory : ∀ i, i ≠ 0 → i ≠ 1 → i ≠ 32 → Absent (t.pageDirectory i)
  first : ∀ i, IsVideoPage i.val → MapsSmall (t.firstPageTable i) i false
  firstRest : ∀ i, ¬ IsVideoPage i.val → Absent (t.firstPageTable i)
  vidmap : s.vidmapped = true → ∀ i, IsVideoPage i.val → MapsSmall (t.vidmapPageTable i)
    (if i.val = vidmemIndex then s.vidmemPage else i) true
  vidmapRest : ∀ i, ¬ IsVideoPage i.val → Absent (t.vidmapPageTable i)

theorem ProgramEntry.absent {e : Entry} {d : Pde} (h : ProgramEntry e d) (hd : d.p = false) :
    Absent e := by
  have := h.present
  rwa [hd] at this

theorem ProgramEntry.mapsLarge {e : Entry} {d : Pde} (h : ProgramEntry e d) (hd : d.p = true) :
    MapsLarge e d.physicalAddress d.uS := by
  have hp := h.present
  rw [hd] at hp
  exact ⟨hp, h.pageSize, h.frame, h.user⟩

/-- The processor's translation of every address. -/
theorem translate_eq {L : Layout} {t : PageTables} {s : PageState} (h : Describes L t s)
    (other : Memory) (a : BitVec 32) :
    translate (L.memory t other) L.cr3 a = s.lookup a.toNat := by
  have ha := a.isLt
  have hdir : L.memory t other L.cr3 = t.pageDirectory := L.memory_pageDirectory t other
  by_cases h0 : a.toNat / 2 ^ 22 = 0
  · -- the first 4 MB: through one of the two page tables
    have hi : Paging32.dirIndex a = 0 := Fin.ext h0
    have hindex : (Paging32.tableIndex a).val = a.toNat / 0x1000 := by
      show a.toNat / 2 ^ 12 % 1024 = a.toNat / 0x1000
      omega
    have hvideo := h.video
    rw [← hi, ← hdir] at hvideo
    cases hv : s.vidmapped with
    | false =>
      simp only [hv] at hvideo
      have hmem := L.memory_firstPageTable t other
      by_cases hp : IsVideoPage (a.toNat / 0x1000)
      · have hpte := h.first (Paging32.tableIndex a) (by rwa [hindex])
        rw [← hmem] at hpte
        rw [Paging32.translate_small hvideo hpte, PageState.lookup, if_pos hp, hv, hindex]
        simp
        omega
      · have hpte := h.firstRest (Paging32.tableIndex a) (by rwa [hindex])
        rw [← hmem] at hpte
        rw [Paging32.translate_small_absent hvideo hpte, PageState.lookup, if_neg hp,
          if_neg (by omega), if_neg (by omega)]
    | true =>
      simp only [hv] at hvideo
      have hmem := L.memory_vidmapPageTable t other
      by_cases hp : IsVideoPage (a.toNat / 0x1000)
      · have hpte := h.vidmap hv (Paging32.tableIndex a) (by rwa [hindex])
        rw [← hmem] at hpte
        rw [Paging32.translate_small hvideo hpte, PageState.lookup, if_pos hp, hv, hindex]
        by_cases hvm : a.toNat / 0x1000 = vidmemIndex
        · simp [hvm]
        · simp [hvm]
          omega
      · have hpte := h.vidmapRest (Paging32.tableIndex a) (by rwa [hindex])
        rw [← hmem] at hpte
        rw [Paging32.translate_small_absent hvideo hpte, PageState.lookup, if_neg hp,
          if_neg (by omega), if_neg (by omega)]
  · have hp : ¬ IsVideoPage (a.toNat / 0x1000) := by
      simp only [IsVideoPage, vidmemIndex, term3Index]
      omega
    by_cases h1 : a.toNat / 2 ^ 22 = 1
    · have hi : Paging32.dirIndex a = 1 := Fin.ext h1
      have hkernel := h.kernel
      rw [← hi, ← hdir] at hkernel
      rw [Paging32.translate_large hkernel, PageState.lookup, if_neg hp, if_pos (by omega)]
      simp only [Option.some.injEq, Mapping.mk.injEq, and_true]
      omega
    · by_cases h32 : a.toNat / 2 ^ 22 = 32
      · have hi : Paging32.dirIndex a = 32 := Fin.ext h32
        have hprogram := h.program
        rw [← hi, ← hdir] at hprogram
        cases hd : s.program.p with
        | false =>
          rw [Paging32.translate_absent (hprogram.absent hd), PageState.lookup, if_neg hp,
            if_neg (by omega), if_neg (by rw [hd]; simp)]
        | true =>
          rw [Paging32.translate_large (hprogram.mapsLarge hd), PageState.lookup, if_neg hp,
            if_neg (by omega), if_pos ⟨by omega, by omega, hd⟩]
          simp only [Option.some.injEq, Mapping.mk.injEq, and_true]
          omega
      · have habsent := h.directory (Paging32.dirIndex a) (fun heq => h0 (congrArg Fin.val heq))
          (fun heq => h1 (congrArg Fin.val heq)) fun heq => h32 (congrArg Fin.val heq)
        rw [← hdir] at habsent
        rw [Paging32.translate_absent habsent, PageState.lookup, if_neg hp, if_neg (by omega),
          if_neg (by omega)]

/-! ## Every edit -/

namespace PageTables

variable {L : Layout} {t : PageTables} {s : PageState}

theorem initMb_entry (i : Nat) (hi : i < 1024) (e : Entry) :
    Mb.p.get (initMb i e) = (if i = 1 then 1 else 0) ∧ Mb.ps.get (initMb i e) = 1 ∧
      Mb.uS.get (initMb i e) = 0 ∧ Mb.physicalAddress.get (initMb i e) = i := by
  simp (disch := decide) only [initMb, assign, List.foldl, Field.get_set,
    Field.get_set_of_disjoint]
  refine ⟨?_, rfl, rfl, Nat.mod_eq_of_lt hi⟩
  split <;> rfl

theorem initPte_entry (g i : Nat) (hi : i < 1024) (e : Entry) :
    Pte.p.get (initPte g i e) = 0 ∧ Pte.uS.get (initPte g i e) = 0 ∧
      Pte.physicalAddress.get (initPte g i e) = i := by
  simp (disch := decide) only [initPte, assign, List.foldl, Field.get_set,
    Field.get_set_of_disjoint]
  exact ⟨rfl, rfl, Nat.mod_eq_of_lt (by omega)⟩

/-- Nothing is mapped for user mode after `paging_init`, whatever the tables held before. -/
theorem pagingInit_describes (t : PageTables) (L : Layout) :
    Describes L (t.pagingInit L) ⟨⟨32, false, false⟩, false, vidmemIndex⟩ := by
  refine ⟨?_, ?_, ?_, fun i h0 h1 _ => ?_, fun i hi => ?_, fun i hi => ?_,
    fun hv => absurd hv (by decide), fun i _ => ?_⟩
  · refine ⟨?_, ?_, ?_, ?_⟩ <;>
      simp (disch := decide) only [pagingInit, Fin.val_zero, if_true, initKb, assign, List.foldl,
        Field.get_set, Field.get_set_of_disjoint, Nat.reducePow, Nat.reduceMod]
    · exact Nat.mod_eq_of_lt L.frame_lt.1
    · rfl
  · obtain ⟨hp, hs, hu, hf⟩ := initMb_entry 1 (by decide) (t.pageDirectory 1)
    refine ⟨hp, hs, hf, ?_⟩
    show decide (Mb.uS.get (initMb 1 (t.pageDirectory 1)) = 1) = false
    rw [hu]
    rfl
  · obtain ⟨hp, hs, hu, hf⟩ := initMb_entry 32 (by decide) (t.pageDirectory 32)
    refine ⟨hp, hs, hf, ?_⟩
    show decide (Mb.uS.get (initMb 32 (t.pageDirectory 32)) = 1) = false
    rw [hu]
    rfl
  · obtain ⟨hp, _⟩ := initMb_entry i.val i.isLt (t.pageDirectory i)
    have hi0 : i.val ≠ 0 := fun h => h0 (Fin.ext h)
    have hi1 : i.val ≠ 1 := fun h => h1 (Fin.ext h)
    rw [if_neg hi1] at hp
    simp only [pagingInit, if_neg hi0]
    exact hp
  · obtain ⟨_, hu, hf⟩ := initPte_entry 0 i.val i.isLt (t.firstPageTable i)
    have hshown : i.val = 184 ∨ i.val = 185 ∨ i.val = 186 ∨ i.val = 187 := by
      simp only [IsVideoPage, vidmemIndex, term3Index] at hi
      omega
    simp only [pagingInit, if_pos hshown]
    refine ⟨?_, ?_, ?_⟩ <;>
      simp (disch := decide) only [assign, List.foldl, Field.get_set, Field.get_set_of_disjoint,
        Nat.reducePow, Nat.reduceMod]
    · exact hf
    · rw [hu]
      rfl
  · obtain ⟨hp, _⟩ := initPte_entry 0 i.val i.isLt (t.firstPageTable i)
    have hnot : ¬ (i.val = 184 ∨ i.val = 185 ∨ i.val = 186 ∨ i.val = 187) := by
      simp only [IsVideoPage, vidmemIndex, term3Index] at hi
      omega
    simp only [pagingInit, if_neg hnot]
    exact hp
  · exact (initPte_entry 1 i.val i.isLt (t.vidmapPageTable i)).1

theorem mapProgramMem_pid (t : PageTables) (q : Pid) : t.mapProgramMem q.val =
    (0, t.editDir 32 (assign [(Mb.physicalAddress, 2 + q.val), (Mb.p, 1), (Mb.uS, 1)])) := by
  have hpid : (2 + (q.val : Int)).toNat = 2 + q.val := by omega
  rw [mapProgramMem, if_neg (by omega), hpid]

theorem editDir_self (t : PageTables) {i : Nat} (f : Entry → Entry) {j : Fin 1024}
    (h : j.val = i) : (t.editDir i f).pageDirectory j = f (t.pageDirectory j) := if_pos h

theorem editDir_of_ne (t : PageTables) {i : Nat} (f : Entry → Entry) {j : Fin 1024}
    (h : j.val ≠ i) : (t.editDir i f).pageDirectory j = t.pageDirectory j := if_neg h

theorem editVidmap_self (t : PageTables) {i : Nat} (f : Entry → Entry) {j : Fin 1024}
    (h : j.val = i) : (t.editVidmap i f).vidmapPageTable j = f (t.vidmapPageTable j) := if_pos h

theorem editVidmap_of_ne (t : PageTables) {i : Nat} (f : Entry → Entry) {j : Fin 1024}
    (h : j.val ≠ i) : (t.editVidmap i f).vidmapPageTable j = t.vidmapPageTable j := if_neg h

theorem mapProgramMem_describes (h : Describes L t s) (q : Pid) :
    Describes L (t.mapProgramMem q.val).2 { s with program := pdeOf q } := by
  rw [mapProgramMem_pid]
  refine ⟨?_, ?_, ?_, fun i h0 h1 h32 => ?_, h.first, h.firstRest, h.vidmap, h.vidmapRest⟩
  · rw [t.editDir_of_ne _ (by decide)]
    exact h.video
  · rw [t.editDir_of_ne _ (by decide)]
    exact h.kernel
  · rw [t.editDir_self _ (show (32 : Fin 1024).val = 32 from rfl)]
    refine ⟨?_, ?_, ?_, ?_⟩ <;>
      simp (disch := decide) only [assign, List.foldl, Field.get_set, Field.get_set_of_disjoint,
        Nat.reducePow, Nat.reduceMod]
    · rfl
    · exact h.program.pageSize
    · exact Nat.mod_eq_of_lt (show 2 + q.val < 1024 by omega)
    · rfl
  · have hi : i.val ≠ 32 := fun heq => h32 (Fin.ext heq)
    rw [t.editDir_of_ne _ hi]
    exact h.directory i h0 h1 h32

/-- The frame of a page that is already open is set. -/
theorem setVidmem_describes (h : Describes L t s) {page : Nat} (hp : page < 2 ^ 20) :
    Describes L (t.setVidmem page) { s with vidmemPage := page } := by
  refine ⟨h.video, h.kernel, h.program, h.directory, h.first, h.firstRest, fun hv i hi => ?_,
    fun i hi => ?_⟩
  · have hi' := h.vidmap hv i hi
    by_cases heq : i.val = vidmemIndex
    · rw [setVidmem, t.editVidmap_self _ heq, if_pos heq]
      refine ⟨?_, ?_, ?_⟩ <;>
        simp (disch := decide) only [assign, List.foldl, Field.get_set, Field.get_set_of_disjoint]
      · exact hi'.present
      · exact Nat.mod_eq_of_lt hp
      · exact hi'.user
    · rw [setVidmem, t.editVidmap_of_ne _ heq, if_neg heq]
      rwa [if_neg heq] at hi'
  · have heq : i.val ≠ vidmemIndex := fun heq => hi (by rw [heq]; decide)
    rw [setVidmem, t.editVidmap_of_ne _ heq]
    exact h.vidmapRest i hi

theorem openPage_self (t : PageTables) {i : Nat} (hi : i < 1024) {j : Fin 1024} (h : j.val = i) :
    MapsSmall ((t.openPage i).vidmapPageTable j) i true := by
  rw [openPage, t.editVidmap_self _ h]
  refine ⟨?_, ?_, ?_⟩ <;>
    simp (disch := decide) only [assign, List.foldl, Field.get_set, Field.get_set_of_disjoint,
      Nat.reducePow, Nat.reduceMod]
  · exact Nat.mod_eq_of_lt (show i < 1048576 by omega)
  · rfl

theorem openPage_of_ne (t : PageTables) {i : Nat} {j : Fin 1024} (h : j.val ≠ i) :
    (t.openPage i).vidmapPageTable j = t.vidmapPageTable j := t.editVidmap_of_ne _ h

theorem vidmap_describes (h : Describes L t s) {start : Nat} (hlo : Kernel.usrmemBottom ≤ start)
    (hhi : start ≤ Kernel.usrmemTop) :
    Describes L (t.vidmap L start).2 { s with vidmapped := true, vidmemPage := vidmemIndex } := by
  have hcall : ¬ (start < Kernel.usrmemBottom ∨ Kernel.usrmemTop < start) := by omega
  rw [vidmap, if_neg hcall]
  refine ⟨?_, ?_, ?_, fun i h0 h1 h32 => ?_, h.first, h.firstRest, fun _ i hi => ?_, fun i hi => ?_⟩
  · refine ⟨?_, ?_, ?_, ?_⟩ <;>
      simp (disch := decide) only [openPage, editVidmap, editDir, Fin.val_zero, if_true, assign,
        List.foldl, Field.get_set, Field.get_set_of_disjoint, Nat.reducePow, Nat.reduceMod]
    · exact h.video.pageSize
    · exact Nat.mod_eq_of_lt L.frame_lt.2
    · rfl
  · exact h.kernel
  · exact h.program
  · have hi : i.val ≠ 0 := fun heq => h0 (Fin.ext heq)
    have hentry := h.directory i h0 h1 h32
    rwa [← t.editDir_of_ne _ hi] at hentry
  · -- the last `openPage` of page `i` is the only one that touches it
    have hpage : i.val = vidmemIndex ∨ i.val = term1Index ∨ i.val = term2Index ∨
        i.val = term3Index := by
      simp only [IsVideoPage, vidmemIndex, term1Index, term2Index, term3Index] at hi ⊢
      omega
    rcases hpage with heq | heq | heq | heq
    · rw [openPage_of_ne _ (by rw [heq]; decide), openPage_of_ne _ (by rw [heq]; decide),
        openPage_of_ne _ (by rw [heq]; decide), if_pos heq]
      exact openPage_self _ (by decide) heq
    · rw [openPage_of_ne _ (by rw [heq]; decide), openPage_of_ne _ (by rw [heq]; decide),
        if_neg (by rw [heq]; decide), heq]
      exact openPage_self _ (by decide) heq
    · rw [openPage_of_ne _ (by rw [heq]; decide), if_neg (by rw [heq]; decide), heq]
      exact openPage_self _ (by decide) heq
    · rw [if_neg (by rw [heq]; decide), heq]
      exact openPage_self _ (by decide) heq
  · have hne : ∀ j, IsVideoPage j → i.val ≠ j := fun j hj heq => hi (heq ▸ hj)
    rw [openPage_of_ne _ (hne _ (by decide)), openPage_of_ne _ (hne _ (by decide)),
      openPage_of_ne _ (hne _ (by decide)), openPage_of_ne _ (hne _ (by decide))]
    exact h.vidmapRest i hi

end PageTables
end DeviceOS
