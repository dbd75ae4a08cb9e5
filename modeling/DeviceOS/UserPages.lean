import DeviceOS.Paging
import DeviceOS.VideoMapping

/-!
# DeviceOS.UserPages

What user mode can reach, in every sequence of edits of the page tables.

* `PagingOp`: the functions that edit the tables after `paging_init`. Each of them keeps `Describes`
  (`apply_describes`), so the tables are always those of a `PageState`.
* `user_mode_confined`: user mode reaches the page of the program that was mapped last and the four
  video pages, and nothing else; the kernel's 4 MB are mapped to themselves for supervisor mode.
-/

namespace DeviceOS

open Paging32 (Memory Mapping translate)

/-- A call of a function that edits the tables, with what it reads elsewhere: for `schedule`, the
terminal that it schedules, the displayed one, the process of the terminal and the pid for which the
`execute` of a base shell gets to `map_program_mem`. -/
inductive PagingOp where
  | mapProgramMem (p : Pid)
  | vidmap (screenStart : Nat)
  | switchTerminal (tpi : Option Term) (keycode : Nat)
  | schedule (tpi cur : Term) (pid shell : Option Pid)

namespace PagingOp

def apply (L : Layout) (t : PageTables) : PagingOp → PageTables
  | .mapProgramMem p => (t.mapProgramMem p.val).2
  | .vidmap screenStart => (t.vidmap L screenStart).2
  | .switchTerminal tpi keycode => t.switchTerminal tpi keycode
  | .schedule tpi cur pid shell => t.schedule tpi cur pid shell

/-- The process whose program the call maps. -/
def mapped : PagingOp → Option Pid
  | .mapProgramMem p => some p
  | .schedule _ _ pid shell => pid.or shell
  | _ => none

/-- The last process whose program was mapped. -/
def lastMapped (ops : List PagingOp) : Option Pid := ops.foldl (fun last op => op.mapped.or last) none

end PagingOp

namespace PageState

/-- What the call does to the page state. -/
def next (s : PageState) : PagingOp → PageState
  | .mapProgramMem p => { s with program := pdeOf p }
  | .vidmap screenStart =>
    if screenStart < Kernel.usrmemBottom ∨ Kernel.usrmemTop < screenStart then s
    else { s with vidmapped := true, vidmemPage := vidmemIndex }
  | .switchTerminal tpi keycode =>
    if h : (keycode + 256 - 0x3B) % 256 < 3 then
      { s with vidmemPage :=
          if tpi ≠ some ⟨(keycode + 256 - 0x3B) % 256, h⟩ then Console.termPage tpi
          else vidmemIndex }
    else s
  | .schedule tpi cur (some q) _ =>
    { s with program := pdeOf q, vidmemPage := Machine.videoPage cur tpi }
  | .schedule _ _ none (some q) => { s with program := pdeOf q }
  | .schedule _ _ none none => s

/-- The state after `paging_init`. -/
def init : PageState := ⟨⟨32, false, false⟩, false, vidmemIndex⟩

/-- Directory entry 32 after calls of which the last one that mapped a program mapped that of
`last`. -/
def programOf : Option Pid → Pde
  | none => ⟨32, false, false⟩
  | some p => pdeOf p

end PageState

variable {L : Layout} {t : PageTables} {s : PageState}

theorem termPage_isVideoPage (tpi : Option Term) : IsVideoPage (Console.termPage tpi) := by
  cases tpi with
  | none => decide
  | some u =>
    simp only [IsVideoPage, Console.termPage, vidmemIndex, term1Index, term3Index]
    omega

theorem videoPage_isVideoPage (cur u : Term) : IsVideoPage (Machine.videoPage cur u) := by
  simp only [Machine.videoPage, IsVideoPage, vidmemIndex, term1Index, term3Index]
  split <;> omega

theorem IsVideoPage.lt {i : Nat} (h : IsVideoPage i) : i < 2 ^ 20 := by
  simp only [IsVideoPage, term3Index] at h
  omega

/-- Every call keeps the tables those of a page state. -/
theorem apply_describes (h : Describes L t s) (op : PagingOp) :
    Describes L (op.apply L t) (s.next op) := by
  cases op with
  | mapProgramMem p => exact PageTables.mapProgramMem_describes h p
  | vidmap screenStart =>
    simp only [PagingOp.apply, PageState.next]
    split
    · rename_i hout
      rw [PageTables.vidmap, if_pos hout]
      exact h
    · exact PageTables.vidmap_describes h (by omega) (by omega)
  | switchTerminal tpi keycode =>
    simp only [PagingOp.apply, PageState.next, PageTables.switchTerminal]
    split
    · have h1 : Describes L (t.setVidmem vidmemIndex) { s with vidmemPage := vidmemIndex } :=
        PageTables.setVidmem_describes h (by decide)
      split
      · exact PageTables.setVidmem_describes h1 (termPage_isVideoPage tpi).lt
      · exact h1
    · exact h
  | schedule tpi cur pid shell =>
    cases pid with
    | some q =>
      have h1 := PageTables.mapProgramMem_describes h q
      simp only [PagingOp.apply, PageState.next, PageTables.schedule, Machine.videoPage]
      split
      · exact PageTables.setVidmem_describes h1 (termPage_isVideoPage (some tpi)).lt
      · exact PageTables.setVidmem_describes h1 (by decide)
    | none =>
      cases shell with
      | some q => exact PageTables.mapProgramMem_describes h q
      | none => exact h

theorem next_program {last : Option Pid} (h : s.program = PageState.programOf last)
    (op : PagingOp) : (s.next op).program = PageState.programOf (op.mapped.or last) := by
  cases op with
  | mapProgramMem p => rfl
  | vidmap screenStart =>
    simp only [PageState.next, PagingOp.mapped, Option.none_or]
    split <;> exact h
  | switchTerminal tpi keycode =>
    simp only [PageState.next, PagingOp.mapped, Option.none_or]
    split <;> exact h
  | schedule tpi cur pid shell =>
    cases pid with
    | some q => rfl
    | none =>
      cases shell with
      | some q => rfl
      | none => exact h

theorem next_vidmemPage (h : IsVideoPage s.vidmemPage) (op : PagingOp) :
    IsVideoPage (s.next op).vidmemPage := by
  cases op with
  | mapProgramMem p => exact h
  | vidmap screenStart =>
    simp only [PageState.next]
    split
    · exact h
    · exact (by decide : IsVideoPage vidmemIndex)
  | switchTerminal tpi keycode =>
    simp only [PageState.next]
    split
    · simp only
      split
      · exact termPage_isVideoPage tpi
      · exact (by decide : IsVideoPage vidmemIndex)
    · exact h
  | schedule tpi cur pid shell =>
    cases pid with
    | some q => exact videoPage_isVideoPage cur tpi
    | none => cases shell <;> exact h

/-- What holds after every sequence of calls. -/
structure TablesInv (L : Layout) (t : PageTables) (s : PageState) (last : Option Pid) : Prop where
  describes : Describes L t s
  program : s.program = PageState.programOf last
  vidmemPage : IsVideoPage s.vidmemPage

theorem TablesInv.next {last : Option Pid} (h : TablesInv L t s last) (op : PagingOp) :
    TablesInv L (op.apply L t) (s.next op) (op.mapped.or last) :=
  ⟨apply_describes h.describes op, next_program h.program op, next_vidmemPage h.vidmemPage op⟩

theorem TablesInv.run (ops : List PagingOp) : ∀ {t : PageTables} {s : PageState} {last : Option Pid},
    TablesInv L t s last → TablesInv L (ops.foldl (PagingOp.apply L) t) (ops.foldl PageState.next s)
      (ops.foldl (fun last op => op.mapped.or last) last) := by
  induction ops with
  | nil => exact fun h => h
  | cons op ops ih => exact fun h => ih (h.next op)

theorem tablesInv_init (t : PageTables) (L : Layout) :
    TablesInv L (t.pagingInit L) PageState.init none :=
  ⟨PageTables.pagingInit_describes t L, rfl, by decide⟩

/-! ## What user mode reaches -/

/-- User mode is confined to the program of `last` and the four video pages. -/
structure Confined (tr : BitVec 32 → Option Mapping) (last : Option Pid) : Prop where
  user : ∀ a x, tr a = some x → x.user = true →
    (0x8000000 ≤ a.toNat ∧ a.toNat < 0x8400000 ∧ ∃ p, last = some p ∧
      x.phys = 0x800000 + 0x400000 * p.val + (a.toNat - 0x8000000)) ∨
    (0xB8000 ≤ a.toNat ∧ a.toNat < 0xBC000 ∧ 0xB8000 ≤ x.phys ∧ x.phys < 0xBC000)
  kernel : ∀ a, 0x400000 ≤ a.toNat → a.toNat < 0x800000 → tr a = some ⟨a.toNat, false⟩
  fault : ∀ a, ¬ (0xB8000 ≤ a.toNat ∧ a.toNat < 0xBC000) →
    ¬ (0x400000 ≤ a.toNat ∧ a.toNat < 0x800000) →
    (last = none ∨ ¬ (0x8000000 ≤ a.toNat ∧ a.toNat < 0x8400000)) → tr a = none

theorem isVideoPage_iff (a : Nat) : IsVideoPage (a / 0x1000) ↔ 0xB8000 ≤ a ∧ a < 0xBC000 := by
  simp only [IsVideoPage, vidmemIndex, term3Index]
  omega

theorem TablesInv.confined {last : Option Pid} (h : TablesInv L t s last) (other : Memory) :
    Confined (translate (L.memory t other) L.cr3) last := by
  have htr := translate_eq h.describes other
  refine ⟨fun a x hx hu => ?_, fun a h1 h2 => ?_, fun a h1 h2 h3 => ?_⟩
  · rw [htr a, PageState.lookup] at hx
    by_cases hv : IsVideoPage (a.toNat / 0x1000)
    · rw [if_pos hv] at hx
      cases hx
      obtain ⟨hlo, hhi⟩ := (isVideoPage_iff a.toNat).mp hv
      refine Or.inr ⟨hlo, hhi, ?_⟩
      have hpage := h.vidmemPage
      simp only [IsVideoPage, vidmemIndex, term3Index] at hpage
      split <;> simp only <;> omega
    · rw [if_neg hv] at hx
      by_cases hk : 0x400000 ≤ a.toNat ∧ a.toNat < 0x800000
      · rw [if_pos hk] at hx
        cases hx
        cases hu
      · rw [if_neg hk] at hx
        by_cases hp : 0x8000000 ≤ a.toNat ∧ a.toNat < 0x8400000 ∧ s.program.p = true
        · rw [if_pos hp, Option.some.injEq] at hx
          subst hx
          obtain ⟨hlo, hhi, hpresent⟩ := hp
          refine Or.inl ⟨hlo, hhi, ?_⟩
          rw [h.program] at hpresent ⊢
          cases last with
          | none => cases hpresent
          | some p =>
            refine ⟨p, rfl, ?_⟩
            simp only [PageState.programOf, pdeOf]
            omega
        · rw [if_neg hp] at hx
          cases hx
  · rw [htr a, PageState.lookup, if_neg (by rw [isVideoPage_iff]; omega), if_pos ⟨h1, h2⟩]
  · rw [htr a, PageState.lookup, if_neg (by rwa [isVideoPage_iff]), if_neg h2, if_neg]
    rintro ⟨hlo, hhi, hp⟩
    rcases h3 with rfl | h3
    · rw [h.program] at hp
      cases hp
    · exact h3 ⟨hlo, hhi⟩

/-- After `paging_init`, whatever the tables and the rest of memory held before, and any sequence of
calls that edit the tables. -/
theorem user_mode_confined (L : Layout) (t : PageTables) (other : Memory) (ops : List PagingOp) :
    Confined (translate (L.memory (ops.foldl (PagingOp.apply L) (t.pagingInit L)) other) L.cr3)
      (PagingOp.lastMapped ops) :=
  ((tablesInv_init t L).run ops).confined other

end DeviceOS
