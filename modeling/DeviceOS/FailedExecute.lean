import DeviceOS.Loader
import DeviceOS.Machine

/-!
# DeviceOS.FailedExecute

What a failing `execute` leaves behind. `execute` maps the program page of the new process before
it copies the program, and does not map the caller's page again when the copy fails.

* `execute_failure_unchanged_iff`: exactly when a failing `execute` changes nothing that a live
  process can see.
-/

namespace DeviceOS
namespace Proc

/-- The process tables and everything that belongs to a live process are as in `p`. -/
structure Unchanged (p p' : Proc) : Prop where
  pidMask : p'.pidMask = p.pidMask
  pidArr : p'.pidArr = p.pidArr
  shellMask : p'.shellMask = p.shellMask
  typingMask : p'.typingMask = p.typingMask
  tss : p'.tss = p.tss
  pageDirectory32 : p'.pageDirectory32 = p.pageDirectory32
  pcb : ∀ q, p.pidMask q = true → p'.pcbArray q = p.pcbArray q ∧ p'.pcb q = p.pcb q
  progMem : ∀ q, p.pidMask q = true → p'.progMem (2 + q.val) = p.progMem (2 + q.val)

theorem Unchanged.refl (p : Proc) : p.Unchanged p :=
  ⟨rfl, rfl, rfl, rfl, rfl, rfl, fun _ _ => ⟨rfl, rfl⟩, fun _ _ => rfl⟩

/-- After the copy failed, only the program page can differ. -/
theorem Stored.unchanged_iff {p p' : Proc} {cur : Term} {q : Pid} (hq : p.pidMask q = false)
    (h : (p.prepared cur q).Stored p') : p.Unchanged p' ↔ p.pageDirectory32 = pdeOf q := by
  obtain ⟨mem, rfl, hmem⟩ := h
  have hne : ∀ q', p.pidMask q' = true → q' ≠ q := by
    rintro q' hq' rfl
    rw [hq] at hq'
    cases hq'
  refine ⟨fun h => h.pageDirectory32.symm, fun h => ⟨rfl, rfl, rfl, rfl, rfl, h.symm, ?_, ?_⟩⟩
  · intro q' hq'
    simp [prepared, createPcb, mapProgramMem, Function.update_of_ne (hne q' hq')]
  · intro q' hq'
    have := Fin.val_ne_of_ne (hne q' hq')
    exact hmem _ (show 2 + q'.val ≠ 2 + q.val by omega)

/-- A failing `execute` leaves the caller as it was, unless it fails while it copies the program
and the caller's page is another one than the page of the pid it was going to use. -/
theorem execute_failure_unchanged_iff (img : Image) (cur : Term) (p : Proc)
    (command : Option CString) (regs : Frame) :
    (∀ p', p.execute img cur command regs = .ret (-1) p' → p.Unchanged p') ↔
      ¬ ∃ q prog, p.Finds img command q prog ∧ img.badBlock (img.inodes prog.inode) = true ∧
        p.pageDirectory32 ≠ pdeOf q := by
  constructor
  · rintro h ⟨q, prog, hf, hb, hne⟩
    obtain ⟨p', hst, heq⟩ := execute_badBlock cur regs hf hb
    exact hne ((hst.unchanged_iff (freePid_spec hf.freePid)).mp (h p' heq))
  · intro h p' heq
    rcases execute_cases img cur p command regs with ⟨h1, _⟩ | ⟨f, h1⟩ | ⟨q, prog, p1, hf, hb, hst, h1⟩ |
      ⟨q, prog, p1, hl, hst, h1⟩
    · rw [h1] at heq
      cases heq
      exact .refl p
    · rw [h1] at heq
      cases heq
    · rw [h1] at heq
      cases heq
      refine (hst.unchanged_iff (freePid_spec hf.freePid)).mpr ?_
      by_contra hne
      exact h ⟨q, prog, hf, hb, hne⟩
    · rw [h1] at heq
      cases heq

end Proc

namespace Machine

/-- The first shell can run `bad`, whose second block cannot be read. -/
theorem shell_finds_bad : ∃ m prog, EventSystem.run (step disk) booted [.tick 0 0] = some m ∧
    m.program = some 0 ∧ m.kern.proc.pageDirectory32 = pdeOf 0 ∧
    m.kern.proc.Finds disk (some badName) 1 prog ∧
    disk.badBlock (disk.inodes prog.inode) = true := by
  have hrun : (EventSystem.run (step disk) booted [.tick 0 0]).map
      (fun m => (m.program, m.kern.proc.pageDirectory32, m.kern.proc.freePid)) =
        some (some 0, pdeOf 0, some 1) := by
    decide +kernel
  obtain ⟨m, hm, hp⟩ := Option.map_eq_some_iff.mp hrun
  simp only [Prod.mk.injEq] at hp
  obtain ⟨hprog, hpage, hfree⟩ := hp
  have hbad : ((findProgram disk badName).toOption.join.map fun prog =>
      disk.badBlock (disk.inodes prog.inode)) = some true := by
    decide +kernel
  obtain ⟨prog, hfind, hb⟩ := Option.map_eq_some_iff.mp hbad
  exact ⟨m, prog, hm, hprog, hpage, ⟨hfree, _, rfl, Proc.eq_ok_of_join hfind⟩, hb⟩

/-- The first shell runs `bad`: the call fails, and the page of process 1 stays mapped. -/
theorem execute_failure_changes_page :
    ¬ ∀ (img : Image) (m0 : Machine) (es : List Event) (m : Machine) (command : Option CString)
        (regs : Frame) (p' : Proc), Boot m0 → EventSystem.run (step img) m0 es = some m →
        m.kern.proc.execute img m.kern.con.curTerminal command regs = .ret (-1) p' →
        m.kern.proc.Unchanged p' := by
  intro h
  obtain ⟨m, prog, hm, _, hpage, hfinds, hbad⟩ := shell_finds_bad
  obtain ⟨p', hst, heq⟩ := Proc.execute_badBlock m.kern.con.curTerminal ⟨0, 0, some 0⟩
    hfinds hbad
  have := (hst.unchanged_iff (Proc.freePid_spec hfinds.freePid)).mp
    (h disk booted _ m _ _ p' boot_booted hm heq)
  rw [hpage] at this
  exact absurd (pdeOf_injective this) (by decide)

end Machine
end DeviceOS
