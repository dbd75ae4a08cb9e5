import DeviceOS.DescriptorTable
import DeviceOS.RtcSharing

/-!
# DeviceOS.OpenDrivers

Which operations `open` calls through and binds, on an image whose entries may have any type.

* `driverOf`: the operations of a file type.
* `openCalls`: the operations pointer that `open` calls through.
* `OpensByType`: what `open` binds is what the type of the entry says. The `switch` of `open` has no
  default, so this holds exactly when no entry of another type meets a free slot
  (`open_binds_by_type`).
-/

namespace DeviceOS

/-- The operations of a device, a directory and a file. -/
def driverOf (filetype : BitVec 32) : Option Fops :=
  if filetype = 0 then some .rtc
  else if filetype = 1 then some .dir
  else if filetype = 2 then some .file
  else none

theorem driverOf_eq_some {t : BitVec 32} {o : Fops} : driverOf t = some o ↔
    (t = 0 ∧ o = .rtc) ∨ (t = 1 ∧ o = .dir) ∨ (t = 2 ∧ o = .file) := by
  unfold driverOf
  constructor
  · intro h
    split at h
    · rename_i h0
      cases h
      exact Or.inl ⟨h0, rfl⟩
    · split at h
      · rename_i h1
        cases h
        exact Or.inr (Or.inl ⟨h1, rfl⟩)
      · split at h
        · rename_i h2
          cases h
          exact Or.inr (Or.inr ⟨h2, rfl⟩)
        · cases h
  · rintro (⟨rfl, rfl⟩ | ⟨rfl, rfl⟩ | ⟨rfl, rfl⟩) <;> rfl

/-- `name` is found, and `entry` is what is found. -/
def Image.Finds (img : Image) (name : Option CString) (entry : Dentry) : Prop :=
  ∃ fname, name = some fname ∧ img.readDentryByName fname = .ok (some entry)

theorem Image.Finds.read {img : Image} {fname : CString} {entry : Dentry}
    (h : img.Finds (some fname) entry) : img.readDentryByName fname = .ok (some entry) := by
  obtain ⟨_, hname, hs⟩ := h
  cases hname
  exact hs

namespace Kernel

variable {img : Image} {k k' : Kernel} {q : Pid} {name : Option CString}

/-- The `switch` keeps the old pointer where the type has no operations. -/
theorem fopsOfType_or (t : BitVec 32) (old : Option Fops) :
    fopsOfType t old = (driverOf t).or old := by
  unfold fopsOfType driverOf
  split
  · rfl
  · split
    · rfl
    · split <;> rfl

/-- The pointer through which `open` calls; `none` when it returns before the call. -/
def openCalls (img : Image) (k : Kernel) (name : Option CString) : Option (Option Fops) :=
  k.currPid.bind fun q =>
    if k.proc.pcbArray q = false then none
    else
      match freeFd (k.proc.pcb q), name with
      | some w, some fname =>
        match img.readDentryByName fname with
        | .ok (some entry) => some (fopsOfType entry.filetype (k.proc.fd q w).fopsPtr)
        | _ => none
      | _, _ => none

/-- An entry of type 0, 1 or 2 is bound to its operations, any other is refused, and the call of
`open` itself goes through no other pointer. -/
structure OpensByType (img : Image) (k : Kernel) (q : Pid) (name : Option CString) : Prop where
  bound : ∀ v k', k.open' img name = some (v, k') → v ≠ -1 →
    ∃ (w : Fin 8) (entry : Dentry) (o : Fops), v = w.val ∧ img.Finds name entry ∧
      driverOf entry.filetype = some o ∧ (k'.proc.fd q w).fopsPtr = some o
  refused : ∀ entry, img.Finds name entry → driverOf entry.filetype = none →
    ∃ k', k.open' img name = some (-1, k')
  called : ∀ ptr, openCalls img k name = some ptr →
    ∃ (entry : Dentry) (o : Fops), img.Finds name entry ∧ driverOf entry.filetype = some o ∧
      ptr = some o

/-- The entry found has none of the three types, and `open` gets as far as its `switch`. -/
def Mistyped (img : Image) (k : Kernel) (q : Pid) (name : Option CString) : Prop :=
  k.proc.pcbArray q = true ∧ (∃ w, FdTable.Free (k.proc.fd q) w) ∧
    ∃ entry, img.Finds name entry ∧ driverOf entry.filetype = none

/-- How far `open` gets. -/
inductive OpenStage (img : Image) (k : Kernel) (q : Pid) (name : Option CString) : Prop
  | early : openCalls img k name = none → k.open' img name = some (-1, k) →
      (∀ entry, img.Finds name entry →
        k.proc.pcbArray q = false ∨ ∀ w, ¬ FdTable.Free (k.proc.fd q) w) → OpenStage img k q name
  | pastEnd : openCalls img k name = none → k.open' img name = none →
      (∀ entry, ¬ img.Finds name entry) → OpenStage img k q name
  | switch {w : Fin 8} {entry : Dentry} : k.proc.pcbArray q = true →
      freeFd (k.proc.pcb q) = some w → img.Finds name entry →
      openCalls img k name = some (fopsOfType entry.filetype (k.proc.fd q w).fopsPtr) →
      OpenStage img k q name

theorem open_stage (hq : k.currPid = some q) : OpenStage img k q name := by
  cases hp : k.proc.pcbArray q with
  | false =>
    refine .early ?_ ?_ fun _ _ => Or.inl hp
    · simp [openCalls, hq, hp]
    · simp [open', hq, hp]
  | true =>
    cases hf : freeFd (k.proc.pcb q) with
    | none =>
      refine .early ?_ ?_ fun _ _ => Or.inr (freeFd_eq_none.mp hf)
      · simp [openCalls, hq, hf]
      · simp [open', hq, hf]
    | some w =>
      cases name with
      | none =>
        refine .early ?_ ?_ ?_
        · simp [openCalls, hq]
        · simp [open', hq]
        · rintro entry ⟨fname, hname, _⟩
          cases hname
      | some fname =>
        cases hs : img.readDentryByName fname with
        | error f =>
          refine .pastEnd ?_ ?_ ?_
          · simp [openCalls, hq, hf, hs]
          · simp [open', hq, hp, hf, hs]
          · intro entry hfound
            have hfound := hs.symm.trans hfound.read
            cases hfound
        | ok found =>
          cases found with
          | none =>
            refine .early ?_ ?_ ?_
            · simp [openCalls, hq, hf, hs]
            · simp [open', hq, hp, hf, hs]
            · intro entry hfound
              have hfound := hs.symm.trans hfound.read
              cases hfound
          | some entry =>
            refine .switch hp hf ⟨fname, rfl, hs⟩ ?_
            simp [openCalls, hq, hp, hf, hs]

/-- When the type has operations, `open` binds them to the slot. -/
theorem open_typed (hq : k.currPid = some q) (hp : k.proc.pcbArray q = true) {w : Fin 8}
    (hf : freeFd (k.proc.pcb q) = some w) {entry : Dentry} (hs : img.Finds name entry) {o : Fops}
    (ho : driverOf entry.filetype = some o) :
    ∃ k', k.open' img name = some ((w.val : Int), k') ∧ (k'.proc.fd q w).fopsPtr = some o := by
  obtain ⟨fname, rfl, hs⟩ := hs
  have hops : fopsOfType entry.filetype ((k.proc.pcb q).fdarray w).fopsPtr = some o := by
    rw [fopsOfType_or, ho]
    rfl
  let k1 := k.setFd q w ⟨some o, entry.inodeNum.toNat, 0, true⟩
  have hset : (k1.proc.fd q w).fopsPtr = some o := by rw [setFd_fd_self]
  rcases driverOf_eq_some.mp ho with ⟨_, rfl⟩ | ⟨htype, rfl⟩ | ⟨htype, rfl⟩
  · refine ⟨{ k1 with rtc := k1.rtc.open' }, ?_, hset⟩
    simp [open', hq, hp, hf, hs, hops, k1]
  · refine ⟨k1, ?_, hset⟩
    simp only [open', hq, hp, hf, hs, hops, if_pos htype, k1, Option.bind_some, Bool.true_eq_false,
      if_false]
  · refine ⟨k1, ?_, hset⟩
    simp only [open', hq, hp, hf, hs, hops, if_pos htype, k1, Option.bind_some, Bool.true_eq_false,
      if_false]

/-- Whatever the slot has been used for: `open` goes by the type of the entry, unless it finds a
free slot and an entry of a type that the `switch` does not have. -/
theorem open_binds_by_type (img : Image) (k : Kernel) (q : Pid) (name : Option CString)
    (hq : k.currPid = some q) : OpensByType img k q name ↔ ¬ Mistyped img k q name := by
  have hstage : OpenStage img k q name := open_stage hq
  constructor
  · rintro h ⟨hp, ⟨v, hv⟩, entry, hfound, hnone⟩
    -- `open` calls through the pointer that it finds in the slot
    cases hstage with
    | early _ _ hno =>
      rcases hno entry hfound with h1 | h1
      · rw [hp] at h1
        cases h1
      · exact h1 v hv
    | pastEnd _ _ hno => exact hno entry hfound
    | switch _ _ hfound' hcall =>
      obtain ⟨entry', o, hfound'', ho, _⟩ := h.called _ hcall
      obtain ⟨fname, rfl, hs⟩ := hfound
      have hsame := hs.symm.trans hfound''.read
      cases hsame
      rw [hnone] at ho
      cases ho
  · intro h
    cases hstage with
    | early hcall hopen hno =>
      refine ⟨?_, fun _ _ _ => ⟨k, hopen⟩, ?_⟩
      · intro v k' hrun hv
        rw [hopen] at hrun
        cases hrun
        exact absurd rfl hv
      · intro ptr hptr
        rw [hcall] at hptr
        cases hptr
    | pastEnd hcall hopen hno =>
      refine ⟨?_, fun entry hfound _ => (hno entry hfound).elim, ?_⟩
      · intro v k' hrun _
        rw [hopen] at hrun
        cases hrun
      · intro ptr hptr
        rw [hcall] at hptr
        cases hptr
    | @switch w entry hp hf hfound hcall =>
      have hfree : FdTable.Free (k.proc.fd q) w := (freeFd_eq_some hf).1
      obtain ⟨o, ho⟩ := Option.ne_none_iff_exists'.mp fun hnone =>
        h ⟨hp, ⟨w, hfree⟩, entry, hfound, hnone⟩
      obtain ⟨k1, hopen, hset⟩ := open_typed hq hp hf hfound ho
      refine ⟨?_, ?_, ?_⟩
      · intro v k' hrun _
        rw [hopen] at hrun
        cases hrun
        exact ⟨w, entry, o, rfl, hfound, ho, hset⟩
      · intro entry' hfound' hnone
        exact (h ⟨hp, ⟨w, hfree⟩, entry', hfound', hnone⟩).elim
      · intro ptr hptr
        rw [hcall, fopsOfType_or, ho] at hptr
        cases hptr
        exact ⟨entry, o, hfound, ho, rfl⟩

end Kernel

namespace Machine

open EventSystem

/-- `clockDisk`, with the entry `bad` of type 5. -/
def oddDisk : Image := { clockDisk with
  direntries := fun i =>
    if i = 2 then { clockDisk.direntries 2 with filetype := 5 } else clockDisk.direntries i }

/-- A shell opens the device. -/
theorem open_binds_by_type_rtc : ∃ m, run (step oddDisk) booted [.tick 0 0] = some m ∧
    Kernel.OpensByType oddDisk m.kern 0 (some rtcName) := by
  have hrun : (run (step oddDisk) booted [.tick 0 0]).map (fun m => m.kern.currPid) =
      some (some 0) := by
    decide +kernel
  obtain ⟨m, hm, hq⟩ := Option.map_eq_some_iff.mp hrun
  refine ⟨m, hm, (Kernel.open_binds_by_type oddDisk m.kern 0 (some rtcName) hq).mpr ?_⟩
  rintro ⟨_, _, entry, hfound, hnone⟩
  have hdev : oddDisk.readDentryByName rtcName = .ok (some (oddDisk.direntries 3)) := by rfl
  have hsame := hdev.symm.trans hfound.read
  cases hsame
  cases hnone

/-- A shell has opened the device and closed it again. It opens the entry of type 5 through the same
slot, and the call succeeds. -/
theorem open_binds_old_driver : ¬ ∀ (img : Image) (m : Machine) (p q : Pid)
    (name : Option CString), Reach (step img) Boot (fun _ _ => True) m → m.program = some p →
      m.kern.currPid = some q → Kernel.OpensByType img m.kern q name := by
  intro h
  have hrun : (run (step oddDisk) booted [.tick 0 0, .open' (some rtcName), .close 2]).map
      (fun m => (m.program, m.kern.currPid, (m.kern.open' oddDisk (some badName)).map Prod.fst)) =
        some (some 0, some 0, some 2) := by
    decide +kernel
  obtain ⟨m, hm, hp⟩ := Option.map_eq_some_iff.mp hrun
  simp only [Prod.mk.injEq] at hp
  obtain ⟨hprog, hq, hopen⟩ := hp
  have hby := h oddDisk m 0 0 (some badName) (Reach.of_any (.init boot_booted) hm) hprog hq
  have hfound : oddDisk.readDentryByName badName = .ok (some (oddDisk.direntries 2)) := by rfl
  obtain ⟨k', hk'⟩ := hby.refused (oddDisk.direntries 2) ⟨badName, rfl, hfound⟩ rfl
  rw [hk'] at hopen
  cases hopen

end Machine
end DeviceOS
