import DeviceOS.FileStreams
import Mathlib.Order.Bounds.Defs

/-!
# DeviceOS.DescriptorTable

The table of eight descriptors that every process has.

* `FdTable.Disciplined`: what a table always is. 0 and 1 are active, for the terminal; an active
  descriptor from 2 on is a file, a directory or the RTC.
* `OpenLaw`, `CloseLaw`: what `open` and `close` return, and all that they change.
* `descriptor_tables_disciplined`: in every reachable state, every table is disciplined, and the
  calls of the running program follow the laws.
-/

namespace DeviceOS

open EventSystem (Reach run)

/-- The type of every entry of the directory is one of the three that `open` knows. -/
def Image.Typed (img : Image) : Prop := ∀ i : Nat, (i : Int) < img.dirCount.toInt →
  i < numDirentries → (img.direntries i).filetype.toNat ≤ 2

/-- `read_dentry_by_name` goes past the last entry that the boot block has room for. -/
def Image.PastEnd (img : Image) (name : Option CString) : Prop :=
  ∃ fname f, name = some fname ∧ img.readDentryByName fname = .error f

/-- There is no name, or `read_dentry_by_name` returns -1. -/
def Image.NotFound (img : Image) : Option CString → Prop
  | none => True
  | some fname => img.readDentryByName fname = .ok none

namespace Image

variable {img : Image}

theorem findDentry_returns {fname : CString} : ∀ {n i : Nat}, i + n ≤ numDirentries →
    ∃ o, img.findDentry fname n i = .ok o := by
  intro n
  induction n with
  | zero => exact fun _ => ⟨none, rfl⟩
  | succ n ih =>
    intro i h
    simp only [findDentry]
    rw [if_neg (by omega)]
    split
    · exact ⟨_, rfl⟩
    · exact ih (by omega)

/-- A directory of at most 63 entries is never searched past its end. -/
theorem not_pastEnd (h : img.dirCount.toInt ≤ 63) (name : Option CString) : ¬ img.PastEnd name := by
  rintro ⟨fname, f, rfl, herr⟩
  simp only [readDentryByName] at herr
  split at herr
  · cases herr
  · obtain ⟨o, ho⟩ := @findDentry_returns img fname img.dirCount.toInt.toNat 0
      (by simp only [numDirentries]; omega)
    rw [ho] at herr
    cases herr

theorem Typed.filetype (hi : img.Typed) {fname : CString} {entry : Dentry}
    (h : img.readDentryByName fname = .ok (some entry)) :
    entry.filetype = 0 ∨ entry.filetype = 1 ∨ entry.filetype = 2 := by
  have hle : entry.filetype.toNat ≤ 2 := by
    simp only [readDentryByName] at h
    split at h
    · cases h
    · obtain ⟨j, _, h2, h3, rfl⟩ := findDentry_mem h
      exact hi j (by omega) h3
  have hcases : entry.filetype.toNat = 0 ∨ entry.filetype.toNat = 1 ∨ entry.filetype.toNat = 2 := by
    omega
  rcases hcases with h0 | h1 | h2
  · exact Or.inl (BitVec.eq_of_toNat_eq h0)
  · exact Or.inr (Or.inl (BitVec.eq_of_toNat_eq h1))
  · exact Or.inr (Or.inr (BitVec.eq_of_toNat_eq h2))

end Image

/-! ## The table -/

abbrev FdTable := Fin 8 → FdaEntry

namespace FdTable

/-- The operations that `open` sets up. -/
def Device (e : FdaEntry) : Prop :=
  e.fopsPtr = some .rtc ∨ e.fopsPtr = some .dir ∨ e.fopsPtr = some .file

structure Disciplined (t : FdTable) : Prop where
  stdin : (t 0).flags = true ∧ (t 0).fopsPtr = some .read
  stdout : (t 1).flags = true ∧ (t 1).fopsPtr = some .write
  opened : ∀ w : Fin 8, 2 ≤ w.val → (t w).flags = true → Device (t w)

/-- `open` may take this descriptor. -/
def Free (t : FdTable) (w : Fin 8) : Prop := 2 ≤ w.val ∧ (t w).flags = false

/-- The number names an active descriptor. -/
def Active (t : FdTable) (fd : Int) : Prop := ∃ w : Fin 8, (w.val : Int) = fd ∧ (t w).flags = true

variable {t : FdTable}

/-- A new entry from descriptor 2 on. -/
theorem Disciplined.update (h : t.Disciplined) {w : Fin 8} {e : FdaEntry} (hw : 2 ≤ w.val)
    (he : e.flags = true → Device e) : Disciplined (Function.update t w e) := by
  have h0 : (0 : Fin 8) ≠ w := fun heq => by subst heq; exact absurd hw (by decide)
  have h1 : (1 : Fin 8) ≠ w := fun heq => by subst heq; exact absurd hw (by decide)
  refine ⟨by rw [Function.update_of_ne h0]; exact h.stdin,
    by rw [Function.update_of_ne h1]; exact h.stdout, fun v hv hf => ?_⟩
  by_cases hvw : v = w
  · subst hvw
    rw [Function.update_self] at hf ⊢
    exact he hf
  · rw [Function.update_of_ne hvw] at hf ⊢
    exact h.opened v hv hf

/-- Only files and directories have a position that moves. -/
theorem Disciplined.two_le (h : t.Disciplined) {w : Fin 8}
    (hw : (t w).fopsPtr = some .file ∨ (t w).fopsPtr = some .dir) : 2 ≤ w.val := by
  by_contra hlt
  have hcases : w = 0 ∨ w = 1 := by omega
  rcases hcases with rfl | rfl
  · rw [h.stdin.2] at hw
    simp at hw
  · rw [h.stdout.2] at hw
    simp at hw

end FdTable

/-- The tables of all processes. -/
def Proc.Disciplined (p : Proc) : Prop := ∀ q,
  p.pcbArray q = true → FdTable.Disciplined (p.fd q)

namespace Kernel

variable {img : Image} {k k' : Kernel}

theorem setFd_fd (k : Kernel) (q : Pid) (w : Fin 8) (e : FdaEntry) :
    (k.setFd q w e).proc.fd q = Function.update (k.proc.fd q) w e := by
  funext v
  by_cases hv : v = w
  · subst hv
    rw [k.setFd_fd_self, Function.update_self]
  · rw [Function.update_of_ne hv]
    exact k.setFd_fd_of_ne e fun h => hv h.2

theorem setFd_disciplined (h : k.proc.Disciplined) {q : Pid} {w : Fin 8} {e : FdaEntry}
    (hw : k.proc.pcbArray q = true → 2 ≤ w.val ∧ (e.flags = true → FdTable.Device e)) :
    (k.setFd q w e).proc.Disciplined := by
  intro r hr
  by_cases hrq : r = q
  · subst hrq
    obtain ⟨hw, he⟩ := hw hr
    rw [setFd_fd]
    exact FdTable.Disciplined.update (h r hr) hw he
  · have heq : (k.setFd q w e).proc.fd r = k.proc.fd r :=
      funext fun v => k.setFd_fd_of_ne e fun h => hrq h.1
    rw [heq]
    exact h r hr

end Kernel

theorem Proc.Disciplined.tableRel : TableRel fun p p' => p.Disciplined → p'.Disciplined where
  of_eq {p p'} harray hfd h q hq := by
    have heq : p'.fd q = p.fd q := funext fun w => congrFun (hfd q) w
    rw [heq]
    exact h q (by rw [← harray]; exact hq)
  trans h1 h2 h := h2 (h1 h)
  prepared p cur q h r hr := by
    by_cases heq : r = q
    · subst heq
      refine ⟨?_, ?_, fun w hw hf => ?_⟩
      · simp [Proc.fd, Proc.prepared, Proc.createPcb, Proc.mapProgramMem]
      · simp [Proc.fd, Proc.prepared, Proc.createPcb, Proc.mapProgramMem]
      · exact absurd (p.prepared_fd cur r w hf).1 (by omega)
    · obtain ⟨harray, hfd⟩ := p.prepared_fd_of_ne cur heq
      rw [show (p.prepared cur q).fd r = p.fd r from funext hfd]
      exact h r (by rw [← harray]; exact hr)
  closed k q w hw h := k.setFd_disciplined h fun _ => ⟨hw, fun hf => by cases hf⟩
  moved k q w pos hd h :=
    k.setFd_disciplined h fun hq =>
      ⟨FdTable.Disciplined.two_le (h q hq) (Or.inr hd), fun _ => Or.inr (Or.inl hd)⟩

/-! ## The calls -/

/-- `open` of `name` by process `q` returns `v`. -/
structure OpenLaw (img : Image) (k : Kernel) (q : Pid) (name : Option CString) (v : Int)
    (k' : Kernel) : Prop where
  refused : v = -1 ↔ (∀ w, ¬ FdTable.Free (k.proc.fd q) w) ∨ img.NotFound name
  unchanged : v = -1 → k' = k
  opened : v ≠ -1 → ∃ w fname entry, v = w.val ∧ IsLeast { w | FdTable.Free (k.proc.fd q) w } w ∧
    name = some fname ∧ img.readDentryByName fname = .ok (some entry) ∧
    k'.proc = (k.setFd q w ⟨Kernel.fopsOfType entry.filetype none, entry.inodeNum.toNat, 0, true⟩).proc

/-- `close` of `fd` by process `q` returns `v`. -/
structure CloseLaw (k : Kernel) (q : Pid) (fd v : Int) (k' : Kernel) : Prop where
  closed : v = 0 ↔ 2 ≤ fd ∧ FdTable.Active (k.proc.fd q) fd
  changed : v = 0 → ∃ w : Fin 8, (w.val : Int) = fd ∧
    k'.proc = (k.setFd q w { k.proc.fd q w with flags := false }).proc
  refused : v ≠ 0 → v = -1 ∧ k' = k

namespace Kernel

variable {img : Image} {k : Kernel} {q : Pid}

theorem freeFd_eq_some {b : Pcb} {w : Fin 8} (h : freeFd b = some w) :
    IsLeast { w | FdTable.Free b.fdarray w } w := by
  obtain ⟨hw, l1, l2, hl, hbefore⟩ := List.find?_eq_some_iff_append.mp h
  simp only [Bool.and_eq_true, decide_eq_true_eq, Bool.not_eq_true'] at hw
  refine ⟨hw, fun v hv => ?_⟩
  by_contra hlt
  -- a smaller descriptor comes before `w` in the list
  have hsorted := List.pairwise_lt_finRange 8
  rw [hl, List.pairwise_append] at hsorted
  have hmem : v ∈ l1 ++ w :: l2 := by
    rw [← hl]
    exact List.mem_finRange v
  rcases List.mem_append.mp hmem with h1 | h1
  · have := hbefore v h1
    simp [hv.1, hv.2] at this
  · rcases List.mem_cons.mp h1 with rfl | h2
    · exact hlt (le_refl v)
    · exact hlt (le_of_lt ((List.pairwise_cons.mp hsorted.2.1).1 v h2))

theorem freeFd_eq_none {b : Pcb} : freeFd b = none ↔ ∀ w, ¬ FdTable.Free b.fdarray w := by
  simp [freeFd, FdTable.Free, List.find?_eq_none]

theorem fopsOfType_eq (hi : img.Typed) {fname : CString} {entry : Dentry}
    (h : img.readDentryByName fname = .ok (some entry)) (old : Option Fops) :
    fopsOfType entry.filetype old = fopsOfType entry.filetype none ∧
      (fopsOfType entry.filetype none = some .rtc ∨
        (fopsOfType entry.filetype none = some .dir ∧ entry.filetype = 1) ∨
        (fopsOfType entry.filetype none = some .file ∧ entry.filetype = 2)) := by
  rcases hi.filetype h with h0 | h1 | h2
  · rw [h0]
    exact ⟨rfl, Or.inl rfl⟩
  · rw [h1]
    exact ⟨rfl, Or.inr (Or.inl ⟨rfl, rfl⟩)⟩
  · rw [h2]
    exact ⟨rfl, Or.inr (Or.inr ⟨rfl, rfl⟩)⟩

theorem open_law (hi : img.Typed) (hq : k.currPid = some q) (hp : k.proc.pcbArray q = true)
    {name : Option CString} (hn : ¬ img.PastEnd name) :
    ∃ v k', k.open' img name = some (v, k') ∧ OpenLaw img k q name v k' := by
  have hrefused : (∀ w, ¬ FdTable.Free (k.proc.fd q) w) ∨ img.NotFound name →
      OpenLaw img k q name (-1) k := fun h => ⟨⟨fun _ => h, fun _ => rfl⟩, fun _ => rfl,
    fun hv => absurd rfl hv⟩
  cases hf : freeFd (k.proc.pcb q) with
  | none =>
    exact ⟨-1, k, by simp [open', hq, hp, hf], hrefused (Or.inl (freeFd_eq_none.mp hf))⟩
  | some w =>
    have hleast := freeFd_eq_some hf
    cases name with
    | none => exact ⟨-1, k, by simp [open', hq], hrefused (Or.inr trivial)⟩
    | some fname =>
      cases hs : img.readDentryByName fname with
      | error f => exact absurd ⟨fname, f, rfl, hs⟩ hn
      | ok o =>
        cases o with
        | none => exact ⟨-1, k, by simp [open', hq, hp, hf, hs], hrefused (Or.inr hs)⟩
        | some entry =>
          obtain ⟨hops, hkind⟩ := fopsOfType_eq hi hs ((k.proc.pcb q).fdarray w).fopsPtr
          let k1 := k.setFd q w
            ⟨fopsOfType entry.filetype none, entry.inodeNum.toNat, 0, true⟩
          have hopened : ∀ k', k'.proc = k1.proc → OpenLaw img k q (some fname) w.val k' := by
            intro k' hk'
            refine ⟨⟨fun hv => by omega, ?_⟩, fun hv => by omega,
              fun _ => ⟨w, fname, entry, rfl, hleast, rfl, hs, hk'⟩⟩
            rintro (hfull | hnot)
            · exact absurd hleast.1 (hfull w)
            · simp [Image.NotFound, hs] at hnot
          rcases hkind with h | ⟨h, htype⟩ | ⟨h, htype⟩
          · refine ⟨w.val, { k1 with rtc := k1.rtc.open' }, ?_, hopened _ rfl⟩
            simp [open', hq, hp, hf, hs, hops, h, k1]
          · refine ⟨w.val, k1, ?_, hopened _ rfl⟩
            simp only [open', hq, hp, hf, hs, hops, h, if_pos htype, k1, Option.bind_some,
              Bool.true_eq_false, if_false]
          · refine ⟨w.val, k1, ?_, hopened _ rfl⟩
            simp only [open', hq, hp, hf, hs, hops, h, if_pos htype, k1, Option.bind_some,
              Bool.true_eq_false, if_false]

/-- `open` changes nothing, or follows the law for the running process. -/
theorem open_kind (hi : img.Typed) {name : Option CString} {v : Int} {k' : Kernel}
    (h : k.open' img name = some (v, k')) :
    k' = k ∨ ∃ q, k.proc.pcbArray q = true ∧ OpenLaw img k q name v k' := by
  have h0 := h
  simp only [open', Option.bind_eq_some_iff] at h
  obtain ⟨q, hq, h⟩ := h
  split at h
  · cases h
    exact Or.inl rfl
  · rename_i hp
    by_cases hn : img.PastEnd name
    · obtain ⟨fname, f, rfl, herr⟩ := hn
      split at h
      · rename_i hname
        cases hname
        rw [herr] at h
        cases h
      · cases h
        exact Or.inl rfl
    · have hp : k.proc.pcbArray q = true := by simpa using hp
      obtain ⟨v1, k1, hopen, hlaw⟩ := open_law hi hq hp hn
      rw [h0] at hopen
      cases hopen
      exact Or.inr ⟨q, hp, hlaw⟩

theorem active_iff (w : Fin 8) : FdTable.Active (k.proc.fd q) w.val ↔
    ((k.proc.pcb q).fdarray w).flags = true := by
  constructor
  · rintro ⟨v, hv, hf⟩
    obtain rfl : v = w := Fin.ext (by omega)
    exact hf
  · exact fun hf => ⟨w, rfl, hf⟩

theorem fdOf_eq_some {fd : Int} {w : Fin 8} (h : fdOf fd = some w) : (w.val : Int) = fd := by
  simp only [fdOf] at h
  split at h
  · cases h
    simp only
    omega
  · cases h

theorem not_active_of_fdOf {fd : Int} (h : fdOf fd = none) : ¬ FdTable.Active (k.proc.fd q) fd := by
  rintro ⟨w, rfl, _⟩
  rw [fdOf_val] at h
  cases h

theorem close_law (hd : FdTable.Disciplined (k.proc.fd q)) (hq : k.currPid = some q)
    (hp : k.proc.pcbArray q = true) (fd : Int) :
    ∃ v k', k.close fd = some (v, k') ∧ CloseLaw k q fd v k' := by
  have hrefused : ¬ (2 ≤ fd ∧ FdTable.Active (k.proc.fd q) fd) → CloseLaw k q fd (-1) k :=
    fun h => ⟨⟨fun hv => by omega, fun h' => absurd h' h⟩, fun hv => by omega,
      fun _ => ⟨rfl, rfl⟩⟩
  cases hw : fdOf fd with
  | none =>
    exact ⟨-1, k, by simp [close, hq, hw], hrefused fun h => not_active_of_fdOf hw h.2⟩
  | some w =>
    obtain rfl := fdOf_eq_some hw
    by_cases hlt : w.val < 2
    · exact ⟨-1, k, by simp [close, hq, hw, hlt], hrefused fun h => by omega⟩
    · cases hf : ((k.proc.pcb q).fdarray w).flags with
      | false =>
        refine ⟨-1, k, by simp [close, hq, hw, hf], hrefused fun h => ?_⟩
        have := (active_iff w).mp h.2
        rw [hf] at this
        cases this
      | true =>
        let k1 := k.setFd q w { k.proc.fd q w with flags := false }
        have hclosed : ∀ k', k'.proc = k1.proc → CloseLaw k q w.val 0 k' := fun k' hk' =>
          ⟨⟨fun _ => ⟨by omega, (active_iff w).mpr hf⟩, fun _ => rfl⟩, fun _ => ⟨w, rfl, hk'⟩,
            fun hv => absurd rfl hv⟩
        have hdevice := hd.opened w (by omega) hf
        simp only [FdTable.Device, Proc.fd] at hdevice
        rcases hdevice with h | h | h
        · refine ⟨0, { k1 with rtc := k1.rtc.close }, ?_, hclosed _ rfl⟩
          simp [close, hq, hp, hw, hlt, hf, h, k1, Proc.fd]
        · refine ⟨0, k1, ?_, hclosed _ rfl⟩
          simp [close, hq, hp, hw, hlt, hf, h, k1, Proc.fd]
        · refine ⟨0, k1, ?_, hclosed _ rfl⟩
          simp [close, hq, hp, hw, hlt, hf, h, k1, Proc.fd]

/-- A `read` that works on no open file, directory, clock or keyboard. -/
theorem read_refused (hd : FdTable.Disciplined (k.proc.fd q)) (hq : k.currPid = some q) {fd : Int}
    (h : ¬ FdTable.Active (k.proc.fd q) fd ∨ fd = 1) (buf : Option (Nat → UInt8)) (nbytes : Int) :
    k.read img fd buf nbytes = some (.ret ⟨-1, []⟩ k) := by
  cases hw : fdOf fd with
  | none => simp [read, hq, hw]
  | some w =>
    obtain rfl := fdOf_eq_some hw
    rcases h with h | h
    · have hf : ((k.proc.pcb q).fdarray w).flags = false := by
        rw [active_iff] at h
        simpa using h
      simp [read, hq, hw, hf]
    · obtain rfl : w = 1 := Fin.ext (by omega)
      have hops : ((k.proc.pcb q).fdarray 1).fopsPtr = some .write := hd.stdout.2
      simp only [read, hq, hw, hops, Option.bind_some]
      split <;> rfl

theorem write_refused (hd : FdTable.Disciplined (k.proc.fd q)) (hq : k.currPid = some q) {fd : Int}
    (h : ¬ FdTable.Active (k.proc.fd q) fd ∨ fd = 0) (buf : Option (Nat → UInt8)) (nbytes : Int) :
    k.write fd buf nbytes = some (⟨-1, []⟩, k) := by
  cases hw : fdOf fd with
  | none => simp [write, hq, hw]
  | some w =>
    obtain rfl := fdOf_eq_some hw
    cases buf with
    | none => simp [write, hq]
    | some b =>
      rcases h with h | h
      · have hf : ((k.proc.pcb q).fdarray w).flags = false := by
          rw [active_iff] at h
          simpa using h
        simp [write, hq, hw, hf]
      · obtain rfl : w = 0 := Fin.ext (by omega)
        have hops : ((k.proc.pcb q).fdarray 0).fopsPtr = some .read := hd.stdin.2
        simp only [write, hq, hw, hops, Option.bind_some]
        split <;> rfl

end Kernel

namespace Machine

variable {img : Image} {m m' : Machine} {e : Event}

/-! ## Every run -/

theorem step_disciplined (hi : img.Typed) (hd : m.kern.proc.Disciplined)
    (h : step img m e = some m') : m'.kern.proc.Disciplined := by
  by_cases hq : FdQuiet m e
  · exact step_tables Proc.Disciplined.tableRel hq h hd
  · cases step_fds h with
    | kept hquiet => exact absurd hquiet hq
    | opened hopen =>
      rcases Kernel.open_kind hi hopen with heq | ⟨q, hp, hlaw⟩
      · rw [heq]
        exact hd
      · rename_i v
        by_cases hv : v = -1
        · rw [hlaw.unchanged hv]
          exact hd
        · obtain ⟨w, fname, entry, _, hleast, _, hname, heq⟩ := hlaw.opened hv
          rw [heq]
          refine Kernel.setFd_disciplined hd fun _ => ⟨hleast.1.1, fun _ => ?_⟩
          rcases (Kernel.fopsOfType_eq hi hname none).2 with h | ⟨h, _⟩ | ⟨h, _⟩
          · exact Or.inl h
          · exact Or.inr (Or.inl h)
          · exact Or.inr (Or.inr h)
    | file hfile hread =>
      obtain ⟨_, _, _, _, _, _, _, _, _, hops⟩ := hfile
      obtain ⟨pos, heq⟩ := Kernel.fileRead_cases hread
      rw [heq]
      exact Kernel.setFd_disciplined hd fun hp =>
        ⟨FdTable.Disciplined.two_le (hd _ hp) (Or.inl hops), fun _ => Or.inr (Or.inr hops)⟩

theorem Boot.disciplined (h : Boot m) : m.kern.proc.Disciplined := by
  intro q hq
  rw [h.pcbArray q] at hq
  cases hq

/-- The calls that the program of `p` makes, for process `q`. -/
structure CallLaws (img : Image) (m : Machine) (p q : Pid) : Prop where
  opens : ∀ name, ¬ img.PastEnd name → ∃ v k',
    call img m (.open' name) = some (⟨k', .user p⟩, some ⟨v, []⟩) ∧ OpenLaw img m.kern q name v k'
  closes : ∀ fd, ∃ v k',
    call img m (.close fd) = some (⟨k', .user p⟩, some ⟨v, []⟩) ∧ CloseLaw m.kern q fd v k'
  reads : ∀ fd buf nbytes, ¬ FdTable.Active (m.kern.proc.fd q) fd ∨ fd = 1 →
    call img m (.read fd buf nbytes) = some (m, some ⟨-1, []⟩)
  writes : ∀ fd buf nbytes, ¬ FdTable.Active (m.kern.proc.fd q) fd ∨ fd = 0 →
    call img m (.write fd buf nbytes) = some (m, some ⟨-1, []⟩)

theorem callLaws (hi : img.Typed) (hd : m.kern.proc.Disciplined) {p q : Pid}
    (hc : m.ctl = .user p) (hq : m.kern.currPid = some q) (hp : m.kern.proc.pcbArray q = true) :
    CallLaws img m p q := by
  obtain ⟨k, c⟩ := m
  cases hc
  refine ⟨fun name hn => ?_, fun fd => ?_, fun fd buf nbytes h => ?_, fun fd buf nbytes h => ?_⟩
  · obtain ⟨v, k', hopen, hlaw⟩ := Kernel.open_law hi hq hp hn
    exact ⟨v, k', by simp [call, syscall, hopen], hlaw⟩
  · obtain ⟨v, k', hclose, hlaw⟩ := Kernel.close_law (hd q hp) hq hp fd
    exact ⟨v, k', by simp [call, syscall, hclose], hlaw⟩
  · have hread : k.read img fd buf nbytes = some (.ret ⟨-1, []⟩ k) :=
      Kernel.read_refused (hd q hp) hq h buf nbytes
    simp [call, syscall, hread]
  · have hwrite := Kernel.write_refused (hd q hp) hq h buf nbytes
    simp [call, syscall, hwrite]

/-- On an image with typed entries, whatever the programs call: the terminal keeps descriptors 0
and 1 of every process, and each call does to the table of its process what its law says. -/
theorem descriptor_tables_disciplined (img : Image) (hi : img.Typed) (m : Machine)
    (h : Reach (step img) Boot (fun _ _ => True) m) :
    m.kern.proc.Disciplined ∧ ∀ p q, m.ctl = .user p → m.kern.currPid = some q →
      m.kern.proc.pcbArray q = true → CallLaws img m p q := by
  have hd : m.kern.proc.Disciplined :=
    h.inv (fun _ => Boot.disciplined) fun _ _ _ hi' _ hs => step_disciplined hi hi' hs
  exact ⟨hd, fun p q => callLaws hi hd⟩

theorem disk_typed : disk.Typed := fun i _ _ => by
  show (2 : BitVec 32).toNat ≤ 2
  decide

/-- The first of two open descriptors is closed, and is free again. -/
theorem descriptor_tables_disciplined_reused : ∃ m : Machine, m.program = some 0 ∧
    (m.kern.proc.fd 0 2).flags = false ∧ (m.kern.proc.fd 0 3).flags = true ∧
      m.kern.proc.Disciplined ∧ CallLaws disk m 0 0 := by
  have hrun : (run (step disk) booted
      [.tick 0 0, .open' (some catName), .open' (some shellName), .close 2]).map (fun m =>
        (m.program, m.kern.currPid, m.kern.proc.pcbArray 0, (m.kern.proc.fd 0 2).flags,
          (m.kern.proc.fd 0 3).flags)) = some (some 0, some 0, true, false, true) := by
    decide +kernel
  obtain ⟨m, hm, hp⟩ := Option.map_eq_some_iff.mp hrun
  simp only [Prod.mk.injEq] at hp
  obtain ⟨hprog, hq, hpcb, h2, h3⟩ := hp
  obtain ⟨hd, hlaws⟩ := descriptor_tables_disciplined disk disk_typed m
    (Reach.of_any (.init boot_booted) hm)
  exact ⟨m, hprog, h2, h3, hd, hlaws 0 0 (program_eq_some.mp hprog) hq hpcb⟩

end Machine
end DeviceOS
