import DeviceOS.FileStreams
import DeviceOS.ImageCopies
import Mathlib.Order.Bounds.Defs

/-!
# DeviceOS.Directory

The names in the directory, as `open` looks them up and as a program lists them.

* `Dentry.name`: the name of an entry, which has no NUL when it fills all 32 bytes.
* `Image.nameMatches_iff`: the compare loop accepts a string of at most 32 bytes exactly when it is
  the name.
* `Image.lookup_agrees_with_listing`: `read_dentry_by_name` finds the first entry whose name
  `directory_read` delivers as the string.
* `Listing`: for each descriptor the number of calls of `read` since it was opened.
  `DirInv`: the position of an open directory is this number, up to the number of entries.
* `directory_listed_once`: in every run the calls on a descriptor deliver the names one after the
  other, and nothing after the last one.
-/

namespace DeviceOS

open EventSystem (Reach run withHistory)
open Buffers (string string_succ string_take string_getD string_length_le)

/-- The name of an entry: the bytes before the first NUL, at most 32. -/
def Dentry.name (d : Dentry) : CString := string 0 filenameLen d.filename

theorem Dentry.name_length_le (d : Dentry) : d.name.length ≤ filenameLen := string_length_le ..

/-! ## Lookup -/

namespace Image

variable {img : Image}

/-- The loop compares the strings that begin at byte `s`. -/
theorem nameMatches_iff (fname : CString) (name : Nat → UInt8) : ∀ n s : Nat,
    nameMatches fname name n s = true ↔
      string 0 n (fun i => fname.charAt (s + i)) = string 0 n fun i => name (s + i) := by
  intro n
  induction n with
  | zero =>
    intro s
    simp [nameMatches, string]
  | succ n ih =>
    intro s
    have hnext : ∀ f : Nat → UInt8, (fun i => f (s + (i + 1))) = fun i => f (s + 1 + i) := by
      intro f
      funext i
      rw [Nat.add_comm i 1, Nat.add_assoc]
    rw [nameMatches, string_succ, string_succ, hnext fname.charAt, hnext name]
    simp only [Nat.add_zero]
    by_cases hne : fname.charAt s = name s
    · rw [if_neg (not_not.mpr hne), ← hne]
      by_cases h0 : fname.charAt s = 0
      · simp [h0]
      · rw [if_neg h0, if_neg h0, if_neg h0, ih]
        simp
    · rw [if_pos hne]
      by_cases h0 : fname.charAt s = 0
      · have h1 : name s ≠ 0 := fun h => hne (h0.trans h.symm)
        simp [h0, h1]
      · by_cases h1 : name s = 0
        · simp [h0, h1]
        · simp [h0, h1, hne]

/-- A string of at most 32 bytes matches an entry exactly when it is its name. -/
theorem nameMatches_name {fname : CString} (h : fname.strlen ≤ filenameLen) (d : Dentry) :
    nameMatches fname d.filename filenameLen 0 = true ↔ fname.text = d.name := by
  have htext : string 0 filenameLen (fun i => fname.charAt (0 + i)) = fname.text := by
    simp only [Nat.zero_add]
    exact string_getD fname h
  rw [nameMatches_iff, htext]
  simp only [Nat.zero_add]
  rfl

/-- The search stops at the first entry that matches. -/
theorem findDentry_first (fname : CString) : ∀ {n i : Nat}, i + n ≤ numDirentries →
    (∃ j, IsLeast { j | i ≤ j ∧ j < i + n ∧
        nameMatches fname (img.direntries j).filename filenameLen 0 = true } j ∧
      img.findDentry fname n i = .ok (some (img.direntries j))) ∨
    ((∀ j, i ≤ j → j < i + n →
        nameMatches fname (img.direntries j).filename filenameLen 0 = false) ∧
      img.findDentry fname n i = .ok none) := by
  intro n
  induction n with
  | zero =>
    intro i _
    exact Or.inr ⟨fun j h1 h2 => by omega, rfl⟩
  | succ n ih =>
    intro i h
    rw [findDentry, if_neg (by omega)]
    by_cases hm : nameMatches fname (img.direntries i).filename filenameLen 0 = true
    · rw [if_pos hm]
      exact Or.inl ⟨i, ⟨⟨le_refl i, by omega, hm⟩, fun j hj => hj.1⟩, rfl⟩
    · rw [if_neg hm]
      have hfirst : ∀ j, i ≤ j → nameMatches fname (img.direntries j).filename filenameLen 0 =
          true → i + 1 ≤ j := by
        intro j hj hmatch
        rcases Nat.lt_or_eq_of_le hj with hlt | rfl
        · exact hlt
        · exact absurd hmatch hm
      rcases @ih (i + 1) (by omega) with ⟨j, ⟨⟨h1, h2, h3⟩, hleast⟩, hfind⟩ | ⟨hno, hfind⟩
      · refine Or.inl ⟨j, ⟨⟨by omega, by omega, h3⟩, fun x hx => ?_⟩, hfind⟩
        exact hleast ⟨hfirst x hx.1 hx.2.2, by have := hx.2.1; omega, hx.2.2⟩
      · refine Or.inr ⟨fun j h1 h2 => ?_, hfind⟩
        rcases Nat.lt_or_eq_of_le h1 with hlt | rfl
        · exact hno j hlt (by omega)
        · exact Bool.eq_false_iff.mpr hm

variable (img)

/-- `read_dentry_by_name` with what it returns and `*dentry`. -/
def lookup (fname : CString) (dentry : Dentry) : Except Fault (Int × Dentry) :=
  (img.readDentryByName fname).map fun
    | some entry => (0, entry)
    | none => (-1, dentry)

variable {img}

theorem lookup_found {fname : CString} {entry : Dentry} (dentry : Dentry)
    (h : img.readDentryByName fname = .ok (some entry)) :
    img.lookup fname dentry = .ok (0, entry) := by
  rw [lookup, h]
  rfl

theorem lookup_missed {fname : CString} (dentry : Dentry)
    (h : img.readDentryByName fname = .ok none) : img.lookup fname dentry = .ok (-1, dentry) := by
  rw [lookup, h]
  rfl

theorem dirCount_toNat (h0 : 0 ≤ img.dirCount.toInt) :
    img.dirCount.toInt.toNat = img.dirCount.toNat := by
  have hbound := img.dirCount.isLt
  rw [BitVec.toInt_eq_toNat_cond] at h0 ⊢
  split at h0 <;> rename_i hc
  · rw [if_pos hc, Int.toNat_natCast]
  · omega

theorem readDentryByIndex_of_lt (h63 : img.dirCount.toNat ≤ 63) {i : Nat}
    (hi : i < img.dirCount.toNat) : img.readDentryByIndex i = .ok (some (img.direntries i)) := by
  rw [readDentryByIndex, if_neg (by omega), if_neg (by simp only [numDirentries]; omega)]

theorem readDentryByIndex_of_le {i : Nat} (hi : img.dirCount.toNat ≤ i) :
    img.readDentryByIndex i = .ok none := by
  rw [readDentryByIndex, if_pos hi]

end Image

namespace Kernel

variable {img : Image} {k k' : Kernel}

/-- `directory_read` at an entry: the first bytes of its name, and one step of the position. -/
theorem directoryRead_entry (h63 : img.dirCount.toNat ≤ 63) {q : Pid} {w : Fin 8}
    (hi : (k.proc.fd q w).filePos < img.dirCount.toNat) (nbytes : Nat) :
    k.directoryRead img q w nbytes =
      some (⟨((img.direntries (k.proc.fd q w).filePos).name.take nbytes).length,
          (img.direntries (k.proc.fd q w).filePos).name.take nbytes⟩,
        k.setFd q w { k.proc.fd q w with filePos := (k.proc.fd q w).filePos + 1 }) := by
  have hentry := Image.readDentryByIndex_of_lt h63 hi
  unfold Proc.fd at hentry hi
  have hword : (((k.proc.pcb q).fdarray w).filePos + 1) % 2 ^ 32 =
      ((k.proc.pcb q).fdarray w).filePos + 1 := Nat.mod_eq_of_lt (by omega)
  simp only [directoryRead, hentry, hword]
  have hout := string_take (0 : UInt8) filenameLen nbytes
    (img.direntries ((k.proc.pcb q).fdarray w).filePos).filename
  unfold string at hout
  rw [hout]
  rfl

/-- `directory_read` behind the last entry. -/
theorem directoryRead_atEnd {q : Pid} {w : Fin 8}
    (hi : img.dirCount.toNat ≤ (k.proc.fd q w).filePos) (nbytes : Nat) :
    k.directoryRead img q w nbytes = some (⟨0, []⟩, k) := by
  have hentry := Image.readDentryByIndex_of_le hi
  unfold Proc.fd at hentry
  simp only [directoryRead, hentry]

/-- What `directory_read` delivers through descriptor `w` of process `q` at position `i`. -/
def listedAt (img : Image) (k : Kernel) (q : Pid) (w : Fin 8) (nbytes i : Nat) : Option CString :=
  ((k.setFd q w { k.proc.fd q w with filePos := i }).directoryRead img q w nbytes).map fun r =>
    r.1.out

theorem listedAt_name (h63 : img.dirCount.toNat ≤ 63) (k : Kernel) (q : Pid) (w : Fin 8)
    {nbytes i : Nat} (hn : filenameLen ≤ nbytes) (hi : i < img.dirCount.toNat) :
    k.listedAt img q w nbytes i = some (img.direntries i).name := by
  have hpos : ((k.setFd q w { k.proc.fd q w with filePos := i }).proc.fd q w).filePos = i := by
    rw [k.setFd_fd_self]
  have hname := (img.direntries i).name_length_le
  rw [listedAt, directoryRead_entry h63 (by rw [hpos]; exact hi), hpos, Option.map_some,
    List.take_of_length_le (by omega)]

end Kernel

namespace Image

variable {img : Image}

/-- `read_dentry_by_name` finds a string exactly when `directory_read` with room for 32 bytes
delivers it at some index; it finds the entry with the smallest such index, and otherwise leaves
`*dentry` alone. A string of more than 32 bytes is not found. -/
theorem lookup_agrees_with_listing (img : Image) (h0 : 0 ≤ img.dirCount.toInt)
    (h63 : img.dirCount.toInt ≤ 63) (k : Kernel) (q : Pid) (w : Fin 8) (nbytes : Nat)
    (hn : 32 ≤ nbytes) (s : CString) (dentry : Dentry) :
    ∃ ret d, img.lookup s dentry = .ok (ret, d) ∧
      (ret = 0 ↔ ∃ i < img.dirCount.toNat, k.listedAt img q w nbytes i = some s.text) ∧
      (ret = 0 → ∃ i, IsLeast { i | i < img.dirCount.toNat ∧
        k.listedAt img q w nbytes i = some s.text } i ∧ img.readDentryByIndex i = .ok (some d)) ∧
      (ret ≠ 0 → ret = -1 ∧ d = dentry) ∧ (32 < s.strlen → ret = -1) := by
  have hcount := dirCount_toNat h0
  have h63 : img.dirCount.toNat ≤ 63 := by omega
  have hlisted : ∀ i < img.dirCount.toNat, (k.listedAt img q w nbytes i = some s.text ↔
      s.text = (img.direntries i).name) := by
    intro i hi
    rw [Kernel.listedAt_name h63 k q w hn hi, Option.some.injEq, eq_comm]
  by_cases hlong : s.strlen > filenameLen
  · -- a string that is longer than every name
    have hno : ∀ i < img.dirCount.toNat, k.listedAt img q w nbytes i ≠ some s.text := by
      intro i hi heq
      have hname := (img.direntries i).name_length_le
      rw [← (hlisted i hi).mp heq] at hname
      exact absurd hlong (not_lt.mpr hname)
    refine ⟨-1, dentry, lookup_missed dentry (by rw [readDentryByName, if_pos hlong]), ?_,
      by simp, fun _ => ⟨rfl, rfl⟩, fun _ => rfl⟩
    constructor
    · intro h
      cases h
    · rintro ⟨i, hi, heq⟩
      exact absurd heq (hno i hi)
  · have hread : img.readDentryByName s = img.findDentry s img.dirCount.toNat 0 := by
      rw [readDentryByName, if_neg hlong, hcount]
    have hmatch : ∀ i < img.dirCount.toNat,
        (nameMatches s (img.direntries i).filename filenameLen 0 = true ↔
          k.listedAt img q w nbytes i = some s.text) := by
      intro i hi
      rw [nameMatches_name (by omega), hlisted i hi]
    rcases @findDentry_first img s img.dirCount.toNat 0
      (by simp only [numDirentries]; omega) with ⟨j, ⟨⟨_, h2, h3⟩, hleast⟩, hfind⟩ | ⟨hno, hfind⟩
    · rw [Nat.zero_add] at h2
      have hj := (hmatch j h2).mp h3
      refine ⟨0, img.direntries j, lookup_found dentry (hread.trans hfind), ?_, fun _ => ?_,
        fun h => absurd rfl h, fun h => absurd h hlong⟩
      · exact ⟨fun _ => ⟨j, h2, hj⟩, fun _ => rfl⟩
      · refine ⟨j, ⟨⟨h2, hj⟩, fun i hi => ?_⟩, readDentryByIndex_of_lt h63 h2⟩
        exact hleast ⟨Nat.zero_le i, by have := hi.1; omega, (hmatch i hi.1).mpr hi.2⟩
    · refine ⟨-1, dentry, lookup_missed dentry (hread.trans hfind), ?_, by simp,
        fun _ => ⟨rfl, rfl⟩, fun _ => rfl⟩
      constructor
      · intro h
        cases h
      · rintro ⟨i, hi, heq⟩
        have hfalse := hno i (Nat.zero_le i) (by omega)
        rw [(hmatch i hi).mpr heq] at hfalse
        cases hfalse

/-- `cat` is the second entry of the disk. -/
theorem lookup_agrees_with_listing_cat : ∃ d, Machine.disk.lookup Machine.catName
      (Machine.disk.direntries 2) = .ok (0, d) ∧ ∃ i, IsLeast { i | i < 3 ∧
        Machine.booted.kern.listedAt Machine.disk 0 2 32 i = some Machine.catName } i := by
  obtain ⟨ret, d, hlook, hfound, hleast, _⟩ := lookup_agrees_with_listing Machine.disk (by decide)
    (by decide) Machine.booted.kern 0 2 32 (le_refl 32) Machine.catName (Machine.disk.direntries 2)
  have hret : ret = 0 := hfound.mpr ⟨1, by decide, rfl⟩
  subst hret
  obtain ⟨i, hi, _⟩ := hleast rfl
  exact ⟨d, hlook, i, hi⟩

end Image

/-! ## Listing -/

/-- The tables with the position of every open directory kept. -/
def DirsKept (p p' : Proc) : Prop := ∀ q w, p'.pcbArray q = true → (p'.fd q w).flags = true →
  (p'.fd q w).fopsPtr = some .dir → p.pcbArray q = true ∧ p'.fd q w = p.fd q w

theorem DirsKept.tableOps : TableOps DirsKept where
  of_eq {p p'} harray hfd q w hq _ _ := by
    refine ⟨by rw [← harray]; exact hq, ?_⟩
    simp only [Proc.fd, hfd q]
  trans h1 h2 q w hq hf hd := by
    obtain ⟨hq', heq⟩ := h2 q w hq hf hd
    rw [heq] at hf hd ⊢
    exact h1 q w hq' hf hd
  prepared p cur q := by
    intro r w hr hf hd
    by_cases heq : r = q
    · subst heq
      -- a new process has only the terminal open
      simp only [Proc.fd, Proc.prepared, Proc.createPcb, Proc.mapProgramMem,
        Function.update_self] at hf hd
      split at hf
      · rename_i h0
        rw [if_pos h0] at hd
        cases hd
      · rename_i h0
        split at hf
        · rename_i h1
          rw [if_neg h0, if_pos h1] at hd
          cases hd
        · cases hf
    · obtain ⟨harray, hfd⟩ := p.prepared_fd_of_ne cur heq
      exact ⟨by rw [← harray]; exact hr, hfd w⟩
  closed k q w _ := by
    intro r v hr hf _
    by_cases hrv : r = q ∧ v = w
    · obtain ⟨rfl, rfl⟩ := hrv
      rw [k.setFd_fd_self] at hf
      cases hf
    · rw [k.setFd_fd_of_ne _ hrv]
      exact ⟨hr, rfl⟩

/-- For each descriptor the number of calls of `read` since it was opened. -/
abbrev Listing := Pid → Fin 8 → Nat

namespace Listing

def set (n : Listing) (q : Pid) (w : Fin 8) (k : Nat) : Listing :=
  Function.update n q (Function.update (n q) w k)

theorem set_self (n : Listing) (q : Pid) (w : Fin 8) (k : Nat) : n.set q w k q w = k := by
  simp [set]

theorem set_of_ne (n : Listing) {q r : Pid} {w v : Fin 8} (k : Nat) (h : ¬ (r = q ∧ v = w)) :
    n.set q w k r v = n r v := by
  by_cases hr : r = q
  · subst hr
    have hv : v ≠ w := fun hv => h ⟨rfl, hv⟩
    simp [set, Function.update_of_ne hv]
  · simp [set, Function.update_of_ne hr]

theorem set_eq_self (n : Listing) (q : Pid) (w : Fin 8) : n.set q w (n q w) = n := by
  simp [set]

/-- A successful `open` starts the count of its descriptor, a `read` of a descriptor in use is
counted. -/
def record (img : Image) (m : Machine) (e : Event) (n : Listing) : Listing :=
  match e with
  | .open' _ =>
    match Machine.call img m e, m.kern.currPid with
    | some (_, some r), some q =>
      match Kernel.fdOf r.ret with
      | some w => n.set q w 0
      | none => n
    | _, _ => n
  | .read fd buf nbytes =>
    match m.kern.readOf fd buf nbytes with
    | some (q, w) => n.set q w (n q w + 1)
    | none => n
  | _ => n

end Listing

namespace Machine

variable {img : Image} {m m' : Machine} {e : Event} {n : Listing}

def listingStep (img : Image) : Machine × Listing → Event → Option (Machine × Listing) :=
  withHistory (step img) (Listing.record img)

def ListingBoot (s : Machine × Listing) : Prop := Boot s.1

/-- The position of an open directory is the number of calls, up to the number of entries. -/
def DirInv (img : Image) (m : Machine) (n : Listing) : Prop := ∀ q w,
  m.kern.proc.pcbArray q = true → (m.kern.proc.fd q w).flags = true →
    (m.kern.proc.fd q w).fopsPtr = some .dir →
    (m.kern.proc.fd q w).filePos = min (n q w) img.dirCount.toNat

/-- An event that changes one descriptor and its count. -/
theorem DirInv.setFd (h : DirInv img m n) {q : Pid} {w : Fin 8} {fd : FdaEntry} {k : Nat}
    (hproc : m'.kern.proc = (m.kern.setFd q w fd).proc)
    (hfd : fd.fopsPtr = some .dir → fd.filePos = min k img.dirCount.toNat) :
    DirInv img m' (n.set q w k) := by
  intro r v hr hf hd
  rw [hproc] at hr hf hd ⊢
  by_cases hrv : r = q ∧ v = w
  · obtain ⟨rfl, rfl⟩ := hrv
    rw [m.kern.setFd_fd_self] at hd ⊢
    rw [Listing.set_self]
    exact hfd hd
  · rw [m.kern.setFd_fd_of_ne fd hrv] at hf hd ⊢
    rw [Listing.set_of_ne n k hrv]
    exact h r v hr hf hd

/-- A call of `read` by a program that gets to the operations of its descriptor. -/
theorem call_read {fd nbytes : Int} {buf : Option (Nat → UInt8)} {q p : Pid} {w : Fin 8}
    (ho : m.kern.OpenFor fd buf nbytes q w .dir) (hc : m.ctl = .user p) :
    call img m (.read fd buf nbytes) =
      (m.kern.directoryRead img q w nbytes.toNat).map fun r => (⟨r.2, .user p⟩, some r.1) := by
  simp only [call, hc, syscall, Kernel.read, ho.currPid, Option.bind_some, ho.fdOf,
    if_neg ho.not_refused, ho.fopsPtr, Option.map_map]
  rfl

/-- An event that opens nothing and reads neither a file nor a directory does not change the count
of a directory. -/
theorem record_quiet (hq : TablesQuiet m e) : n.record img m e = n ∨
    ∃ q w k, (m.kern.proc.fd q w).fopsPtr ≠ some .dir ∧ n.record img m e = n.set q w k := by
  cases e with
  | open' name => exact hq.elim
  | read fd buf nbytes =>
    simp only [Listing.record]
    split
    · rename_i q w hro
      refine Or.inr ⟨q, w, _, fun hd => ?_, rfl⟩
      exact (hq q w _ (Kernel.openFor_of_readOf hro hd)).2 rfl
    · exact Or.inl rfl
  | _ => exact Or.inl rfl

theorem record_read {fd nbytes : Int} {buf : Option (Nat → UInt8)} {q : Pid} {w : Fin 8} {ops : Fops}
    (ho : m.kern.OpenFor fd buf nbytes q w ops) :
    n.record img m (.read fd buf nbytes) = n.set q w (n q w + 1) := by
  simp only [Listing.record, ho.readOf]

theorem DirInv.opened (h : DirInv img m n) {name : Option CString} {v : Int}
    (hopen : m.kern.open' img name = some (v, m'.kern)) {p : Pid} (hc : m.ctl = .user p) :
    DirInv img m' (n.record img m (.open' name)) := by
  have hcall : call img m (.open' name) = some (⟨m'.kern, .user p⟩, some ⟨v, []⟩) := by
    simp [call, hc, syscall, hopen]
  have hfailed : v = -1 → n.record img m (.open' name) = n := by
    rintro rfl
    simp only [Listing.record, hcall]
    cases m.kern.currPid <;> rfl
  generalize hk : m'.kern = k' at hopen
  cases Kernel.open_cases hopen with
  | refused =>
    rw [hfailed rfl]
    intro q w
    rw [hk]
    exact h q w
  | @failed _ q w e hf =>
    rw [hfailed rfl, ← n.set_eq_self q w]
    intro r v hr hflags hd
    rw [hk] at hr hflags hd ⊢
    by_cases hrv : r = q ∧ v = w
    · obtain ⟨rfl, rfl⟩ := hrv
      rw [m.kern.setFd_fd_self, hf] at hflags
      cases hflags
    · rw [m.kern.setFd_fd_of_ne e hrv] at hflags hd ⊢
      rw [n.set_eq_self]
      exact h r v hr hflags hd
  | @opened q w fname entry ops _ hq _ _ _ _ hproc =>
    have hrec : n.record img m (.open' (some fname)) = n.set q w 0 := by
      simp only [Listing.record, hcall, hq, Kernel.fdOf_val]
    rw [hrec]
    exact h.setFd (by rw [hk, hproc]) fun _ => (Nat.zero_min _).symm

/-- A call of `directory_read` on an open directory: what it returns, and the count after it. -/
theorem DirInv.listed (h : DirInv img m n) (h63 : img.dirCount.toNat ≤ 63) {fd nbytes : Int}
    {buf : Option (Nat → UInt8)} {q p : Pid} {w : Fin 8}
    (ho : m.kern.OpenFor fd buf nbytes q w .dir) (hc : m.ctl = .user p) :
    (n q w < img.dirCount.toNat ∧ ∃ m', call img m (.read fd buf nbytes) = some (m', some
        ⟨((img.direntries (n q w)).name.take nbytes.toNat).length,
          (img.direntries (n q w)).name.take nbytes.toNat⟩) ∧
      m'.kern = m.kern.setFd q w { m.kern.proc.fd q w with filePos := n q w + 1 }) ∨
    (img.dirCount.toNat ≤ n q w ∧ call img m (.read fd buf nbytes) = some (m, some ⟨0, []⟩)) := by
  have hpos := h q w ho.pcbArray ho.flags ho.fopsPtr
  rw [call_read ho hc]
  by_cases hlt : n q w < img.dirCount.toNat
  · rw [Nat.min_eq_left hlt.le] at hpos
    rw [Kernel.directoryRead_entry h63 (by rw [hpos]; exact hlt), hpos]
    exact Or.inl ⟨hlt, _, rfl, rfl⟩
  · rw [Nat.min_eq_right (by omega)] at hpos
    rw [Kernel.directoryRead_atEnd (by rw [hpos])]
    refine Or.inr ⟨by omega, ?_⟩
    obtain ⟨k, c⟩ := m
    cases hc
    rfl

theorem DirInv.next (h : DirInv img m n) (h63 : img.dirCount.toNat ≤ 63)
    (hs : step img m e = some m') : DirInv img m' (n.record img m e) := by
  have huser : IsSyscall e → ∃ p, m.ctl = .user p := by
    intro he
    obtain ⟨x, hcall, _⟩ := Option.map_eq_some_iff.mp hs
    obtain ⟨p, hc, _⟩ := call_user hcall he
    exact ⟨p, hc⟩
  cases step_kinds hs with
  | quiet hq =>
    intro r v hr hf hd
    obtain ⟨hr0, heq⟩ := step_ops DirsKept.tableOps hq hs r v hr hf hd
    rw [heq] at hf hd ⊢
    rcases record_quiet hq with hrec | ⟨q, w, k, hnd, hrec⟩
    · rw [hrec]
      exact h r v hr0 hf hd
    · have hrv : ¬ (r = q ∧ v = w) := by
        rintro ⟨rfl, rfl⟩
        exact hnd hd
      rw [hrec, Listing.set_of_ne n k hrv]
      exact h r v hr0 hf hd
  | opened hopen =>
    obtain ⟨p, hc⟩ := huser trivial
    exact h.opened hopen hc
  | @file fd nbytes buf q w r ho hread =>
    obtain ⟨pos, hk⟩ := Kernel.fileRead_cases hread
    rw [record_read ho]
    refine h.setFd (by rw [hk]) fun hd => ?_
    have hops : ((m.kern.proc.pcb q).fdarray w).fopsPtr = some .dir := hd
    rw [ho.fopsPtr] at hops
    cases hops
  | @dir fd nbytes buf q w r ho hread =>
    obtain ⟨p, hc⟩ := huser trivial
    rcases h.listed h63 ho hc with ⟨hlt, m1, hcall, hk⟩ | ⟨hle, hcall⟩
    · have hm : m1 = m' := by
        rw [step, hcall] at hs
        exact Option.some.inj hs
      subst hm
      rw [record_read ho]
      exact h.setFd (by rw [hk]) fun _ => (Nat.min_eq_left hlt).symm
    · have hm : m = m' := by
        rw [step, hcall] at hs
        exact Option.some.inj hs
      subst hm
      rw [record_read ho]
      intro r v hr hf hd
      by_cases hrv : r = q ∧ v = w
      · obtain ⟨rfl, rfl⟩ := hrv
        rw [Listing.set_self, h r v hr hf hd]
        omega
      · rw [Listing.set_of_ne n _ hrv]
        exact h r v hr hf hd

/-- A call of `directory_read` with room for a byte, the `k`-th since its descriptor was opened.
With `k` below the number of entries it delivers the first bytes of name `k`, and stores nothing
else; later calls return 0 and change nothing. -/
def ListingLaw (img : Image) (m : Machine) (n : Listing) : Prop :=
  ∀ fd buf nbytes q w p, m.kern.OpenFor fd buf nbytes q w .dir → m.ctl = .user p → 1 ≤ nbytes →
    ∃ m' r, call img m (.read fd buf nbytes) = some (m', some r) ∧
      (n q w < img.dirCount.toNat →
        r.ret = (min nbytes.toNat (img.direntries (n q w)).name.length : Nat) ∧ 0 < r.ret ∧
          r.out = (img.direntries (n q w)).name.take nbytes.toNat) ∧
      (img.dirCount.toNat ≤ n q w → r.ret = 0 ∧ r.out = [] ∧ m' = m)

theorem DirInv.law (h : DirInv img m n) (h63 : img.dirCount.toNat ≤ 63)
    (hnames : ∀ i < img.dirCount.toNat, (img.direntries i).name ≠ []) : ListingLaw img m n := by
  intro fd buf nbytes q w p ho hc hn
  rcases h.listed h63 ho hc with ⟨hlt, m', hcall, _⟩ | ⟨hle, hcall⟩
  · refine ⟨m', _, hcall, fun _ => ⟨?_, ?_, rfl⟩, fun hle => by omega⟩
    · simp
    · have hpos := List.length_pos_iff.mpr (hnames _ hlt)
      simp only [List.length_take]
      omega
  · exact ⟨m, _, hcall, fun hlt => by omega, fun _ => ⟨rfl, rfl, rfl⟩⟩

/-- In every run a directory is listed completely, in order and once, whatever the other descriptors
and processes do. -/
theorem directory_listed_once (img : Image) (h0 : 0 ≤ img.dirCount.toInt)
    (h63 : img.dirCount.toInt ≤ 63)
    (hnames : ∀ i < img.dirCount.toNat, (img.direntries i).name ≠ []) (s : Machine × Listing)
    (h : Reach (listingStep img) ListingBoot (fun _ _ => True) s) : ListingLaw img s.1 s.2 := by
  have hcount := Image.dirCount_toNat h0
  have h63 : img.dirCount.toNat ≤ 63 := by omega
  have hinv : DirInv img s.1 s.2 := by
    refine h.inv (I := fun s => DirInv img s.1 s.2) ?_ ?_
    · intro s hb q w hq
      rw [hb.pcbArray q] at hq
      cases hq
    · rintro s e s' hi _ hs
      obtain ⟨hs, heq⟩ := EventSystem.withHistory_eq_some.mp hs
      rw [heq]
      exact hi.next h63 hs
  exact hinv.law h63 hnames

def dotName : CString := [46]

/-- A disk whose first entry is the directory. -/
def folder : Image := { disk with
  dirCount := 3
  direntries := fun i => ⟨fun j => ([dotName, shellName, catName].getD i []).getD j 0,
    if i = 0 then 1 else 2, i⟩ }

theorem folder_names (i : Nat) (hi : i < folder.dirCount.toNat) :
    (folder.direntries i).name ≠ [] := by
  have hlt : i < 3 := hi
  match i with
  | 0 => decide
  | 1 => decide
  | 2 => decide

/-- The shell lists the directory: three names, the second one cut off, and the end. -/
theorem directory_listed_once_folder : ∃ s : Machine × Listing, s.2 0 2 = 4 ∧
    ListingLaw folder s.1 s.2 := by
  have hrun : (run (listingStep folder) (booted, fun _ _ => 0)
      ([.tick 0 0, .open' (some dotName), .read 2 (some fun _ => 0) 32,
        .read 2 (some fun _ => 0) 2, .read 2 (some fun _ => 0) 32,
        .read 2 (some fun _ => 0) 32])).map (fun s => s.2 0 2) = some 4 := by
    decide +kernel
  obtain ⟨s, hs, hn⟩ := Option.map_eq_some_iff.mp hrun
  have hboot : ListingBoot (booted, fun _ _ => 0) := boot_booted
  exact ⟨s, hn, directory_listed_once folder (by decide) (by decide) folder_names s
    (Reach.of_any (.init hboot) hs)⟩

end Machine
end DeviceOS
