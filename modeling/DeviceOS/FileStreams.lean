import DeviceOS.Descriptors
import DeviceOS.FileData

/-!
# DeviceOS.FileStreams

Every file descriptor is a stream of its own.

* `Streams`: for each descriptor the file it was last opened for, the number of bytes requested
  since, and the bytes delivered.
* `StreamInv`: the position of an open descriptor is the number of bytes requested, up to the length
  of the file, and what was delivered are the bytes up to the position.
* `each_fd_is_a_stream`: in every run on a well-formed image, the bytes delivered on a descriptor are
  the first bytes of its file, and a read delivers nothing only at the end.
-/

namespace DeviceOS

open EventSystem (Reach run withHistory)

/-- What the file system checks nowhere: entries name existing inodes, lengths fit into the block
slots, and every block number exists. -/
structure Image.WellFormed (img : Image) : Prop where
  entries : ∀ i : Nat, (i : Int) < img.dirCount.toInt → i < numDirentries →
    (img.direntries i).inodeNum.toNat < img.inodeCount.toNat
  lengths : ∀ i < img.inodeCount.toNat, 0 ≤ (img.inodes i).length.toInt ∧
    (img.inodes i).length.toInt ≤ 1023 * 4096
  blocks : ∀ i < img.inodeCount.toNat, ∀ s < numBlockSlots,
    img.validBlock ((img.inodes i).dataBlockNum s) = true

namespace Image

variable {img : Image}

theorem WellFormed.length_le (hw : img.WellFormed) {i : Nat} (hi : i < img.inodeCount.toNat) :
    (img.inodes i).length.toNat ≤ 1023 * 4096 := by
  obtain ⟨h0, h1⟩ := hw.lengths i hi
  have hbound := (img.inodes i).length.isLt
  rw [BitVec.toInt_eq_toNat_cond] at h0 h1
  split at h0 <;> omega

theorem WellFormed.readable (hw : img.WellFormed) {i : Nat} (hi : i < img.inodeCount.toNat)
    (offset n : Nat) : img.Readable (img.inodes i) offset n := by
  intro s _ hs
  have := hw.length_le hi
  have hslot : s < numBlockSlots := by
    have : s * blockByteSize < 1023 * blockByteSize := by
      simp only [blockByteSize] at hs ⊢
      omega
    exact Nat.lt_of_mul_lt_mul_right this
  exact ⟨hslot, hw.blocks i hi s hslot⟩

/-- `read_data` on a well-formed image, from a position in the file or at its end. -/
theorem WellFormed.readData (hw : img.WellFormed) {i : Nat} (hi : i < img.inodeCount.toNat)
    {offset : Nat} (ho : offset ≤ (img.inodes i).length.toNat) (n : Nat) :
    img.readData i offset n = .ok ⟨(min n ((img.inodes i).length.toNat - offset) : Nat),
      img.slice (img.inodes i) offset (min n ((img.inodes i).length.toNat - offset))⟩ := by
  have hlen := hw.length_le hi
  by_cases hs : offset / blockByteSize < numBlockSlots
  · exact readData_eq hi hs (hw.blocks i hi _ hs) (hw.readable hi offset n)
  · -- the file fills all its slots, and has been read to its end
    have hend : (img.inodes i).length.toNat - offset = 0 := by
      simp only [numBlockSlots, blockByteSize] at hs
      omega
    simp only [Image.readData]
    rw [if_neg (by omega), if_pos (by omega), hend]
    simp

/-- The first bytes of a file. -/
theorem take_content (ino : Inode) (n : Nat) :
    (img.content ino).take (min n ino.length.toNat) = img.slice ino 0 (min n ino.length.toNat) :=
  (slice_eq_take ino (Nat.min_le_right _ _)).symm

theorem findDentry_mem {fname : CString} : ∀ {n i : Nat} {entry : Dentry},
    img.findDentry fname n i = .ok (some entry) →
      ∃ j, i ≤ j ∧ j < i + n ∧ j < numDirentries ∧ entry = img.direntries j := by
  intro n
  induction n with
  | zero =>
    intro i entry h
    cases h
  | succ n ih =>
    intro i entry h
    simp only [findDentry] at h
    split at h
    · cases h
    · split at h
      · cases h
        exact ⟨i, le_refl i, by omega, by omega, rfl⟩
      · obtain ⟨j, h1, h2, h3, h4⟩ := ih h
        exact ⟨j, by omega, by omega, h3, h4⟩

theorem WellFormed.inode_lt (hw : img.WellFormed) {fname : CString} {entry : Dentry}
    (h : img.readDentryByName fname = .ok (some entry)) :
    entry.inodeNum.toNat < img.inodeCount.toNat := by
  simp only [readDentryByName] at h
  split at h
  · cases h
  · obtain ⟨j, _, h2, h3, rfl⟩ := findDentry_mem h
    exact hw.entries j (by omega) h3

end Image

/-! ## The record of what was delivered -/

namespace Kernel

variable {k : Kernel} {fd nbytes : Int} {buf : Option (Nat → UInt8)} {q : Pid} {w : Fin 8}

/-- The process and the descriptor that a call of `read` is for, when its arguments are valid and the
descriptor is in use. -/
def readOf (k : Kernel) (fd : Int) (buf : Option (Nat → UInt8)) (nbytes : Int) :
    Option (Pid × Fin 8) :=
  match k.currPid, fdOf fd with
  | some q, some w =>
    if k.proc.pcbArray q = true ∧ buf.isSome = true ∧ 0 ≤ nbytes ∧ (k.proc.fd q w).flags = true then
      some (q, w)
    else none
  | _, _ => none

theorem readOf_eq_some : k.readOf fd buf nbytes = some (q, w) ↔
    (k.currPid = some q ∧ fdOf fd = some w) ∧ k.proc.pcbArray q = true ∧ buf.isSome = true ∧
      0 ≤ nbytes ∧ (k.proc.fd q w).flags = true := by
  simp only [readOf]
  cases k.currPid with
  | none => simp
  | some q' =>
    cases fdOf fd with
    | none => simp
    | some w' =>
      simp only [Option.ite_none_right_eq_some, Option.some.injEq, Prod.mk.injEq]
      constructor
      · rintro ⟨hcond, rfl, rfl⟩
        exact ⟨⟨rfl, rfl⟩, hcond⟩
      · rintro ⟨⟨rfl, rfl⟩, hcond⟩
        exact ⟨hcond, rfl, rfl⟩

theorem OpenFor.readOf {ops : Fops} (h : k.OpenFor fd buf nbytes q w ops) :
    k.readOf fd buf nbytes = some (q, w) :=
  readOf_eq_some.mpr ⟨⟨h.currPid, h.fdOf⟩, h.pcbArray, Option.isSome_iff_ne_none.mpr h.buf, h.nbytes,
    h.flags⟩

theorem openFor_of_readOf {ops : Fops} (h : k.readOf fd buf nbytes = some (q, w))
    (hops : (k.proc.fd q w).fopsPtr = some ops) : k.OpenFor fd buf nbytes q w ops := by
  obtain ⟨⟨hq, hw⟩, hpcb, hbuf, hn, hf⟩ := readOf_eq_some.mp h
  exact ⟨hq, hw, hpcb, Option.isSome_iff_ne_none.mp hbuf, hn, hf, hops⟩

end Kernel


/-- A file that is being read: its inode, the bytes requested so far and the bytes delivered. -/
structure Stream where
  inode : Nat
  requested : Nat
  bytes : List UInt8

def Stream.read (s : Stream) (nbytes : Nat) (out : List UInt8) : Stream :=
  ⟨s.inode, s.requested + nbytes, s.bytes ++ out⟩

/-- The stream that `open` starts; `none` for the RTC, a directory, or no file. -/
def Image.stream (img : Image) (name : CString) : Option Stream :=
  match img.readDentryByName name with
  | .ok (some entry) => if entry.filetype = 2 then some ⟨entry.inodeNum.toNat, 0, []⟩ else none
  | _ => none

abbrev Streams := Pid → Fin 8 → Option Stream

namespace Streams

def set (st : Streams) (q : Pid) (w : Fin 8) (o : Option Stream) : Streams :=
  Function.update st q (Function.update (st q) w o)

theorem set_self (st : Streams) (q : Pid) (w : Fin 8) (o : Option Stream) : st.set q w o q w = o := by
  simp [set]

theorem set_of_ne (st : Streams) {q r : Pid} {w v : Fin 8} (o : Option Stream)
    (h : ¬ (r = q ∧ v = w)) : st.set q w o r v = st r v := by
  by_cases hr : r = q
  · subst hr
    have hv : v ≠ w := fun hv => h ⟨rfl, hv⟩
    simp [set, Function.update_of_ne hv]
  · simp [set, Function.update_of_ne hr]

theorem set_eq_self (st : Streams) {q : Pid} {w : Fin 8} {o : Option Stream} (h : st q w = o) :
    st.set q w o = st := by
  simp [set, ← h]

/-- A successful `open` starts a stream on the descriptor it returns. A `read` of a descriptor in use
adds to its stream the number of bytes it requests, and the bytes it delivers. -/
def record (img : Image) (m : Machine) (e : Event) (st : Streams) : Streams :=
  match e with
  | .open' (some name) =>
    match Machine.call img m e, m.kern.currPid with
    | some (_, some r), some q =>
      match Kernel.fdOf r.ret with
      | some w => st.set q w (img.stream name)
      | none => st
    | _, _ => st
  | .read fd buf nbytes =>
    match m.kern.readOf fd buf nbytes with
    | some (q, w) => st.set q w ((st q w).map fun s =>
        s.read nbytes.toNat (Machine.call img m e).bytes)
    | none => st
  | _ => st

end Streams

namespace Machine

variable {img : Image} {m m' : Machine} {e : Event} {st : Streams}

/-- The machine with the record of what its descriptors have delivered. -/
def streamStep (img : Image) : Machine × Streams → Event → Option (Machine × Streams) :=
  withHistory (step img) (Streams.record img)

def StreamBoot (s : Machine × Streams) : Prop := Boot s.1 ∧ ∀ q w, s.2 q w = none

/-! ## The invariant -/

/-- A descriptor agrees with its stream. -/
def FdOk (img : Image) (e : FdaEntry) : Option Stream → Prop
  | some s => e.flags = true → e.fopsPtr = some .file ∧ e.inodeNum = s.inode ∧
    e.filePos = min s.requested (img.inodes s.inode).length.toNat
  | none => e.flags = true → e.fopsPtr ≠ some .file

/-- A stream has delivered the first bytes of its file. -/
def StreamOk (img : Image) (s : Stream) : Prop :=
  s.bytes = (img.content (img.inodes s.inode)).take
    (min s.requested (img.inodes s.inode).length.toNat)

structure StreamInv (img : Image) (m : Machine) (st : Streams) : Prop where
  fds : ∀ q w, m.kern.proc.pcbArray q = true → FdOk img (m.kern.proc.fd q w) (st q w)
  terminal : ∀ q w, w.val < 2 → st q w = none
  inode : ∀ q w s, st q w = some s → s.inode < img.inodeCount.toNat
  bytes : ∀ q w s, st q w = some s → StreamOk img s

theorem FdOk.kept {fd fd' : FdaEntry} {o : Option Stream} (h : FdOk img fd o) (hk : FdKept fd fd') :
    FdOk img fd' o := by
  cases o with
  | none =>
    intro hf
    rw [hk.fopsPtr hf]
    exact h (hk.flags hf)
  | some s =>
    intro hf
    obtain ⟨h1, h2, h3⟩ := h (hk.flags hf)
    obtain ⟨h4, h5⟩ := hk.file hf h1
    exact ⟨(hk.fopsPtr hf).trans h1, h4.trans h2, h5.trans h3⟩

/-- An event that keeps the descriptors and the record. -/
theorem StreamInv.kept (h : StreamInv img m st) (hk : FdsKept m.kern.proc m'.kern.proc) :
    StreamInv img m' st := by
  refine ⟨fun q w hq => ?_, h.terminal, h.inode, h.bytes⟩
  rcases hk q hq with ⟨hq', hkept⟩ | hfresh
  · exact (h.fds q w hq').kept (hkept w)
  · cases ho : st q w with
    | none => exact fun hf => (hfresh w hf).2
    | some s =>
      intro hf
      rw [h.terminal q w (hfresh w hf).1] at ho
      cases ho

/-- An event that changes one descriptor and its stream. -/
theorem StreamInv.setFd (h : StreamInv img m st) {q : Pid} {w : Fin 8} {fd : FdaEntry}
    {o : Option Stream} (hproc : m'.kern.proc = (m.kern.setFd q w fd).proc)
    (hfd : m.kern.proc.pcbArray q = true → FdOk img fd o) (hterm : w.val < 2 → o = none)
    (hino : ∀ s, o = some s → s.inode < img.inodeCount.toNat)
    (hbytes : ∀ s, o = some s → StreamOk img s) : StreamInv img m' (st.set q w o) := by
  have hcase : ∀ (P : Option Stream → Prop) r v, P o → P (st r v) → P (st.set q w o r v) := by
    intro P r v h1 h2
    by_cases hrv : r = q ∧ v = w
    · obtain ⟨rfl, rfl⟩ := hrv
      rwa [Streams.set_self]
    · rwa [Streams.set_of_ne st o hrv]
  refine ⟨fun r v hr => ?_, fun r v hv => ?_, fun r v => ?_, fun r v => ?_⟩
  · rw [hproc] at hr ⊢
    by_cases hrv : r = q ∧ v = w
    · obtain ⟨rfl, rfl⟩ := hrv
      rw [Streams.set_self, m.kern.setFd_fd_self]
      exact hfd hr
    · rw [Streams.set_of_ne st o hrv]
      rw [m.kern.setFd_fd_of_ne fd hrv]
      exact h.fds r v hr
  · by_cases hrv : r = q ∧ v = w
    · obtain ⟨rfl, rfl⟩ := hrv
      rw [Streams.set_self]
      exact hterm hv
    · rw [Streams.set_of_ne st o hrv]
      exact h.terminal r v hv
  · exact hcase (fun x => ∀ s, x = some s → s.inode < img.inodeCount.toNat) r v hino (h.inode r v)
  · exact hcase (fun x => ∀ s, x = some s → StreamOk img s) r v hbytes (h.bytes r v)

/-- A `read` of an open file: what it delivers, and the position after it. -/
theorem StreamInv.fileRead (h : StreamInv img m st) (hw : img.WellFormed) {q : Pid} {w : Fin 8}
    {s : Stream} (hs : st q w = some s) (hq : m.kern.proc.pcbArray q = true)
    (hf : (m.kern.proc.fd q w).flags = true) (n : Nat) :
    ∃ r k, m.kern.fileRead img q w n = some (r, k) ∧ r.ret = r.out.length ∧
      (r.out = [] → 0 < n → s.bytes = img.content (img.inodes s.inode)) ∧
      StreamOk img (s.read n r.out) ∧
      ∃ fd, k.proc = (m.kern.setFd q w fd).proc ∧ FdOk img fd (some (s.read n r.out)) := by
  have hino := h.inode q w s hs
  have hlen := hw.length_le hino
  have hok := h.fds q w hq
  rw [hs] at hok
  obtain ⟨hops, hnum, hpos⟩ := hok hf
  have hbytes := h.bytes q w s hs
  set len := (img.inodes s.inode).length.toNat with hlen'
  have hdata := hw.readData hino (Nat.min_le_right s.requested len) n
  have hread : img.readData ((m.kern.proc.pcb q).fdarray w).inodeNum
      ((m.kern.proc.pcb q).fdarray w).filePos n = .ok
        ⟨(min n (len - min s.requested len) : Nat), img.slice (img.inodes s.inode)
          (min s.requested len) (min n (len - min s.requested len))⟩ := by
    rw [← hdata]
    exact congrArg₂ (fun a b => img.readData a b n) hnum hpos
  simp only [Kernel.fileRead, hread]
  have hsum : min s.requested len + min n (len - min s.requested len) =
      min (s.requested + n) len := by omega
  refine ⟨_, _, rfl, by simp, ?_, ?_, _, rfl, fun _ => ⟨hops, hnum, ?_⟩⟩
  · intro hnil hn
    have hzero : min n (len - min s.requested len) = 0 := by
      simpa using congrArg List.length hnil
    have hall : min s.requested len = len := by omega
    rw [hbytes, ← hlen', hall, List.take_of_length_le]
    simp [Image.content, hlen']
  · simp only [StreamOk, Stream.read] at hbytes ⊢
    rw [hbytes, Image.take_content, Image.take_content, ← hlen']
    have happ := @Image.slice_append img (img.inodes s.inode) 0 (min s.requested len)
      (min n (len - min s.requested len))
    rw [Nat.zero_add] at happ
    rw [happ, hsum]
  · have hp : ((m.kern.proc.pcb q).fdarray w).filePos = min s.requested len := hpos
    simp only [Stream.read, hp, ← hlen', ← hsum]
    have h1 : ((min n (len - min s.requested len) : Nat) : Int) % 2 ^ 32 =
        (min n (len - min s.requested len) : Nat) := by omega
    rw [h1, Int.toNat_natCast]
    omega

theorem freeFd_two_le {b : Pcb} {w : Fin 8} (h : Kernel.freeFd b = some w) : 2 ≤ w.val := by
  have := List.find?_some h
  simp only [Bool.and_eq_true, decide_eq_true_eq] at this
  exact this.1

/-- `open` returns -1 and closes at most a descriptor that it had set up, or returns a new one. -/
theorem open_streams {name : Option CString} {k k' : Kernel} {v : Int}
    (h : k.open' img name = some (v, k')) : (v = -1 ∧ FdsKept k.proc k'.proc) ∨
      ∃ q w fname entry fd, k.currPid = some q ∧ v = w.val ∧ 2 ≤ w.val ∧ name = some fname ∧
        img.readDentryByName fname = .ok (some entry) ∧ k'.proc = (k.setFd q w fd).proc ∧
        fd.inodeNum = entry.inodeNum.toNat ∧ fd.filePos = 0 ∧
        (fd.fopsPtr = some .file ↔ entry.filetype = 2) := by
  cases Kernel.open_cases h with
  | refused => exact Or.inl ⟨rfl, .refl _⟩
  | failed hf => exact Or.inl ⟨rfl, .closed k _ _ hf⟩
  | @opened q w fname entry ops _ hq hfree hname hops hfile hproc =>
    refine Or.inr ⟨q, w, fname, entry, _, hq, rfl, freeFd_two_le hfree, rfl, hname, hproc, rfl, rfl,
      fun h => hfile (Option.some.inj h), fun htype => ?_⟩
    rw [htype] at hops
    exact hops.symm

/-- A `read` that does not fail is of a descriptor in use. -/
theorem read_open {k k' : Kernel} {fd nbytes : Int} {buf : Option (Nat → UInt8)} {r : Reply}
    (h : k.read img fd buf nbytes = some (.ret r k')) (hr : 0 ≤ r.ret) :
    ∃ q w, k.readOf fd buf nbytes = some (q, w) := by
  cases Kernel.read_cases h with
  | refused => exact absurd hr (by decide)
  | file ho => exact ⟨_, _, ho.readOf⟩
  | dir ho => exact ⟨_, _, ho.readOf⟩

/-- `read` as the program of a process calls it, for a descriptor with the operation `file_read`. -/
theorem call_fileRead {fd nbytes : Int} {buf : Option (Nat → UInt8)} {q p : Pid} {w : Fin 8}
    (ho : m.kern.OpenFor fd buf nbytes q w .file) (hc : m.ctl = .user p) :
    call img m (.read fd buf nbytes) =
      (m.kern.fileRead img q w nbytes.toNat).map fun r => (⟨r.2, .user p⟩, some r.1) := by
  simp only [call, hc, syscall, Kernel.read, ho.currPid, Option.bind_some, ho.fdOf,
    if_neg ho.not_refused, ho.fopsPtr, Option.map_map]
  rfl

/-- An `open` starts the stream of the file it names. -/
theorem StreamInv.opened (h : StreamInv img m st) (hw : img.WellFormed) {name : Option CString}
    {v : Int} (hopen : m.kern.open' img name = some (v, m'.kern)) {p : Pid} (hc : m.ctl = .user p) :
    StreamInv img m' (st.record img m (.open' name)) := by
  have hcall : call img m (.open' name) = some (⟨m'.kern, .user p⟩, some ⟨v, []⟩) := by
    simp [call, hc, syscall, hopen]
  rcases open_streams hopen with ⟨rfl, hk⟩ |
    ⟨q, w, fname, entry, fd, hq, rfl, h2, rfl, hname, hproc, hnum, hpos, hops⟩
  · have hrec : st.record img m (.open' name) = st := by
      cases name with
      | none => rfl
      | some fname =>
        simp only [Streams.record, hcall]
        cases m.kern.currPid <;> rfl
    rw [hrec]
    exact h.kept hk
  · have hrec : st.record img m (.open' (some fname)) = st.set q w (img.stream fname) := by
      simp only [Streams.record, hcall, hq, Kernel.fdOf_val]
    have hstream : img.stream fname =
        if entry.filetype = 2 then some ⟨entry.inodeNum.toNat, 0, []⟩ else none := by
      simp only [Image.stream, hname]
    rw [hrec, hstream]
    refine h.setFd hproc (fun _ => ?_) (fun hlt => by omega) (fun s hs => ?_) fun s hs => ?_
    · split
      · rename_i htype
        exact fun _ => ⟨hops.mpr htype, hnum, by rw [hpos, Nat.zero_min]⟩
      · rename_i htype
        exact fun _ hf => htype (hops.mp hf)
    · split at hs <;> cases hs
      exact hw.inode_lt hname
    · split at hs <;> cases hs
      simp [StreamOk]

/-- A `read` of a file adds to its stream. -/
theorem StreamInv.readFile (h : StreamInv img m st) (hw : img.WellFormed) {fd nbytes : Int}
    {buf : Option (Nat → UInt8)} {q : Pid} {w : Fin 8} {r : Reply}
    (hread : ReadsFile m (.read fd buf nbytes) q w nbytes)
    (hr : m.kern.fileRead img q w nbytes.toNat = some (r, m'.kern)) {p : Pid}
    (hc : m.ctl = .user p) : StreamInv img m' (st.record img m (.read fd buf nbytes)) := by
  have ho := readsFile_iff.mp hread
  cases hs : st q w with
  | none =>
    have hok := h.fds q w ho.pcbArray
    rw [hs] at hok
    exact absurd ho.fopsPtr (hok ho.flags)
  | some s =>
    obtain ⟨r', k', hr', _, _, hsok, fd', hproc, hfdok⟩ :=
      h.fileRead hw hs ho.pcbArray ho.flags nbytes.toNat
    rw [hr] at hr'
    cases hr'
    have hrec : st.record img m (.read fd buf nbytes) =
        st.set q w (some (s.read nbytes.toNat r.out)) := by
      simp only [Streams.record, ho.readOf, hs, Option.map_some, call_fileRead ho hc, hr,
        Outcome.bytes]
    rw [hrec]
    refine h.setFd hproc (fun _ => hfdok) (fun hlt => ?_) (fun x hx => ?_) fun x hx => ?_
    · rw [h.terminal q w hlt] at hs
      cases hs
    · cases hx
      exact h.inode q w s hs
    · cases hx
      exact hsok

/-- Other events add to no stream. -/
theorem StreamInv.record_quiet (h : StreamInv img m st) (hquiet : FdQuiet m e) :
    st.record img m e = st := by
  cases e with
  | open' name => exact hquiet.elim
  | read fd buf nbytes =>
    simp only [Streams.record]
    split
    · rename_i q w hro
      obtain ⟨_, hpcb, _, _, hf⟩ := Kernel.readOf_eq_some.mp hro
      -- a stream on this descriptor would make the call one of `file_read`
      have hnone : st q w = none := by
        cases hs : st q w with
        | none => rfl
        | some s =>
          have hok := h.fds q w hpcb
          rw [hs] at hok
          exact absurd (readsFile_iff.mpr (Kernel.openFor_of_readOf hro (hok hf).1)) (hquiet q w)
      exact st.set_eq_self (by rw [hnone]; rfl)
    · rfl
  | _ => rfl

theorem StreamInv.next (h : StreamInv img m st) (hw : img.WellFormed)
    (hs : step img m e = some m') : StreamInv img m' (st.record img m e) := by
  have huser : IsSyscall e → ∃ p, m.ctl = .user p := by
    intro he
    obtain ⟨x, hcall, _⟩ := Option.map_eq_some_iff.mp hs
    obtain ⟨p, hc, _⟩ := call_user hcall he
    exact ⟨p, hc⟩
  cases step_fds hs with
  | kept hquiet hk =>
    rw [h.record_quiet hquiet]
    exact h.kept hk
  | opened hopen =>
    obtain ⟨p, hc⟩ := huser trivial
    exact h.opened hw hopen hc
  | file hread hr =>
    obtain ⟨p, hc⟩ := huser trivial
    exact h.readFile hw hread hr hc

/-- What a descriptor has delivered since it was opened are the first bytes of its file, as many as
were requested if the file has them. Every read of it returns the number of bytes it delivers, and it
delivers nothing only when the whole file has been delivered. -/
structure StreamLaw (img : Image) (m : Machine) (st : Streams) : Prop where
  delivered : ∀ q w s, st q w = some s → s.bytes =
    (img.content (img.inodes s.inode)).take (min s.requested (img.inodes s.inode).length.toNat)
  returns : ∀ fd buf nbytes q w s p, st q w = some s → m.kern.readOf fd buf nbytes = some (q, w) →
    m.ctl = .user p →
      ∃ m' r, call img m (.read fd buf nbytes) = some (m', some r) ∧ r.ret = r.out.length
  atEnd : ∀ fd buf nbytes q w s m' r, m.kern.currPid = some q → Kernel.fdOf fd = some w →
    st q w = some s → call img m (.read fd buf nbytes) = some (m', some r) → r.ret = 0 → 0 < nbytes →
      s.bytes = img.content (img.inodes s.inode)

/-- A read of a descriptor that has a stream. -/
theorem StreamInv.call (h : StreamInv img m st) (hw : img.WellFormed) {fd nbytes : Int}
    {buf : Option (Nat → UInt8)} {q p : Pid} {w : Fin 8} {s : Stream} (hs : st q w = some s)
    (hro : m.kern.readOf fd buf nbytes = some (q, w)) (hc : m.ctl = .user p) :
    ∃ m' r, call img m (.read fd buf nbytes) = some (m', some r) ∧ r.ret = r.out.length ∧
      (r.out = [] → 0 < nbytes → s.bytes = img.content (img.inodes s.inode)) := by
  obtain ⟨_, hpcb, _, _, hf⟩ := Kernel.readOf_eq_some.mp hro
  have hok := h.fds q w hpcb
  rw [hs] at hok
  obtain ⟨r, k, hread, hret, hall, _⟩ := h.fileRead hw hs hpcb hf nbytes.toNat
  refine ⟨⟨k, .user p⟩, r, ?_, hret, fun hnil hn => hall hnil (by omega)⟩
  rw [call_fileRead (Kernel.openFor_of_readOf hro (hok hf).1) hc, hread]
  rfl

theorem StreamInv.law (h : StreamInv img m st) (hw : img.WellFormed) : StreamLaw img m st := by
  refine ⟨h.bytes, fun fd buf nbytes q w s p hs hro hc => ?_, ?_⟩
  · obtain ⟨m', r, hcall, hret, _⟩ := h.call hw hs hro hc
    exact ⟨m', r, hcall, hret⟩
  · intro fd buf nbytes q w s m' r hq hfd hs hcall hret hn
    obtain ⟨p, hc, hsys⟩ := call_user hcall trivial
    obtain ⟨x, hx, heq⟩ := Option.map_eq_some_iff.mp hsys
    cases x with
    | terminal t => cases heq
    | rtc k' => cases heq
    | ret r' k' =>
      cases heq
      obtain ⟨q', w', hro⟩ := read_open hx (by omega)
      obtain ⟨⟨hq', hfd'⟩, _⟩ := Kernel.readOf_eq_some.mp hro
      obtain rfl : q = q' := Option.some.inj (hq.symm.trans hq')
      obtain rfl : w = w' := Option.some.inj (hfd.symm.trans hfd')
      obtain ⟨m1, r1, hcall1, hlen, hall⟩ := h.call hw hs hro hc
      rw [hcall] at hcall1
      cases hcall1
      exact hall (List.length_eq_zero_iff.mp (by omega)) hn

/-- On a well-formed image, in every run, every file descriptor delivers the bytes of its file in
order, whatever the other descriptors and processes do. -/
theorem each_fd_is_a_stream (img : Image) (hw : img.WellFormed) (s : Machine × Streams)
    (h : Reach (streamStep img) StreamBoot (fun _ _ => True) s) : StreamLaw img s.1 s.2 := by
  have hinv : StreamInv img s.1 s.2 := by
    refine h.inv (I := fun s => StreamInv img s.1 s.2) ?_ ?_
    · intro s hb
      have hnone : ∀ q w x, s.2 q w = some x → False := by
        intro q w x hx
        rw [hb.2 q w] at hx
        cases hx
      refine ⟨fun q w hq => ?_, fun q w _ => hb.2 q w, fun q w x hx => (hnone q w x hx).elim,
        fun q w x hx => (hnone q w x hx).elim⟩
      rw [hb.1.pcbArray q] at hq
      cases hq
    · rintro s e s' hi _ hs
      obtain ⟨hs, heq⟩ := EventSystem.withHistory_eq_some.mp hs
      rw [heq]
      exact hi.next hw hs
  exact hinv.law hw

/-- Three files of one block with the same bytes. -/
def files : Image := { disk with inodes := fun _ => ⟨28, fun _ => 0⟩ }

theorem files_wellFormed : files.WellFormed where
  entries := by
    intro i h _
    have hi : i < 3 := by
      have : files.dirCount.toInt = 3 := rfl
      omega
    match i with
    | 0 => decide
    | 1 => decide
    | 2 => decide
  lengths := by
    intro i _
    have hlen : (files.inodes i).length = 28 := rfl
    rw [hlen]
    decide
  blocks := by
    intro i _ s _
    rfl

/-- One file is open twice, and the two descriptors are read in turns. -/
theorem each_fd_is_a_stream_twice : ∃ s : Machine × Streams,
    (s.2 0 2).map Stream.requested = some 110 ∧ (s.2 0 3).map Stream.requested = some 4 ∧
      StreamLaw files s.1 s.2 := by
  have hrun : (run (streamStep files) (booted, fun _ _ => none)
      [.tick 0 0, .open' (some catName), .open' (some catName), .read 2 (some fun _ => 0) 10,
        .read 3 (some fun _ => 0) 4, .read 2 (some fun _ => 0) 100]).map (fun s =>
          ((s.2 0 2).map Stream.requested, (s.2 0 3).map Stream.requested)) =
        some (some 110, some 4) := by
    decide +kernel
  obtain ⟨s, hs, hp⟩ := Option.map_eq_some_iff.mp hrun
  simp only [Prod.mk.injEq] at hp
  exact ⟨s, hp.1, hp.2, each_fd_is_a_stream files files_wellFormed s
    (Reach.of_any (.init ⟨boot_booted, fun _ _ => rfl⟩) hs)⟩

end Machine
end DeviceOS
