import DeviceOS.FileReads
import DeviceOS.Isolation
import DeviceOS.UserCalls

/-!
# DeviceOS.CopyPrograms

`ece391cat.c` and `ece391ls.c`: each opens a file or a directory, reads it until `read` returns 0,
and writes what it has read to the terminal.

* `CopyCode`, `Main`: the constants of a program, and its locals between two system calls, with a
  record of what it has written. `Main.makes`, `Main.next`: the text of `main`.
* `Image.Copies`: what the loop prints from a descriptor on, and the exit status.
* `Image.copies_file`, `Image.copies_dir`: for a file its content, for a directory its names.
* `Main.Ends`: what is still to be printed. `inv_alone`: the calls of the program keep it, when it
  runs by itself.
* `cat_prints_file`, `ls_lists_directory`: the whole programs, among all other processes.
-/

namespace DeviceOS

open Buffers (Holds)
open CString (NulFree)
open EventSystem (Reach run)

/-! ## The programs -/

/-- Where `main` is. `open' path`: the string passed to `open` begins with the bytes `path`.
`puts msg status`: in `fdputs`, with `return status` behind it. `halt`: `main` has returned. -/
inductive Pc where
  | getargs
  | open' (path : List UInt8)
  | read
  | write (cnt : Int)
  | puts (msg : CString) (status : UInt8)
  | halt (status : UInt8)
  deriving DecidableEq

/-- The constants in which the programs differ. `suffix` is stored behind the bytes read. -/
structure CopyCode where
  name : CString
  first : Pc
  size : Nat
  suffix : List UInt8
  openFailed : CString
  readFailed : CString

/-- The locals. `buf` is what is known of the buffer, from its start. `out` and `calls` record the
bytes written to descriptor 1 and the calls made. -/
structure Main where
  pc : Pc
  fd : Int
  buf : List UInt8
  args : CString
  out : List UInt8
  calls : Nat

namespace Main

/-- The system call that comes next. The memory behind the bytes that are known is arbitrary. -/
def makes (c : CopyCode) (x : Main) (e : Event) : Bool :=
  match x.pc, e with
  | .getargs, .getargs _ n => n = c.size
  | .open' path, .open' (some name) =>
    -- either the string ends in the bytes that are known, or it goes on behind them
    decide (NulFree name) && (decide (name ++ [0] <+: path) || decide (path <+: name))
  | .read, .read fd (some _) n => fd = x.fd ∧ n = c.size
  | .write cnt, .write fd (some mem) n => fd = 1 ∧ Holds mem x.buf ∧ n = cnt
  | .puts msg _, .write fd (some mem) n => fd = 1 ∧ StringAt mem msg ∧ n = msg.strlen
  | .halt status, .halt status' => status' = status
  | _, _ => false

/-- Bytes that `write` has taken. -/
def wrote (x : Main) (r : Reply) (bytes : List UInt8) : Main :=
  if r.ret = -1 then x else { x with out := x.out ++ bytes }

def next (c : CopyCode) (x : Main) (r : Reply) : Main :=
  let y := { x with calls := x.calls + 1 }
  match x.pc with
  | .getargs =>
    if r.ret ≠ 0 then { y with pc := .puts (literal "could not read arguments\n") 3 }
    else { y with pc := .open' r.out }
  | .open' _ =>
    if r.ret = -1 then { y with fd := r.ret, pc := .puts c.openFailed 2 }
    else { y with fd := r.ret, pc := .read }
  | .read =>
    if r.ret = 0 then { y with pc := .halt 0 }
    else if r.ret = -1 then { y with pc := .puts c.readFailed 3 }
    else { y with buf := r.out ++ c.suffix, pc := .write (r.ret + c.suffix.length) }
  | .write cnt =>
    if r.ret = -1 then { y with pc := .halt 3 }
    else { y.wrote r (x.buf.take cnt.toNat) with pc := .read }
  | .puts msg status => { y.wrote r msg with pc := .halt status }
  | .halt _ => x

end Main

/-- What a program prints in all, and its exit status. -/
abbrev Printout := List UInt8 × UInt8

/-- The program, as far as its printout is known. -/
def CopyCode.program (c : CopyCode) (expect : CString → Option Printout) : UserProgram Main where
  start cmd :=
    if cmd.text.name = c.name ∧ (expect cmd.text.args).isSome then
      some ⟨c.first, 0, [], cmd.text.args, [], 0⟩
    else none
  makes x e := x.makes c e = true
  next := Main.next c

instance (c : CopyCode) (expect : CString → Option Printout) (x : Main) (e : Event) :
    Decidable ((c.program expect).makes x e) :=
  inferInstanceAs (Decidable (_ = true))

/-- `main` of `ece391cat.c`. -/
def catCode : CopyCode where
  name := Machine.catName
  first := .getargs
  size := 1024
  suffix := []
  openFailed := literal "file not found\n"
  readFailed := literal "file read failed\n"

/-- `main` of `ece391ls.c`; `SBUFSIZE` is 33. -/
def lsCode : CopyCode where
  name := literal "ls"
  first := .open' (literal "." ++ [0])
  size := 32
  suffix := literal "\n"
  openFailed := literal "directory open failed\n"
  readFailed := literal "directory entry read failed\n"

/-! ## What they print -/

namespace Image

variable (img : Image)

/-- The names of the directory, in order. -/
def names : List CString :=
  (List.range img.dirCount.toNat).map fun i => (img.direntries i).name

instance (ino : Inode) (offset : Nat) : Decidable (img.SlotReadable ino offset) :=
  inferInstanceAs (Decidable (_ ∨ _))

/-- The printout of `main` from `open` on. A file whose blocks end with the file prints an error
too: `read_data` looks for the next block first. Nothing is said about devices. -/
def printout (c : CopyCode) (name : CString) : Option Printout :=
  match img.readDentryByName name with
  | .error _ => none
  | .ok none => some (c.openFailed, 2)
  | .ok (some entry) =>
    let ino := img.inodes entry.inodeNum.toNat
    if entry.filetype = 1 then
      some ((img.names.takeWhile (· ≠ [])).flatMap (· ++ c.suffix), 0)
    else if entry.filetype = 2 ∧ c.suffix = [] then
      if img.SlotReadable ino ino.length.toNat then some (img.content ino, 0)
      else some (img.content ino ++ c.readFailed, 3)
    else none

/-- An image as `read_data` and `read_dentry_by_index` need it. -/
structure Sound : Prop where
  count : img.dirCount.toNat ≤ 63
  files : ∀ i < img.dirCount.toNat, (img.direntries i).filetype = 2 →
    (img.direntries i).inodeNum.toNat < img.inodeCount.toNat ∧
      img.HoldsFile (img.inodes (img.direntries i).inodeNum.toNat)

/-- A read of `n` bytes through the descriptor `e` returns `r` and leaves the descriptor `e'`. -/
def Reads (n : Nat) (e : FdaEntry) (r : Reply) (e' : FdaEntry) : Prop :=
  ∀ (o : Own) (w : Fin 8) (mem : Nat → UInt8), o.fdarray w = e →
    o.read img w.val (some mem) n = some (.ret r (o.setFd w e'))

/-- What the loop prints from the descriptor `e` on. -/
inductive Copies (c : CopyCode) : FdaEntry → List UInt8 → UInt8 → Prop
  | done {e e' : FdaEntry} {out : List UInt8} :
      img.Reads c.size e ⟨0, out⟩ e' → Copies c e [] 0
  | failed {e e' : FdaEntry} {out : List UInt8} :
      img.Reads c.size e ⟨-1, out⟩ e' → Copies c e c.readFailed 3
  | more {e e' : FdaEntry} {bytes text : List UInt8} {status : UInt8} :
      bytes ≠ [] → img.Reads c.size e ⟨bytes.length, bytes⟩ e' → Copies c e' text status →
        Copies c e (bytes ++ c.suffix ++ text) status

/-- What `main` prints from `open` on. -/
inductive Prints (c : CopyCode) (name : CString) : List UInt8 → UInt8 → Prop
  | missing : img.readDentryByName name = .ok none → Prints c name c.openFailed 2
  | file {entry : Dentry} {text : List UInt8} {status : UInt8} :
      img.readDentryByName name = .ok (some entry) → entry.filetype = 2 →
        img.Copies c ⟨some .file, entry.inodeNum.toNat, 0, true⟩ text status →
          Prints c name text status
  | dir {entry : Dentry} {text : List UInt8} {status : UInt8} :
      img.readDentryByName name = .ok (some entry) → entry.filetype = 1 →
        img.Copies c ⟨some .dir, entry.inodeNum.toNat, 0, true⟩ text status →
          Prints c name text status

variable {img} {c : CopyCode}

theorem reads_dir (h63 : img.dirCount.toNat ≤ 63) {pos : Nat} (hpos : pos < img.dirCount.toNat)
    {n : Nat} (hn : filenameLen ≤ n) (inode : Nat) :
    img.Reads n ⟨some .dir, inode, pos, true⟩
      ⟨(img.direntries pos).name.length, (img.direntries pos).name⟩
      ⟨some .dir, inode, pos + 1, true⟩ := by
  intro o w mem hf
  have hread := Own.read_dir h63 hf hpos mem n
  have hname := (img.direntries pos).name_length_le
  rwa [List.take_of_length_le (by omega)] at hread

theorem reads_dir_end {pos : Nat} (hpos : img.dirCount.toNat ≤ pos) (n inode : Nat) :
    img.Reads n ⟨some .dir, inode, pos, true⟩ ⟨0, []⟩ ⟨some .dir, inode, pos, true⟩ := by
  intro o w mem hf
  rw [Own.read_dir_end hf hpos, ← hf, Own.setFd_self]

theorem reads_file {inode pos n : Nat} {r : DataRead} (hx : img.readData inode pos n = .ok r) :
    img.Reads n ⟨some .file, inode, pos, true⟩ ⟨r.ret, r.bytes⟩
      ⟨some .file, inode, (pos + (r.ret % 2 ^ 32).toNat) % 2 ^ 32, true⟩ :=
  fun _ _ mem hf => Own.read_file hf hx mem

/-- The loop lists the names up to the first empty one. -/
theorem copies_dir (h63 : img.dirCount.toNat ≤ 63) (hn : filenameLen ≤ c.size) (inode : Nat) :
    ∀ n pos, pos + n = img.dirCount.toNat → img.Copies c ⟨some .dir, inode, pos, true⟩
      (((img.names.drop pos).takeWhile (· ≠ [])).flatMap (· ++ c.suffix)) 0 := by
  have hlen : img.names.length = img.dirCount.toNat := by
    simp [names]
  intro n
  induction n with
  | zero =>
    intro pos hpos
    rw [List.drop_eq_nil_of_le (by omega)]
    exact .done (reads_dir_end (by omega) _ _)
  | succ n ih =>
    intro pos hpos
    have hlt : pos < img.names.length := by omega
    have hget : img.names[pos] = (img.direntries pos).name := by
      simp [names]
    have hread := @reads_dir img h63 pos (by omega) _ hn inode
    rw [List.drop_eq_getElem_cons hlt, hget]
    by_cases hnil : (img.direntries pos).name = []
    · rw [hnil] at hread ⊢
      rw [List.takeWhile_cons_of_neg (by simp)]
      exact .done hread
    · rw [List.takeWhile_cons_of_pos (by simpa using hnil), List.flatMap_cons]
      exact .more hnil hread (ih (pos + 1) (by omega))

/-- The loop prints a file from a position to its end. -/
theorem copies_file {i : Nat} (hi : i < img.inodeCount.toNat) (hf : img.HoldsFile (img.inodes i))
    (hn : 0 < c.size) (hs : c.suffix = []) (n pos : Nat)
    (hpos : pos + n = (img.inodes i).length.toNat) :
    let ino := img.inodes i
    (img.SlotReadable ino ino.length.toNat →
      img.Copies c ⟨some .file, i, pos, true⟩ (img.slice ino pos n) 0) ∧
    (¬ img.SlotReadable ino ino.length.toNat →
      img.Copies c ⟨some .file, i, pos, true⟩ (img.slice ino pos n ++ c.readFailed) 3) := by
  intro ino
  induction n using Nat.strong_induction_on generalizing pos with
  | _ n ih =>
    rcases Nat.eq_zero_or_pos n with rfl | hpos'
    · -- at the end of the file
      have hend : pos = ino.length.toNat := by simpa using hpos
      subst hend
      obtain ⟨hyes, hno⟩ := readData_atEnd c.size hi (le_refl ino.length.toNat)
      exact ⟨fun h => .done (reads_file (hyes h)), fun h => by
        simpa [slice] using .failed (reads_file (hno h))⟩
    · have hin : pos < (img.inodes i).length.toNat := by omega
      have hread := reads_file (readData_inside c.size hi hf hin)
      have hle := hf.toNat_le
      have hrest : ino.length.toNat - pos = n := by
        simp only [ino]
        omega
      let m := min c.size n
      have hm : 0 < m := by
        simp only [m]
        omega
      have hmn : m ≤ n := Nat.min_le_right _ _
      have hword : (pos + ((m : Int) % 2 ^ 32).toNat) % 2 ^ 32 = pos + m := by
        have hsmall : ((m : Int) % 2 ^ 32).toNat = m := by omega
        rw [hsmall, Nat.mod_eq_of_lt (by omega)]
      have hlen : (img.slice ino pos m).length = m := slice_length ..
      have hmore : img.Reads c.size ⟨some .file, i, pos, true⟩
          ⟨(img.slice ino pos m).length, img.slice ino pos m⟩
          ⟨some .file, i, pos + m, true⟩ := by
        rw [hlen]
        rw [hrest] at hread
        rwa [hword] at hread
      have hne : img.slice ino pos m ≠ [] := by
        intro hnil
        rw [hnil] at hlen
        simp at hlen
        omega
      have hsplit : img.slice ino pos n = img.slice ino pos m ++ img.slice ino (pos + m) (n - m) := by
        rw [slice_append, Nat.add_sub_cancel' hmn]
      obtain ⟨hyes, hno⟩ := ih (n - m) (by omega) (pos + m) (by omega)
      rw [hsplit]
      refine ⟨fun h => ?_, fun h => ?_⟩
      · have := Copies.more hne hmore (hyes h)
        rwa [hs, List.append_nil] at this
      · have := Copies.more hne hmore (hno h)
        rwa [hs, List.append_nil, ← List.append_assoc] at this

/-- An entry that was found is one of the directory. -/
theorem Sound.entry (hi : img.Sound) {name : CString} {entry : Dentry}
    (h : img.readDentryByName name = .ok (some entry)) :
    ∃ i < img.dirCount.toNat, entry = img.direntries i := by
  simp only [readDentryByName] at h
  split at h
  · cases h
  · obtain ⟨j, _, h2, _, rfl⟩ := findDentry_mem h
    have hcount := hi.count
    have hbound := img.dirCount.isLt
    have hnat : img.dirCount.toInt.toNat = img.dirCount.toNat := by
      rw [BitVec.toInt_eq_toNat_cond, if_pos (by omega), Int.toNat_natCast]
    exact ⟨j, by omega, rfl⟩

theorem Sound.prints (hi : img.Sound) (hn : filenameLen ≤ c.size) {name : CString}
    {text : List UInt8} {status : UInt8} (h : img.printout c name = some (text, status)) :
    img.Prints c name text status := by
  unfold printout at h
  cases hl : img.readDentryByName name with
  | error f =>
    rw [hl] at h
    cases h
  | ok o =>
    rw [hl] at h
    cases o with
    | none =>
      cases h
      exact .missing hl
    | some entry =>
      simp only at h
      split at h
      · rename_i hdir
        cases h
        have hcopy := copies_dir hi.count hn entry.inodeNum.toNat img.dirCount.toNat 0 (by omega)
        rw [List.drop_zero] at hcopy
        exact .dir hl hdir hcopy
      · split at h
        · rename_i hfile
          obtain ⟨i, hlt, rfl⟩ := hi.entry hl
          obtain ⟨hinode, hholds⟩ := hi.files i hlt hfile.1
          obtain ⟨hyes, hno⟩ := copies_file (c := c) hinode hholds
            (by simp only [filenameLen] at hn; omega) hfile.2 _ 0 (Nat.zero_add _)
          split at h
          · rename_i hslot
            cases h
            exact .file hl hfile.1 (hyes hslot)
          · rename_i hslot
            cases h
            exact .file hl hfile.1 (hno hslot)
        · cases h

end Image

/-! ## The program by itself -/

namespace Main

/-- The process is as the program needs it, and the rest of its printout is `text`. -/
def Ends (img : Image) (c : CopyCode) (o : Own) (x : Main) (text : List UInt8) (status : UInt8) :
    Prop :=
  match x.pc with
  | .getargs => o.Fresh x.args ∧ NulFree x.args ∧ maxArgsSize ≤ c.size ∧
    if x.args = [] then text = literal "could not read arguments\n" ∧ status = 3
    else img.Prints c x.args text status
  | .open' path => o.fdarray 1 = stdoutFd ∧ (o.fdarray 2).flags = false ∧
    ∃ name, path = name ++ [0] ∧ NulFree name ∧ img.Prints c name text status
  | .read => o.fdarray 1 = stdoutFd ∧ x.fd = 2 ∧ img.Copies c (o.fdarray 2) text status
  | .write cnt => o.fdarray 1 = stdoutFd ∧ x.fd = 2 ∧ x.buf ≠ [] ∧ cnt = x.buf.length ∧
    ∃ rest, text = x.buf ++ rest ∧ img.Copies c (o.fdarray 2) rest status
  | .puts msg status' => o.fdarray 1 = stdoutFd ∧ text = msg ∧ status = status'
  | .halt status' => text = [] ∧ status = status'

/-- The calls of the loop so far, apart from those that come with a byte written. -/
def spent : Pc → Nat
  | .getargs => 0
  | .open' _ => 1
  | .read => 2
  | .write _ | .puts _ _ => 3
  | .halt _ => 4

/-- What is written and what is still to be printed make up the printout. -/
def Inv (img : Image) (c : CopyCode) (expect : CString → Option Printout) (x : Main) (o : Own) :
    Prop :=
  ∃ rest status, expect x.args = some (x.out ++ rest, status) ∧ x.Ends img c o rest status ∧
    x.calls ≤ 2 * x.out.length + spent x.pc

variable {img : Image} {c : CopyCode} {expect : CString → Option Printout} {o : Own} {x : Main}
  {text : List UInt8} {status : UInt8} {e : Event}

/-- The string that `open` gets is the one in the bytes that are known. -/
theorem path_unique {name s : CString} (hn : NulFree name) (hs : NulFree s)
    (h : s ++ [0] <+: name ++ [0] ∨ name ++ [0] <+: s) : s = name := by
  rcases h with h | h
  · rcases List.prefix_concat_iff.mp h with heq | hpre
    · exact List.append_cancel_right heq
    · exact absurd rfl (hn 0 (hpre.subset (by simp)))
  · exact absurd rfl (hs 0 (h.subset (by simp)))

/-- A call returns; what is written and what is still to be printed stay the same together, and each
byte written pays for two calls. -/
structure Step (img : Image) (c : CopyCode) (o : Own) (e : Event) (x : Main) (text : List UInt8)
    (status : UInt8) (o' : Own) (r : Reply) (y : Main) (rest : List UInt8) : Prop where
  own : Machine.OwnCall e
  call : o.syscall img e = some (.ret r o')
  next : x.next c r = y
  ends : y.Ends img c o' rest status
  printed : y.out ++ rest = x.out ++ text
  args : y.args = x.args
  calls : x.calls ≤ 2 * x.out.length + spent x.pc → y.calls ≤ 2 * y.out.length + spent y.pc

/-- A call that prints nothing and moves `main` on. -/
theorem Step.quiet {o' : Own} {r : Reply} {y : Main} (own : Machine.OwnCall e)
    (call : o.syscall img e = some (.ret r o')) (next : x.next c r = y)
    (ends : y.Ends img c o' text status)
    (same : y.out = x.out ∧ y.args = x.args ∧ y.calls = x.calls + 1)
    (hspent : spent x.pc < spent y.pc) : Step img c o e x text status o' r y text := by
  obtain ⟨hout, hargs, hcalls⟩ := same
  refine ⟨own, call, next, ends, by rw [hout], hargs, fun h => ?_⟩
  rw [hout, hcalls]
  omega

section Calls

variable (h : x.Ends img c o text status) (hm : x.makes c e = true)
include h hm

theorem step_getargs (hpc : x.pc = .getargs) :
    ∃ o' r y rest, Step img c o e x text status o' r y rest := by
  simp only [Ends, hpc] at h
  obtain ⟨hf, hnul, hn, htext⟩ := h
  unfold makes at hm
  rw [hpc] at hm
  cases e with
  | getargs mem n =>
    have hsize : n = c.size := by simpa using hm
    subst hsize
    have hcall : o.syscall img (.getargs mem c.size) =
        (o.getargs mem c.size).map fun r => .ret r.1 r.2 := rfl
    rw [hf.getargs_all hn mem] at hcall
    by_cases hnil : x.args = []
    · rw [if_pos hnil] at htext hcall
      have hends : Ends img c o { x with
          calls := x.calls + 1, pc := .puts (literal "could not read arguments\n") 3 } text status := by
        simp only [Ends]
        exact ⟨hf.stdout, htext⟩
      exact ⟨_, _, _, _, .quiet trivial hcall (by simp [next, hpc]) hends ⟨rfl, rfl, rfl⟩
        (by simp [hpc, spent])⟩
    · rw [if_neg hnil] at htext hcall
      have hends : Ends img c o.clearArgs
          { x with calls := x.calls + 1, pc := .open' (x.args ++ [0]) } text status := by
        simp only [Ends, Own.clearArgs_fdarray]
        exact ⟨hf.stdout, hf.closed 2 (le_refl 2), x.args, rfl, hnul, htext⟩
      exact ⟨_, _, _, _, .quiet trivial hcall (by simp [next, hpc]) hends ⟨rfl, rfl, rfl⟩
        (by simp [hpc, spent])⟩
  | _ => cases hm

theorem step_open {path : List UInt8} (hpc : x.pc = .open' path) :
    ∃ o' r y rest, Step img c o e x text status o' r y rest := by
  simp only [Ends, hpc] at h
  obtain ⟨hout, hclosed, name, rfl, hnul, hprints⟩ := h
  have hfree := Own.freeFd_first hclosed
  unfold makes at hm
  rw [hpc] at hm
  cases e with
  | open' filename =>
    cases filename with
    | none => cases hm
    | some s =>
      simp only [Bool.and_eq_true, Bool.or_eq_true, decide_eq_true_eq] at hm
      obtain rfl : s = name := path_unique hnul hm.1 hm.2
      have hcall : o.syscall img (.open' (some s)) =
          (o.open' img (some s)).map fun r => .ret ⟨r.1, []⟩ r.2 := rfl
      have hopened : ∀ {fd}, o.open' img (some s) = some (2, o.setFd 2 fd) →
          img.Copies c fd text status →
            ∃ o' r y rest, Step img c o (.open' (some s)) x text status o' r y rest := by
        intro fd hopen hcopy
        rw [hopen] at hcall
        have hends : Ends img c (o.setFd 2 fd) { x with calls := x.calls + 1, fd := 2, pc := .read }
            text status := by
          simp only [Ends, Own.setFd_fdarray_self]
          rw [Own.setFd_fdarray_of_ne o fd (by simp)]
          exact ⟨hout, trivial, hcopy⟩
        exact ⟨_, _, _, _, .quiet trivial hcall (by simp [next, hpc]) hends ⟨rfl, rfl, rfl⟩
          (by simp [hpc, spent])⟩
      cases hprints with
      | missing hl =>
        rw [Own.open_missing hfree hl] at hcall
        have hends : Ends img c o
            { x with calls := x.calls + 1, fd := -1, pc := .puts c.openFailed 2 } c.openFailed 2 := by
          simp [Ends, hout]
        exact ⟨_, _, _, _, .quiet trivial hcall (by simp [next, hpc]) hends ⟨rfl, rfl, rfl⟩
          (by simp [hpc, spent])⟩
      | file hl ht hcopy => exact hopened (Own.open_file hfree hl ht) hcopy
      | dir hl ht hcopy => exact hopened (Own.open_dir hfree hl ht) hcopy
  | _ => cases hm

theorem step_read (hpc : x.pc = .read) :
    ∃ o' r y rest, Step img c o e x text status o' r y rest := by
  simp only [Ends, hpc] at h
  obtain ⟨hout, hfd, hcopy⟩ := h
  unfold makes at hm
  rw [hpc] at hm
  cases e with
  | read fd buf n =>
    cases buf with
    | none => cases hm
    | some mem =>
      simp only [hfd, decide_eq_true_eq] at hm
      obtain ⟨rfl, rfl⟩ := hm
      have hreads : ∀ {r e'}, img.Reads c.size (o.fdarray 2) r e' →
          o.syscall img (.read 2 (some mem) c.size) = some (.ret r (o.setFd 2 e')) :=
        fun hx => hx o 2 mem rfl
      have hout' : ∀ e', (o.setFd 2 e').fdarray 1 = stdoutFd := fun e' => by
        rw [Own.setFd_fdarray_of_ne o e' (by simp), hout]
      cases hcopy with
      | done hx =>
        have hends (o' : Own) : Ends img c o' { x with calls := x.calls + 1, pc := .halt 0 } [] 0 := by
          simp [Ends]
        exact ⟨_, _, _, _, .quiet trivial (hreads hx) (by simp [next, hpc]) (hends _) ⟨rfl, rfl, rfl⟩
          (by simp [hpc, spent])⟩
      | failed hx =>
        have hends (e' : FdaEntry) : Ends img c (o.setFd 2 e')
            { x with calls := x.calls + 1, pc := .puts c.readFailed 3 } c.readFailed 3 := by
          simp [Ends, hout']
        exact ⟨_, _, _, _, .quiet trivial (hreads hx) (by simp [next, hpc]) (hends _) ⟨rfl, rfl, rfl⟩
          (by simp [hpc, spent])⟩
      | @more _ e' bytes rest _ hne hx hcopy =>
        have hpos : 0 < bytes.length := List.length_pos_iff.mpr hne
        have h0 : ¬ (bytes.length : Int) = 0 := by omega
        have h1 : ¬ (bytes.length : Int) = -1 := by omega
        have hends : Ends img c (o.setFd 2 e') { x with
            calls := x.calls + 1
            buf := bytes ++ c.suffix
            pc := .write (bytes.length + c.suffix.length) } (bytes ++ c.suffix ++ rest) status := by
          simp only [Ends, Own.setFd_fdarray_self]
          exact ⟨hout' e', hfd, by simp [hne], by simp, rest, rfl, hcopy⟩
        exact ⟨_, _, _, _, .quiet trivial (hreads hx) (by simp only [next, hpc, if_neg h0, if_neg h1])
          hends ⟨rfl, rfl, rfl⟩ (by simp [hpc, spent])⟩
  | _ => cases hm

omit h hm in
/-- Both calls of `write` print the bytes at the start of the memory. -/
theorem call_write (img : Image) (hout : o.fdarray 1 = stdoutFd) (mem : Nat → UInt8) (n : Nat) :
    o.syscall img (.write 1 (some mem) n) = some (.ret ⟨n, []⟩ o) := by
  simp only [Own.syscall, Own.write_out hout, Option.map_some]

theorem step_write {cnt : Int} (hpc : x.pc = .write cnt) :
    ∃ o' r y rest, Step img c o e x text status o' r y rest := by
  simp only [Ends, hpc] at h
  obtain ⟨hout, hfd, hne, rfl, rest, rfl, hcopy⟩ := h
  unfold makes at hm
  rw [hpc] at hm
  cases e with
  | write fd buf n =>
    cases buf with
    | none => cases hm
    | some mem =>
      simp only [decide_eq_true_eq] at hm
      obtain ⟨rfl, _, rfl⟩ := hm
      have hpos : 0 < x.buf.length := List.length_pos_iff.mpr hne
      have h1 : ¬ (x.buf.length : Int) = -1 := by omega
      exact ⟨_, _, { x with calls := x.calls + 1, out := x.out ++ x.buf, pc := .read }, rest, {
        own := trivial
        call := call_write img hout mem x.buf.length
        next := by simp [next, hpc, wrote, h1]
        ends := by
          simp only [Ends]
          exact ⟨hout, hfd, hcopy⟩
        printed := List.append_assoc ..
        args := rfl
        calls := fun hcalls => by
          simp only [hpc, spent, List.length_append] at hcalls ⊢
          omega }⟩
  | _ => cases hm

theorem step_puts {msg : CString} {status' : UInt8} (hpc : x.pc = .puts msg status') :
    ∃ o' r y rest, Step img c o e x text status o' r y rest := by
  simp only [Ends, hpc] at h
  obtain ⟨hout, rfl, rfl⟩ := h
  unfold makes at hm
  rw [hpc] at hm
  cases e with
  | write fd buf n =>
    cases buf with
    | none => cases hm
    | some mem =>
      simp only [decide_eq_true_eq] at hm
      obtain ⟨rfl, hmem, rfl⟩ := hm
      have hlen := hmem.1.strlen
      have h1 : ¬ ((CString.strlen text : Nat) : Int) = -1 := by omega
      exact ⟨_, _, { x with calls := x.calls + 1, out := x.out ++ text, pc := .halt status }, [], {
        own := trivial
        call := call_write img hout mem (CString.strlen text)
        next := by simp [next, hpc, wrote, h1]
        ends := by simp [Ends]
        printed := List.append_nil _
        args := rfl
        calls := fun hcalls => by
          simp only [hpc, spent, List.length_append] at hcalls ⊢
          omega }⟩
  | _ => cases hm

end Calls

/-- A call that is not the last. -/
theorem step_call (h : x.Ends img c o text status) (hm : x.makes c e = true) :
    (∃ status', e = .halt status') ∨ ∃ o' r y rest, Step img c o e x text status o' r y rest := by
  cases hpc : x.pc with
  | getargs => exact Or.inr (step_getargs h hm hpc)
  | open' path => exact Or.inr (step_open h hm hpc)
  | read => exact Or.inr (step_read h hm hpc)
  | write cnt => exact Or.inr (step_write h hm hpc)
  | puts msg status' => exact Or.inr (step_puts h hm hpc)
  | halt status' =>
    unfold makes at hm
    rw [hpc] at hm
    cases e with
    | halt status'' => exact Or.inl ⟨status'', rfl⟩
    | _ => cases hm

/-- The program keeps it, if it holds when the program has just been entered. -/
theorem inv_alone (hname : c.name.length < filenameLen)
    (hfirst : ∀ {o : Own} {args text status}, o.Fresh args → NulFree args →
      expect args = some (text, status) → Ends img c o ⟨c.first, 0, [], args, [], 0⟩ text status)
    (h : (c.program expect).Alone img x o) : Inv img c expect x o := by
  induction h with
  | enter hstart hfresh =>
    rename_i cmd x o
    simp only [CopyCode.program] at hstart
    split at hstart
    · rename_i hcmd
      cases hstart
      obtain ⟨hn, hsome⟩ := hcmd
      obtain ⟨⟨text, status⟩, hexpect⟩ := Option.isSome_iff_exists.mp hsome
      have hkept : cmd.text.kept = cmd.text.args :=
        CString.kept_eq_args.mpr (Or.inl (by rw [hn]; exact hname))
      rw [hkept] at hfresh
      exact ⟨text, status, hexpect, hfirst hfresh (CString.text_nulFree cmd).args hexpect,
        Nat.zero_le _⟩
    · cases hstart
  | call _ hm hsys hret ih =>
    obtain ⟨rest, status, hexpect, hends, hcalls⟩ := ih
    rcases step_call hends hm with ⟨status', rfl⟩ | ⟨o', r, y, rest', hs⟩
    · cases hsys
    · rw [hs.call] at hsys
      cases hsys
      cases hret
      have hy : (c.program expect).next _ _ = y := hs.next
      rw [hy]
      refine ⟨rest', status, ?_, hs.ends, hs.calls hcalls⟩
      rw [hs.args, hs.printed]
      exact hexpect

/-! ## The program among the others -/

/-- What process `p` has printed is the beginning of its printout, and it makes at most two calls
for each byte and four more. They return at once. When it halts, it has printed everything and
passes the exit status. -/
structure Law (img : Image) (c : CopyCode) (expect : CString → Option Printout) (m : Machine)
    (p : Pid) (x : Main) (text : List UInt8) (status : UInt8) : Prop where
  expected : expect x.args = some (text, status)
  printed : x.out <+: text
  calls : x.calls ≤ 2 * text.length + 4
  returns : m.ctl = .user p → ∀ e, x.makes c e = true →
    (∃ status', e = .halt status') ∨ ∃ m' r, Machine.call img m e = some (m', some r)
  halts : ∀ status', x.pc = .halt status' → x.out = text ∧ status' = status

theorem law (hinv : ∀ {x o}, (c.program expect).Alone img x o → Inv img c expect x o)
    {s : Machine × Programs Main}
    (h : Reach ((c.program expect).step img) UserProgram.Boot ((c.program expect).Ok img) s)
    {p : Pid} (hp : s.2 p = some x) : ∃ text status, Law img c expect s.1 p x text status := by
  have hi := (UserProgram.reach_inv h).isolated hp
  obtain ⟨rest, status, hexpect, hends, hcalls⟩ := hinv hi.alone
  have hspent : spent x.pc ≤ 4 := by
    cases x.pc <;> simp [spent]
  refine ⟨x.out ++ rest, status, hexpect, List.prefix_append _ _, ?_, fun hc e hm => ?_,
    fun status' hpc => ?_⟩
  · rw [List.length_append]
    omega
  · refine (step_call hends hm).imp_right ?_
    rintro ⟨o', r, y, rest', hs⟩
    obtain ⟨m', z, hcall, hgoes⟩ := hi.takes e _ hc hs.own hs.call
    cases hgoes
    exact ⟨m', _, hcall⟩
  · simp only [Ends, hpc] at hends
    rw [hends.1, List.append_nil]
    exact ⟨rfl, hends.2.symm⟩

end Main

/-! ## `cat` -/

def catPrintout (img : Image) (args : CString) : Option Printout :=
  if args = [] then some (literal "could not read arguments\n", 3) else img.printout catCode args

/-- In every run in order in which the copy of no program fails, on a sound image: `cat` prints the
file or the names of the directory that its argument names, whatever the other processes and the
devices do between its calls. -/
theorem cat_prints_file (img : Image) (hi : img.Sound) (s : Machine × Programs Main)
    (h : Reach ((catCode.program (catPrintout img)).step img) UserProgram.Boot
      ((catCode.program (catPrintout img)).Ok img) s) (p : Pid) (x : Main)
    (hp : s.2 p = some x) :
    ∃ text status, Main.Law img catCode (catPrintout img) s.1 p x text status := by
  refine Main.law (Main.inv_alone (by decide) ?_) h hp
  intro o args text status hf hnul hexpect
  refine ⟨hf, hnul, by decide, ?_⟩
  simp only [catPrintout] at hexpect ⊢
  split at hexpect
  · rename_i hnil
    cases hexpect
    rw [if_pos hnil]
    exact ⟨rfl, rfl⟩
  · rename_i hne
    rw [if_neg hne]
    exact hi.prints (by decide) hexpect

/-- A directory with itself and three programs of 28 bytes. -/
def shelf : Image := { Machine.files with
  dirCount := 4
  direntries i := ⟨fun j => ([literal ".", shellName, Machine.catName, literal "ls"].getD i []).getD j 0,
    if i = 0 then 1 else 2, 0⟩ }

theorem sound_shelf : shelf.Sound where
  count := by decide
  files := by
    intro i _ _
    have hnum : (shelf.direntries i).inodeNum.toNat = 0 := rfl
    rw [hnum]
    exact ⟨by decide, by decide, by decide, fun s _ => rfl⟩

theorem shellLoads_shelf : Machine.ShellLoads shelf := by
  have h : ((findProgram shelf shellName).toOption.join.map fun prog =>
      shelf.badBlock (shelf.inodes prog.inode)) = some false := by
    decide +kernel
  obtain ⟨prog, hprog, hb⟩ := Option.map_eq_some_iff.mp h
  exact ⟨prog, Proc.eq_ok_of_join hprog, hb⟩

/-- A run on the shelf, as the system allows it. -/
theorem reach_shelf {c : CopyCode} {expect : CString → Option Printout} {es : List Event}
    {s : Machine × Programs Main}
    (hrun : run (fun s e => if (c.program expect).check shelf s e then
      (c.program expect).step shelf s e else none) (Machine.booted, fun _ => none) es = some s) :
    Reach ((c.program expect).step shelf) UserProgram.Boot ((c.program expect).Ok shelf) s :=
  Reach.of_checked (UserProgram.Ok.of_check _ shellLoads_shelf)
    (.init ⟨Machine.boot_booted, fun _ => rfl⟩) hrun

/-- `cat shell`; the other base shells run and a key is pressed meanwhile. -/
theorem cat_prints_file_shell : ∃ (s : Machine × Programs Main) (x : Main), s.2 3 = some x ∧
    x.pc = .halt 0 ∧ ∃ text, Main.Law shelf catCode (catPrintout shelf) s.1 3 x text 0 := by
  have hrun : (run (fun s e => if (catCode.program (catPrintout shelf)).check shelf s e then
      (catCode.program (catPrintout shelf)).step shelf s e else none)
      (Machine.booted, fun _ => none)
      [.tick 0 0, .tick 0 0, .tick 0 0, .tick 0 0, .execute (some (literal "cat shell")) 0 0,
        .getargs (fun _ => 0) 1024, .open' (some shellName), .tick 0 0, .tick 0 0, .key 1 0x1E,
        .tick 0 0, .read 2 (some fun _ => 0) 1024,
        .write 1 (some fun j => elfMagic.getD j 0) 28, .read 2 (some fun _ => 0) 1024]).bind
          (fun s => (s.2 3).map Main.pc) = some (.halt 0) := by
    decide +kernel
  obtain ⟨s, hs, hx⟩ := Option.bind_eq_some_iff.mp hrun
  obtain ⟨x, hp, hpc⟩ := Option.map_eq_some_iff.mp hx
  obtain ⟨text, status, hlaw⟩ := cat_prints_file shelf sound_shelf s (reach_shelf hs) 3 x hp
  obtain ⟨_, rfl⟩ := hlaw.halts 0 hpc
  exact ⟨s, x, hp, hpc, text, hlaw⟩

/-! ## `ls` -/

def lsPrintout (img : Image) : Option Printout := img.printout lsCode (literal ".")

/-- `ls` prints the names of the directory up to the first empty one, one a line and in order. -/
theorem ls_lists_directory (img : Image) (hi : img.Sound) (s : Machine × Programs Main)
    (h : Reach ((lsCode.program fun _ => lsPrintout img).step img) UserProgram.Boot
      ((lsCode.program fun _ => lsPrintout img).Ok img) s) (p : Pid) (x : Main)
    (hp : s.2 p = some x) :
    ∃ text status, Main.Law img lsCode (fun _ => lsPrintout img) s.1 p x text status := by
  refine Main.law (Main.inv_alone (by decide) ?_) h hp
  intro o args text status hf hnul hexpect
  exact ⟨hf.stdout, hf.closed 2 (le_refl 2), literal ".", rfl, by decide,
    hi.prints (by decide) hexpect⟩

/-- `ls`, up to its second line. -/
theorem ls_lists_directory_shelf : ∃ (s : Machine × Programs Main) (x : Main), s.2 3 = some x ∧
    x.out = literal ".\nshell\n" ∧ ∃ text status,
      Main.Law shelf lsCode (fun _ => lsPrintout shelf) s.1 3 x text status := by
  have hrun : (run (fun s e => if (lsCode.program fun _ => lsPrintout shelf).check shelf s e then
      (lsCode.program fun _ => lsPrintout shelf).step shelf s e else none)
      (Machine.booted, fun _ => none)
      [.tick 0 0, .tick 0 0, .tick 0 0, .tick 0 0, .execute (some (literal "ls")) 0 0,
        .open' (some (literal ".")), .read 2 (some fun _ => 0) 32,
        .write 1 (some fun j => (literal ".\n").getD j 0) 2, .tick 0 0, .tick 0 0, .tick 0 0,
        .read 2 (some fun _ => 0) 32,
        .write 1 (some fun j => (literal "shell\n").getD j 0) 6]).bind
          (fun s => (s.2 3).map Main.out) = some (literal ".\nshell\n") := by
    decide +kernel
  obtain ⟨s, hs, hx⟩ := Option.bind_eq_some_iff.mp hrun
  obtain ⟨x, hp, hout⟩ := Option.map_eq_some_iff.mp hx
  exact ⟨s, x, hp, hout, ls_lists_directory shelf sound_shelf s (reach_shelf hs) 3 x hp⟩

end DeviceOS
