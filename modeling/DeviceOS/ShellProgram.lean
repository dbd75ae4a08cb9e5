import DeviceOS.Isolation
import DeviceOS.UserCalls

/-!
# DeviceOS.ShellProgram

`ece391shell.c`: it reads a line, executes it, says how the program ended, and so on.

* `CString.strcmp`: `ece391_strcmp`.
* `ShellPc`, `Shell`: where `main` is, with a record of what it has read, executed and printed.
  `Shell.makes`, `Shell.next`: the text of `main`.
* `Turn`: a line and what came of it. `Shell.Serves`: the record is that of these turns, one after
  the other.
* `inv_alone`: the calls of a shell keep it, when it runs by itself.
* `shell_serves_lines`: a shell among all other processes.
-/

namespace DeviceOS

open CString (NulFree)
open EventSystem (Reach run)

namespace CString

/-- `ece391_strcmp`. -/
def strcmp : CString → CString → Int
  | [], [] => 0
  | [], b :: _ => -(b.toNat : Int)
  | a :: _, [] => a.toNat
  | a :: s, b :: t => if a = b then strcmp s t else (a.toNat : Int) - b.toNat

theorem strcmp_eq_zero {s t : CString} (hs : NulFree s) (ht : NulFree t) :
    strcmp s t = 0 ↔ s = t := by
  have hpos : ∀ c : UInt8, c ≠ 0 → c.toNat ≠ 0 := fun c hc h0 => hc (UInt8.toNat_inj.mp h0)
  induction s generalizing t with
  | nil =>
    cases t with
    | nil => simp [strcmp]
    | cons b t =>
      have := hpos b (ht b (List.mem_cons_self ..))
      simp only [strcmp, reduceCtorEq, iff_false]
      omega
  | cons a s ih =>
    cases t with
    | nil =>
      have := hpos a (hs a (List.mem_cons_self ..))
      simp only [strcmp, reduceCtorEq, iff_false]
      omega
    | cons b t =>
      have htail : strcmp s t = 0 ↔ s = t := ih (fun c hc => hs c (List.mem_cons_of_mem _ hc))
        (fun c hc => ht c (List.mem_cons_of_mem _ hc))
      by_cases hab : a = b
      · rw [strcmp, if_pos hab, htail, hab, List.cons_inj_right]
      · have hne : a.toNat ≠ b.toNat := fun h => hab (UInt8.toNat_inj.mp h)
        have hdiff : a :: s ≠ b :: t := fun h => hab (List.cons.inj h).1
        rw [strcmp, if_neg hab]
        simp only [hdiff, iff_false]
        omega

end CString

/-! ## The program -/

/-- Where `main` is. `puts msg k`: in `fdputs`, and then at `k`. -/
inductive ShellPc where
  | puts (msg : CString) (k : ShellPc)
  | read
  | execute (cmd : CString)
  | halt (status : UInt8)
  deriving DecidableEq

/-- `typed`: what each `read` has stored. `ran`: the commands that were executed, with the results.
`out`: the bytes written to descriptor 1. -/
structure Shell where
  pc : ShellPc
  typed : List (List UInt8)
  ran : List (CString × Int)
  out : List UInt8

namespace Shell

/-- The system call that comes next. -/
def makes (x : Shell) (e : Event) : Bool :=
  match x.pc, e with
  | .puts msg _, .write fd (some mem) n => fd = 1 ∧ StringAt mem msg ∧ n = msg.strlen
  | .read, .read fd (some _) n => fd = 0 ∧ n = 1023
  | .execute cmd, .execute (some cmd') _ _ => cmd' = cmd
  | .halt status, .halt status' => status' = status
  | _, _ => false

/-- The string in the buffer, when a `read` has stored `bytes` and returned `cnt`. -/
def command (bytes : List UInt8) (cnt : Int) : CString :=
  let cnt := if 0 < cnt ∧ bytes.getD (cnt - 1).toNat 0 = 10 then cnt - 1 else cnt
  (bytes.take cnt.toNat).takeWhile (· ≠ 0)

def prompt : ShellPc := .puts (literal "391OS> ") .read

def next (x : Shell) (r : Reply) : Shell :=
  match x.pc with
  | .puts msg k => { x with pc := k, out := if r.ret = -1 then x.out else x.out ++ msg }
  | .read =>
    if r.ret = -1 then { x with pc := .puts (literal "read from keyboard failed\n") (.halt 3) }
    else
      let buf := command r.out r.ret
      let y := { x with typed := x.typed ++ [r.out] }
      if buf.strcmp (literal "exit") = 0 then { y with pc := .halt 0 }
      else if buf = [] then { y with pc := prompt }
      else { y with pc := .execute buf }
  | .execute cmd =>
    let y := { x with ran := x.ran ++ [(cmd, r.ret)] }
    if r.ret = -1 then { y with pc := .puts (literal "no such command\n") prompt }
    else if r.ret = 256 then
      { y with pc := .puts (literal "program terminated by exception\n") prompt }
    else if r.ret ≠ 0 then
      { y with pc := .puts (literal "program terminated abnormally\n") prompt }
    else { y with pc := prompt }
  | .halt _ => x

def program : UserProgram Shell where
  start cmd :=
    if cmd.text.name = shellName then
      some ⟨.puts (literal "Starting 391 Shell\n") prompt, [], [], []⟩
    else none
  makes x e := x.makes e = true
  next := next

instance (x : Shell) (e : Event) : Decidable (program.makes x e) :=
  inferInstanceAs (Decidable (_ = true))

end Shell

/-! ## Turns -/

/-- An empty line, or a command and the result of `execute`. -/
inductive Turn where
  | blank
  | ran (cmd : CString) (rval : Int)

namespace Turn

def line : Turn → CString
  | blank => []
  | ran cmd _ => cmd

def result : Turn → Option (CString × Int)
  | blank => none
  | ran cmd rval => some (cmd, rval)

/-- What the shell says about a program that has ended. -/
def report (rval : Int) : List UInt8 :=
  if rval = 0 then []
  else if rval = -1 then literal "no such command\n"
  else if rval = 256 then literal "program terminated by exception\n"
  else literal "program terminated abnormally\n"

/-- What a turn prints, up to the next prompt. -/
def text : Turn → List UInt8
  | blank => literal "391OS> "
  | ran _ rval => report rval ++ literal "391OS> "

end Turn

/-- A line as it was typed, without its newline and up to the first NUL. -/
def lineOf (bytes : List UInt8) : CString :=
  (if bytes.getLast? = some 10 then bytes.dropLast else bytes).takeWhile (· ≠ 0)

namespace ShellPc

/-- What is still to be printed before the next `read`. -/
def pending : ShellPc → List UInt8
  | puts msg k => msg ++ k.pending
  | _ => []

/-- The line that is no complete turn yet. -/
def line : ShellPc → List CString
  | execute cmd => [cmd]
  | halt _ => [literal "exit"]
  | _ => []

/-- It prints, and then it reads. -/
def Prints : ShellPc → Prop
  | puts _ k => k.Prints
  | read => True
  | _ => False

/-- The places where a shell can be. It neither fails nor executes `exit`. -/
inductive Regular : ShellPc → Prop
  | prints {k : ShellPc} : k.Prints → Regular k
  | execute {cmd : CString} : cmd ≠ [] → cmd ≠ literal "exit" → Regular (execute cmd)
  | halt : Regular (halt 0)

theorem Prints.line {k : ShellPc} (h : k.Prints) : k.line = [] := by
  cases k with
  | puts msg k => rfl
  | read => rfl
  | _ => exact h.elim

end ShellPc

namespace Shell

/-- What was typed, executed and printed is that of `turns`, and of the line that the shell is at. -/
structure Serves (x : Shell) (turns : List Turn) : Prop where
  ended : ∀ bytes ∈ x.typed, bytes.getLast? = some 10
  typed : x.typed.map lineOf = turns.map Turn.line ++ x.pc.line
  ran : x.ran = turns.filterMap Turn.result
  printed : x.out ++ x.pc.pending =
    literal "Starting 391 Shell\n" ++ literal "391OS> " ++ turns.flatMap Turn.text

structure Inv (x : Shell) (o : Own) : Prop where
  stdin : o.fdarray 0 = stdinFd
  stdout : o.fdarray 1 = stdoutFd
  regular : x.pc.Regular
  serves : ∃ turns, x.Serves turns

variable {img : Image} {x : Shell} {o o' : Own} {e : Event} {res : OwnResult} {r : Reply}

theorem command_eq (bytes : List UInt8) : command bytes bytes.length = lineOf bytes := by
  rcases List.eq_nil_or_concat bytes with rfl | ⟨l, b, rfl⟩
  · rfl
  · by_cases hb : b = 10
    · simp [command, lineOf, hb]
    · simp [command, lineOf, hb, List.take_of_length_le]

theorem command_nulFree (bytes : List UInt8) (cnt : Int) : NulFree (command bytes cnt) := by
  intro c hc
  simpa using List.mem_takeWhile_imp hc

/-- `fdputs` is one call, and it does not fail. -/
theorem syscall_puts (img : Image) {msg : CString} {k : ShellPc} (h : x.Inv o)
    (hpc : x.pc = .puts msg k) (hm : x.makes e = true) :
    Machine.OwnCall e ∧ o.syscall img e = some (.ret ⟨msg.strlen, []⟩ o) := by
  unfold makes at hm
  rw [hpc] at hm
  cases e with
  | write fd buf n =>
    cases buf with
    | none => cases hm
    | some mem =>
      simp only [decide_eq_true_eq] at hm
      obtain ⟨rfl, _, rfl⟩ := hm
      refine ⟨trivial, ?_⟩
      simp only [Own.syscall, Own.write_out h.stdout, Option.map_some]
  | _ => cases hm

/-- A `read` goes on in `terminal_read`. -/
theorem syscall_read (img : Image) (h : x.Inv o) (hpc : x.pc = .read) (hm : x.makes e = true) :
    Machine.OwnCall e ∧ o.syscall img e = some .terminal := by
  unfold makes at hm
  rw [hpc] at hm
  cases e with
  | read fd buf n =>
    cases buf with
    | none => cases hm
    | some mem =>
      simp only [decide_eq_true_eq] at hm
      obtain ⟨rfl, rfl⟩ := hm
      exact ⟨trivial, @Own.read_open img o 0 .read (by rw [h.stdin]; rfl) (by rw [h.stdin]; rfl)
        mem 1023⟩
  | _ => cases hm

theorem inv_puts {msg : CString} {k : ShellPc} (h : x.Inv o) (hpc : x.pc = .puts msg k) {n : Nat} :
    (x.next ⟨n, []⟩).Inv o := by
  obtain ⟨turns, hs⟩ := h.serves
  have hk : k.Prints := by
    have hreg := h.regular
    rw [hpc] at hreg
    cases hreg with
    | prints hp => exact hp
  have hn : ¬ (n : Int) = -1 := by omega
  have hnext : x.next ⟨n, []⟩ = { x with pc := k, out := x.out ++ msg } := by
    simp only [next, hpc, if_neg hn]
  rw [hnext]
  have htyped := hs.typed
  have hprinted := hs.printed
  simp only [hpc, ShellPc.line, ShellPc.pending] at htyped hprinted
  refine ⟨h.stdin, h.stdout, .prints hk, turns, hs.ended, ?_, hs.ran, ?_⟩
  · rw [htyped, hk.line]
  · rw [← hprinted, List.append_assoc]

theorem inv_read (h : x.Inv o) (hpc : x.pc = .read) {bytes : List UInt8}
    (hend : bytes.getLast? = some 10) : (x.next ⟨bytes.length, bytes⟩).Inv o := by
  obtain ⟨turns, hs⟩ := h.serves
  have htyped := hs.typed
  have hprinted := hs.printed
  simp only [hpc, ShellPc.line, ShellPc.pending, List.append_nil] at htyped hprinted
  have hn : ¬ (bytes.length : Int) = -1 := by omega
  have hnul : NulFree (lineOf bytes) := by
    rw [← command_eq]
    exact command_nulFree bytes _
  have hexit : (lineOf bytes).strcmp (literal "exit") = 0 ↔ lineOf bytes = literal "exit" :=
    CString.strcmp_eq_zero hnul (by decide)
  have htyped' : (x.typed ++ [bytes]).map lineOf = turns.map Turn.line ++ [lineOf bytes] := by
    rw [List.map_append, htyped, List.map_singleton]
  have hended : ∀ b ∈ x.typed ++ [bytes], b.getLast? = some 10 := by
    intro b hb
    rcases List.mem_append.mp hb with hb | hb
    · exact hs.ended b hb
    · rw [List.mem_singleton.mp hb, hend]
  simp only [next, hpc, if_neg hn, command_eq, hexit]
  by_cases he : lineOf bytes = literal "exit"
  · rw [if_pos he]
    refine ⟨h.stdin, h.stdout, .halt, turns, hended, ?_, hs.ran, ?_⟩
    · rw [htyped', he]
      rfl
    · rw [← hprinted]
      exact List.append_nil _
  · rw [if_neg he]
    by_cases hb : lineOf bytes = []
    · rw [if_pos hb]
      refine ⟨h.stdin, h.stdout, .prints trivial, turns ++ [.blank], hended, ?_, ?_, ?_⟩
      · rw [htyped', hb, List.map_append]
        exact (List.append_nil _).symm
      · rw [hs.ran, List.filterMap_append]
        exact (List.append_nil _).symm
      · rw [List.flatMap_append, ← List.append_assoc, ← hprinted]
        rfl
    · rw [if_neg hb]
      refine ⟨h.stdin, h.stdout, .execute hb he, turns, hended, htyped', hs.ran, ?_⟩
      rw [← hprinted]
      exact List.append_nil _

theorem inv_execute {cmd : CString} (h : x.Inv o) (hpc : x.pc = .execute cmd) (v : Int) :
    (x.next ⟨v, []⟩).Inv o := by
  obtain ⟨turns, hs⟩ := h.serves
  have htyped := hs.typed
  have hprinted := hs.printed
  simp only [hpc, ShellPc.line, ShellPc.pending, List.append_nil] at htyped hprinted
  -- all four messages lead to the next prompt
  have hnext : ∃ k, k.Prints ∧ k.pending = Turn.text (.ran cmd v) ∧
      x.next ⟨v, []⟩ = { x with pc := k, ran := x.ran ++ [(cmd, v)] } := by
    simp only [next, hpc, Turn.text, Turn.report]
    by_cases h1 : v = -1
    · exact ⟨.puts (literal "no such command\n") prompt, trivial, by simp [h1]; rfl, by simp [h1]⟩
    · by_cases h2 : v = 256
      · exact ⟨.puts (literal "program terminated by exception\n") prompt, trivial,
          by simp [h2]; rfl, by simp [h2]⟩
      · by_cases h3 : v = 0
        · exact ⟨prompt, trivial, by simp [h3]; rfl, by simp [h3]⟩
        · exact ⟨.puts (literal "program terminated abnormally\n") prompt, trivial,
            by simp [h1, h2, h3]; rfl, by simp [h1, h2, h3]⟩
  obtain ⟨k, hk, hpending, hnext⟩ := hnext
  rw [hnext]
  refine ⟨h.stdin, h.stdout, .prints hk, turns ++ [.ran cmd v], hs.ended, ?_, ?_, ?_⟩
  · rw [htyped, hk.line, List.map_append, List.append_nil]
    rfl
  · rw [hs.ran, List.filterMap_append]
    rfl
  · rw [hpending, hprinted, List.flatMap_append, ← List.append_assoc]
    simp

/-- By itself, a shell keeps it. -/
theorem inv_alone (h : program.Alone img x o) : x.Inv o := by
  induction h with
  | enter hstart hfresh =>
    simp only [program] at hstart
    split at hstart
    · cases hstart
      exact ⟨hfresh.stdin, hfresh.stdout, .prints trivial, [], by simp, rfl, rfl, rfl⟩
    · cases hstart
  | @call x o o' e res r _ hm hsys hret ih =>
    cases hpc : x.pc with
    | puts msg k =>
      rw [(syscall_puts img ih hpc hm).2] at hsys
      cases hsys
      cases hret
      exact inv_puts ih hpc
    | read =>
      rw [(syscall_read img ih hpc hm).2] at hsys
      cases hsys
      cases hret
      exact inv_read ih hpc List.getLast?_concat
    | execute cmd =>
      have hm : x.makes e = true := hm
      unfold makes at hm
      rw [hpc] at hm
      cases e with
      | execute command esp ebp =>
        cases hsys
        cases hret
        exact inv_execute ih hpc _
      | _ => cases hm
    | halt status =>
      have hm : x.makes e = true := hm
      unfold makes at hm
      rw [hpc] at hm
      cases e with
      | halt status' => cases hsys
      | _ => cases hm

/-- What shell `p` has printed and executed follows from the lines it has read. It never fails, its
output is always taken, and its `read` gets to the loop of `terminal_read`. -/
structure Law (img : Image) (m : Machine) (p : Pid) (x : Shell) : Prop where
  serves : ∃ turns, x.Serves turns
  regular : x.pc.Regular
  puts : ∀ msg k e, x.pc = .puts msg k → m.ctl = .user p → x.makes e = true →
    ∃ m', Machine.call img m e = some (m', some ⟨msg.strlen, []⟩)
  reads : ∀ e, x.pc = .read → m.ctl = .user p → x.makes e = true →
    ∃ m' z, Machine.call img m e = some (m', none) ∧ m'.ctl = .reading p z

end Shell

/-- In every run in order in which the copy of no program fails: every shell executes the lines that
it reads, in order and each once, and says how they ended, until a line is `exit`. -/
theorem shell_serves_lines (img : Image) (s : Machine × Programs Shell)
    (h : Reach (Shell.program.step img) UserProgram.Boot (Shell.program.Ok img) s) (p : Pid)
    (x : Shell) (hp : s.2 p = some x) : Shell.Law img s.1 p x := by
  have hi := (UserProgram.reach_inv h).isolated hp
  have hx := Shell.inv_alone hi.alone
  refine ⟨hx.serves, hx.regular, fun msg k e hpc hc hm => ?_, fun e hpc hc hm => ?_⟩
  · obtain ⟨hown, hsys⟩ := Shell.syscall_puts img hx hpc hm
    obtain ⟨m', y, hcall, hgoes⟩ := hi.takes e _ hc hown hsys
    cases hgoes
    exact ⟨m', hcall⟩
  · obtain ⟨hown, hsys⟩ := Shell.syscall_read img hx hpc hm
    obtain ⟨m', y, hcall, hgoes⟩ := hi.takes e _ hc hown hsys
    cases hgoes with
    | terminal hctl _ => exact ⟨m', _, hcall, hctl⟩

/-- `cat` is typed at the first shell, and ends with 5. -/
theorem shell_serves_lines_cat : ∃ (s : Machine × Programs Shell) (x : Shell), s.2 0 = some x ∧
    x.ran = [(Machine.catName, 5)] ∧
      x.out = literal "Starting 391 Shell\n391OS> program terminated abnormally\n391OS> " ∧
        Shell.Law Machine.disk s.1 0 x := by
  have hrun : (run (fun s e => if Shell.program.check Machine.disk s e then
      Shell.program.step Machine.disk s e else none) (Machine.booted, fun _ => none)
      ([.tick 0 0, .tick 0 0, .tick 0 0, .tick 0 0,
        .write 1 (some fun j => (literal "Starting 391 Shell\n").getD j 0) 19,
        .write 1 (some fun j => (literal "391OS> ").getD j 0) 7, .read 0 (some fun _ => 0) 1023,
        .key 1 0x2E, .key 1 0x1E, .key 1 0x14] ++ List.replicate 9 .go ++
        [.key 1 0x1C, .go, .execute (some Machine.catName) 0 0, .halt 5,
          .write 1 (some fun j => (literal "program terminated abnormally\n").getD j 0) 30,
          .write 1 (some fun j => (literal "391OS> ").getD j 0) 7])).bind
          (fun s => (s.2 0).map fun x => (x.ran, x.out)) = some ([(Machine.catName, 5)],
            literal "Starting 391 Shell\n391OS> program terminated abnormally\n391OS> ") := by
    decide +kernel
  obtain ⟨s, hs, hx⟩ := Option.bind_eq_some_iff.mp hrun
  obtain ⟨x, hp, heq⟩ := Option.map_eq_some_iff.mp hx
  simp only [Prod.mk.injEq] at heq
  have hreach : Reach (Shell.program.step Machine.disk) UserProgram.Boot
      (Shell.program.Ok Machine.disk) s :=
    Reach.of_checked (UserProgram.Ok.of_check _ Machine.shellLoads_disk)
      (.init ⟨Machine.boot_booted, fun _ => rfl⟩) hs
  exact ⟨s, x, hp, heq.1, heq.2, shell_serves_lines Machine.disk s hreach 0 x hp⟩

end DeviceOS
