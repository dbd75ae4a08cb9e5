import DeviceOS.Halt
import DeviceOS.Keyboard
import DeviceOS.Lib.EventSystem
import DeviceOS.Mouse
import DeviceOS.Pit

/-!
# DeviceOS.Machine

The whole system: the events that can happen to the machine, what one event does, and the machine
after boot. A run is a list of events; any order is possible.

* Interrupts (`tick`, `key`, `mouse`, `rtc`) can happen in every state.
* A system call can be made by a user program. `halt` occurs in two granularities: `halt` runs the
  whole call as one step, and `haltCall` only enters it.
* `go` is the next statement of a call of `halt`, `terminal_read` or `rtc_read` that is in progress,
  so that interrupts can come between two of its statements.

The other system calls change nothing that another thread can see half done, and `execute` and
`terminal_write` run with interrupts off: each is one step.
-/

namespace DeviceOS

/-- `esp` and `ebp` are the registers inside the call of `execute` that a timer interrupt or a
program makes. -/
inductive Event where
  | tick (esp ebp : Nat)
  | key (status code : UInt8)
  | mouse (p : Packet)
  | rtc
  | execute (command : Option CString) (esp ebp : Nat)
  | halt (status : UInt8)
  | haltCall (status : UInt8)
  | go
  | read (fd : Int) (buf : Option (Nat → UInt8)) (nbytes : Int)
  | write (fd : Int) (buf : Option (Nat → UInt8)) (nbytes : Int)
  | open' (filename : Option CString)
  | close (fd : Int)
  | getargs (mem : Nat → UInt8) (nbytes : Int)
  | vidmap (screenStart : Nat)
  | setHandler
  | sigreturn

namespace Machine

/-- What an event does, and the reply that a system call hands back in it. -/
abbrev Outcome := Option (Machine × Option Reply)

/-- The bytes that a call hands back. -/
def Outcome.bytes : Outcome → List UInt8
  | some (_, some r) => r.out
  | _ => []

def silent (r : Option (Kernel × Ctl)) : Outcome := r.map fun r => (⟨r.1, r.2⟩, none)

/-- The keyboard interrupt. -/
def key (k : Kernel) (status code : UInt8) : Kernel :=
  { k with con := k.con.keyboardHandler k.proc.typingMask k.proc.terminalProcessIndex status code }

/-- `execute` called by process `p`. -/
def execute (img : Image) (k : Kernel) (p : Pid) (command : Option CString) (esp ebp : Nat) :
    Outcome :=
  match k.proc.execute img k.con.curTerminal command ⟨esp, ebp, some p⟩ with
  | .ret v proc => some (⟨{ k with proc := proc }, .user p⟩, some ⟨v, []⟩)
  | .enter child proc => some (⟨{ k with proc := proc }, .user child⟩, none)
  | .fault _ => none

/-- A system call made by the program of process `p`. -/
def syscall (img : Image) (k : Kernel) (p : Pid) : Event → Outcome
  | .execute command esp ebp => execute img k p command esp ebp
  | .halt status => silent (DeviceOS.halt k status)
  | .haltCall status => silent (k.haltEntry status)
  | .read fd buf nbytes =>
    (k.read img fd buf nbytes).map fun
      | .ret r k' => (⟨k', .user p⟩, some r)
      | .terminal t => (⟨k, .reading p (.start t nbytes.toNat (buf.getD fun _ => 0))⟩, none)
      | .rtc k' => (⟨k', .waiting p⟩, none)
  | .write fd buf nbytes => (k.write fd buf nbytes).map fun r => (⟨r.2, .user p⟩, some r.1)
  | .open' name => (k.open' img name).map fun r => (⟨r.2, .user p⟩, some ⟨r.1, []⟩)
  | .close fd => (k.close fd).map fun r => (⟨r.2, .user p⟩, some ⟨r.1, []⟩)
  | .getargs mem nbytes => (k.getargs mem nbytes).map fun r => (⟨r.2, .user p⟩, some r.1)
  | .vidmap start => (k.vidmap start).map fun r => (⟨r.2, .user p⟩, some ⟨r.1, []⟩)
  | .setHandler => some (⟨k, .user p⟩, some ⟨-1, []⟩)
  | .sigreturn => some (⟨k, .user p⟩, some ⟨-1, []⟩)
  | _ => none

/-- The next statement of a system call in progress. -/
def go (k : Kernel) : Ctl → Outcome
  | .halting pc l => silent (pc.exec l k)
  | .finishing fr _ =>
    (finishExecute k fr).map fun r => (⟨r.1, r.2⟩, some ⟨k.proc.haltValue, []⟩)
  | .reading p r => (k.readStep p r).map fun x => (⟨x.1, x.2.1⟩, x.2.2)
  | .waiting p => some (⟨k, (k.rtcStep p).1⟩, (k.rtcStep p).2)
  | _ => none

def call (img : Image) (m : Machine) : Event → Outcome
  | .tick esp ebp => silent (m.kern.pitHandler img m.ctl ⟨esp, ebp, none⟩)
  | .key status code => some (⟨key m.kern status code, m.ctl⟩, none)
  | .mouse p => (m.kern.mouseHandler p).map fun k => (⟨k, m.ctl⟩, none)
  | .rtc => some (⟨{ m.kern with rtc := m.kern.rtc.handler }, m.ctl⟩, none)
  | .go => go m.kern m.ctl
  | e =>
    match m.ctl with
    | .user p => syscall img m.kern p e
    | _ => none

def step (img : Image) (m : Machine) (e : Event) : Option Machine := (call img m e).map Prod.fst

/-- Every call of `halt` is one step. -/
def Whole : Event → Prop
  | .haltCall _ => False
  | _ => True

/-- The process whose program runs. -/
def program (m : Machine) : Option Pid :=
  match m.ctl with
  | .user p => some p
  | _ => none

theorem program_eq_some {m : Machine} {p : Pid} : m.program = some p ↔ m.ctl = .user p := by
  cases h : m.ctl <;> simp [program, h]

/-- The machine when the timer is started. Memory that nothing has set yet is arbitrary. -/
structure Boot (m : Machine) : Prop where
  idle : m.ctl = .idle
  tpi : m.kern.proc.terminalProcessIndex = none
  pidArr : ∀ t, m.kern.proc.pidArr t = none
  pidMask : ∀ q, m.kern.proc.pidMask q = false
  shellMask : ∀ q, m.kern.proc.shellMask q = false
  typingMask : ∀ t, m.kern.proc.typingMask t = true
  pcbArray : ∀ q, m.kern.proc.pcbArray q = false
  esp0 : m.kern.proc.tss = ⟨0x800000, kernelDs⟩
  haltValue : m.kern.proc.haltValue = 0
  curTerminal : m.kern.con.curTerminal = 0
  writeTermIdx : m.kern.con.writeTermIdx = none
  vidmapped : m.kern.con.vidmapped = false
  vidmemPage : m.kern.con.vidmemPage = vidmemIndex
  terminals : ∀ t, m.kern.con.terminalStruct t =
    ⟨fun _ => 0, 0, false, 0, 0, fun _ _ => 0, fun _ => 0, 0⟩
  modifiers : m.kern.con.shftPress = false ∧ m.kern.con.cpslockPress = false ∧
    m.kern.con.lctrlPress = false ∧ m.kern.con.altPress = false
  paint : ∀ t, m.kern.mouse.paint t = false

/-! ## A concrete machine -/

theorem term_pos : 0 < 3 := by decide

/-- The machine after boot, with all other memory zero. -/
def booted : Machine where
  kern := {
    proc := {
      haltValue := 0
      shellMask := fun _ => false
      typingMask := fun _ => true
      pidMask := fun _ => false
      pidArr := fun _ => none
      pcbArray := fun _ => false
      pcb := fun _ => ⟨0, none, 0, 0, ⟨0, 0, none⟩, 0, fun _ => 0, fun _ => ⟨none, 0, 0, false⟩, 0, 0,
        .idle⟩
      tss := ⟨0x800000, kernelDs⟩
      pageDirectory32 := ⟨32, false, false⟩
      progMem := fun _ _ => 0
      terminalProcessIndex := none }
    con := {
      curTerminal := ⟨0, term_pos⟩
      terminalStruct := fun _ => ⟨fun _ => 0, 0, false, 0, 0, fun _ _ => 0, fun _ => 0, 0⟩
      writeTermIdx := none
      vram := fun _ => 0
      vidmapped := false
      vidmemPage := vidmemIndex
      crtcPos := 0
      shftPress := false
      cpslockPress := false
      lctrlPress := false
      altPress := false }
    mouse := ⟨0, 0, 0, fun _ => false, false⟩
    rtc := ⟨0, 0, false, 0⟩ }
  ctl := .idle

theorem boot_booted : Boot booted where
  idle := rfl
  tpi := rfl
  pidArr _ := rfl
  pidMask _ := rfl
  shellMask _ := rfl
  typingMask _ := rfl
  pcbArray _ := rfl
  esp0 := rfl
  haltValue := rfl
  curTerminal := rfl
  writeTermIdx := rfl
  vidmapped := rfl
  vidmemPage := rfl
  terminals _ := rfl
  modifiers := ⟨rfl, rfl, rfl, rfl⟩
  paint _ := rfl

def catName : CString := [99, 97, 116]
def badName : CString := [98, 97, 100]

/-- Three programs of one block each, `shell`, `cat` and `bad`, with the same ELF header. The inode
of `bad` goes on to a second block, and that block does not exist. -/
def disk : Image where
  dirCount := 3
  inodeCount := 3
  dataCount := 1
  direntries i := ⟨fun j => ([shellName, catName, badName].getD i []).getD j 0, 2, i⟩
  inodes i := if i = 2 then ⟨5000, fun k => k⟩ else ⟨28, fun k => k⟩
  dataBlocks _ j := elfMagic.getD j 0

end Machine
end DeviceOS
