import Mathlib.Data.Fin.Basic
import Mathlib.Data.List.FinRange
import Mathlib.Logic.Function.Basic

/-!
# DeviceOS.Blink

`blink.S` and the allocator of `fish.c`: the characters that blink on the screen, in a list whose
nodes are the elements of `blink_array`.

* `Blinker`: the array, the head of the list and the video memory.
* `mp1Malloc`, `mp1Free`: an element is free when its location is 0.
* `mp1RtcTasklet`, `mp1IoctlAdd`, `mp1IoctlRemove`, `mp1IoctlFind`, `mp1IoctlSync`.

A loop that follows the list takes at most `n` steps; `none` means that it has not ended, or has
followed a NULL pointer. `ece391_memcpy` always returns 0, so the branches for its failure are left
out. The pointer that the caller of `add` has in its structure is overwritten before it is used.
-/

namespace DeviceOS

/-- An element of `blink_array[80*25]`. -/
abbrev Slot := Fin 2000

/-- `struct mp1_blink_struct` without the pointer. -/
structure BlinkStruct where
  location : BitVec 16
  onChar : UInt8
  offChar : UInt8
  onLength : BitVec 16
  offLength : BitVec 16
  countdown : BitVec 16
  status : BitVec 16
  deriving DecidableEq

structure BlinkNode where
  data : BlinkStruct
  next : Option Slot
  deriving DecidableEq

/-- `vmem` is the memory from `vmem_base_addr` on. -/
structure Blinker where
  blinkArray : Slot → BlinkNode
  mp1ListHead : Option Slot
  vmem : Nat → UInt8

def BlinkStruct.zero : BlinkStruct := ⟨0, 0, 0, 0, 0, 0, 0⟩

/-- `2 * location`, the offset of the character on the screen. -/
def BlinkStruct.offset (b : BlinkStruct) : Nat := 2 * b.location.toNat

/-- The test `testw $0x1, STATUS`. -/
def BlinkStruct.on (b : BlinkStruct) : Bool := b.status &&& 1 ≠ 0

/-- What one tick does to a structure. `jg` compares the countdown as a signed number. -/
def BlinkStruct.tick (b : BlinkStruct) : BlinkStruct :=
  let countdown := b.countdown - 1
  if 0 < countdown.toInt then { b with countdown := countdown }
  else { b with
    countdown := if b.on then b.offLength else b.onLength
    status := b.status ^^^ 1 }

namespace Blinker

def setNode (s : Blinker) (q : Slot) (b : BlinkNode) : Blinker :=
  { s with blinkArray := Function.update s.blinkArray q b }

def setData (s : Blinker) (q : Slot) (b : BlinkStruct) : Blinker :=
  s.setNode q { s.blinkArray q with data := b }

/-- The link that `%edx` points to in `mp1_ioctl_remove`: the head of the list, or a node's. -/
def link (s : Blinker) : Option Slot → Option Slot
  | none => s.mp1ListHead
  | some p => (s.blinkArray p).next

def setLink (s : Blinker) (v : Option Slot) : Option Slot → Blinker
  | none => { s with mp1ListHead := v }
  | some p => s.setNode p { s.blinkArray p with next := v }

def mp1Poke (s : Blinker) (offset : Nat) (c : UInt8) : Blinker :=
  { s with vmem := Function.update s.vmem offset c }

/-! ## `fish.c` -/

def mp1Malloc (s : Blinker) : Option Slot :=
  (List.finRange 2000).find? fun q => (s.blinkArray q).data.location = 0

def mp1Free (s : Blinker) (q : Slot) : Blinker := s.setNode q ⟨.zero, none⟩

/-! ## `blink.S` -/

/-- The loop of `mp1_find_helper`; `some none` is the result NULL. -/
def findHelper (s : Blinker) (location : BitVec 16) : Nat → Option Slot → Option (Option Slot)
  | 0, _ => none
  | _ + 1, none => some none
  | n + 1, some q =>
    if (s.blinkArray q).data.location = location then some (some q)
    else findHelper s location n (s.blinkArray q).next

/-- The body of `tasklet_loop` for the node `q`. -/
def taskletBody (s : Blinker) (q : Slot) : Blinker :=
  let b := (s.blinkArray q).data
  if 0 < (b.countdown - 1).toInt then s.setData q b.tick
  else (s.mp1Poke b.offset (if b.on then b.offChar else b.onChar)).setData q b.tick

def taskletLoop : Nat → Option Slot → Blinker → Option Blinker
  | 0, _, _ => none
  | _ + 1, none, s => some s
  | n + 1, some q, s =>
    let s' := s.taskletBody q
    taskletLoop n (s'.blinkArray q).next s'

def mp1RtcTasklet (n : Nat) (s : Blinker) : Option Blinker := taskletLoop n s.mp1ListHead s

def mp1IoctlAdd (s : Blinker) (arg : BlinkStruct) : Int × Blinker :=
  if 80 * 25 ≤ arg.location.toNat then (-1, s)
  else
    let b := { arg with status := 1, countdown := arg.onLength }
    match s.mp1Malloc with
    | none => (-1, s)
    | some q =>
      let s1 := { s.setNode q ⟨b, s.mp1ListHead⟩ with mp1ListHead := some q }
      (0, s1.mp1Poke b.offset b.onChar)

/-- The loop `remove_find_prev`, from the link `edx` on. -/
def removeFindPrev (s : Blinker) (q : Slot) : Nat → Option Slot → Option (Option Slot)
  | 0, _ => none
  | n + 1, edx =>
    if s.link edx = some q then some edx
    else match s.link edx with
      | none => none
      | some p => removeFindPrev s q n (some p)

def mp1IoctlRemove (n : Nat) (s : Blinker) (arg : BitVec 32) : Option (Int × Blinker) :=
  (s.findHelper (arg.setWidth 16) n s.mp1ListHead).bind fun
    | none => some (-1, s)
    | some q => (s.removeFindPrev q n none).map fun edx =>
      (0, (s.setLink (s.blinkArray q).next edx).mp1Free q)

/-- `sync_copy_loop`: the flags after `testb` never satisfy the condition of `cmovl`, so it is
always the second character that is shown. -/
def mp1IoctlSync (n : Nat) (s : Blinker) (arg : BitVec 32) : Option (Int × Blinker) :=
  (s.findHelper ((arg >>> 16).setWidth 16) n s.mp1ListHead).bind fun
    | none => some (-1, s)
    | some esi => (s.findHelper ((arg &&& 0xFFFF).setWidth 16) n s.mp1ListHead).map fun
      | none => (-1, s)
      | some edi =>
        let source := (s.blinkArray esi).data
        let b := { (s.blinkArray edi).data with
          onLength := source.onLength
          offLength := source.offLength
          countdown := source.countdown
          status := source.status }
        (0, (s.setData edi b).mp1Poke b.offset b.offChar)

/-- `mp1_ioctl_find`, with what it copies to the caller. -/
def mp1IoctlFind (n : Nat) (s : Blinker) (location : BitVec 16) : Option (Int × Option BlinkNode) :=
  (s.findHelper location n s.mp1ListHead).map fun
    | none => (-1, none)
    | some q => (0, some (s.blinkArray q))

end Blinker

/-- A call of `mp1_ioctl` or of `mp1_rtc_tasklet`. -/
inductive BlinkCall where
  | tasklet
  | add (arg : BlinkStruct)
  | remove (arg : BitVec 32)
  | find (location : BitVec 16)
  | sync (arg : BitVec 32)

/-- What a call returns, and what `find` copies to the caller. -/
structure BlinkReply where
  ret : Int
  out : Option BlinkStruct
  deriving DecidableEq

/-- A call whose loops take at most `n` steps. -/
def Blinker.call (n : Nat) (s : Blinker) : BlinkCall → Option (BlinkReply × Blinker)
  | .tasklet => (s.mp1RtcTasklet n).map fun s' => (⟨0, none⟩, s')
  | .add arg => some (⟨(s.mp1IoctlAdd arg).1, none⟩, (s.mp1IoctlAdd arg).2)
  | .remove arg => (s.mp1IoctlRemove n arg).map fun r => (⟨r.1, none⟩, r.2)
  | .find location => (s.mp1IoctlFind n location).map fun r => (⟨r.1, r.2.map BlinkNode.data⟩, s)
  | .sync arg => (s.mp1IoctlSync n arg).map fun r => (⟨r.1, none⟩, r.2)

/-- After the `ece391_memset` of `main`. -/
structure Blinker.Start (s : Blinker) : Prop where
  blinkArray : ∀ q, s.blinkArray q = ⟨.zero, none⟩
  mp1ListHead : s.mp1ListHead = none

end DeviceOS
