import DeviceOS.Lib.Framing
import DeviceOS.MousePosition

/-!
# DeviceOS.MouseStream

The bytes of the mouse. The device sends packets of three bytes, one after the other, and each run
of `mouse_handler` reads its bytes from the port.

The handler returns after the status byte when an overflow bit is set in it. The other two bytes of
that packet stay in the port, and the next run takes the first of them for a status byte.

* `readPacket`: what one run reads. `mouseInterrupt_eq`: the handler is given the three bytes from
  the position of the run on.
* `Wired`, `wireStep`: the machine with the port. Mouse interrupts come in between any other events.
  `wireStep_machine`: where the machine has a step for a packet, it is that step.
* `log_eq`: in every run the handler cuts the port into the chunks of `Framing.start`.
* `packets_framed_iff`: the packets stay framed exactly until the first one with an overflow bit.
-/

namespace DeviceOS

open EventSystem (Allowed run run_inv)
open Framing (InStep inStep_iff)

/-- The bytes of a stream of packets, in the order in which the device sends them. -/
def bytesOf (s : Nat → Packet) (i : Nat) : UInt8 :=
  if i % 3 = 0 then (s (i / 3)).status
  else if i % 3 = 1 then (s (i / 3)).deltaX
  else (s (i / 3)).deltaY

/-- A run of `mouse_handler`: the position of the byte that it takes for the status, the bytes
`status`, `delta_x` and `delta_y` unless it returns before it has them, and the position of the next
unread byte. -/
structure Decoded where
  start : Nat
  triple : Option Packet
  next : Nat

/-- The reads of `mouse_handler`, from byte `pos` on. -/
def readPacket (port : Nat → UInt8) (pos : Nat) : Decoded :=
  let status := port pos
  if status &&& 0xC0 ≠ 0 then ⟨pos, none, pos + 1⟩
  else ⟨pos, some ⟨status, port (pos + 1), port (pos + 2)⟩, pos + 3⟩

/-- `mouse_handler` after its reads. `stray` is the byte behind the end of `shell_mask`, which a right
click reads when the displayed terminal has no process. -/
def Kernel.mouseInterrupt (k : Kernel) (stray : Bool) (d : Decoded) : Kernel :=
  match d.triple with
  | none => k
  | some p => (k.mouseHandlerLogged stray p).result

theorem mouseInterrupt_eq (k : Kernel) (stray : Bool) (port : Nat → UInt8) (pos : Nat) :
    k.mouseInterrupt stray (readPacket port pos) =
      (k.mouseHandlerLogged stray ⟨port pos, port (pos + 1), port (pos + 2)⟩).result := by
  by_cases h : port pos &&& 0xC0 ≠ 0
  · simp only [Kernel.mouseInterrupt, readPacket, if_pos h, Kernel.mouseHandlerLogged]
    rfl
  · simp only [Kernel.mouseInterrupt, readPacket, if_neg h]

/-- How many bytes a run takes. -/
def taken (status : UInt8) : Nat := if status &&& 0xC0 ≠ 0 then 1 else 3

theorem readPacket_start (port : Nat → UInt8) (pos : Nat) : (readPacket port pos).start = pos := by
  unfold readPacket
  dsimp only
  split
  · rfl
  · rfl

theorem readPacket_next (port : Nat → UInt8) (pos : Nat) :
    (readPacket port pos).next = pos + taken (port pos) := by
  unfold readPacket taken
  dsimp only
  split
  · rfl
  · rfl

/-! ## The machine with the port -/

/-- `log` is the list of the runs of `mouse_handler`. -/
structure Wired where
  machine : Machine
  pos : Nat
  log : List Decoded

def Wired.initial (m : Machine) : Wired := ⟨m, 0, []⟩

/-- Any event of the machine, with the packets of the mouse left out. -/
inductive WireEvent where
  | mouse (stray : Bool)
  | other (e : Event)

def wireStep (img : Image) (port : Nat → UInt8) (w : Wired) : WireEvent → Option Wired
  | .mouse stray =>
    let d := readPacket port w.pos
    some ⟨⟨w.machine.kern.mouseInterrupt stray d, w.machine.ctl⟩, d.next, w.log ++ [d]⟩
  | .other (.mouse _) => none
  | .other e => (Machine.step img w.machine e).map fun m => { w with machine := m }

variable {img : Image} {port : Nat → UInt8} {w w' : Wired}

/-- A mouse interrupt has a result in every state. -/
theorem wireStep_mouse (stray : Bool) : wireStep img port w (.mouse stray) =
    some ⟨⟨w.machine.kern.mouseInterrupt stray (readPacket port w.pos), w.machine.ctl⟩,
      (readPacket port w.pos).next, w.log ++ [readPacket port w.pos]⟩ :=
  rfl

theorem wireStep_other {e : Event} (h : wireStep img port w (.other e) = some w') :
    Machine.step img w.machine e = some w'.machine ∧ w'.pos = w.pos ∧ w'.log = w.log := by
  cases e with
  | mouse p => cases h
  | _ =>
    simp only [wireStep, Option.map_eq_some_iff] at h
    obtain ⟨m, hm, rfl⟩ := h
    exact ⟨hm, rfl, rfl⟩

/-- The event of the machine. -/
def WireEvent.event (port : Nat → UInt8) (pos : Nat) : WireEvent → Event
  | .mouse _ => .mouse ⟨port pos, port (pos + 1), port (pos + 2)⟩
  | .other e => e

/-- Where the machine has a step for the event, the machine with the port takes that step. -/
theorem wireStep_machine {e : WireEvent} {m : Machine} (h : wireStep img port w e = some w')
    (hm : Machine.step img w.machine (e.event port w.pos) = some m) : w'.machine = m := by
  cases e with
  | mouse stray =>
    rw [wireStep_mouse] at h
    cases h
    simp only [WireEvent.event, Machine.step, Machine.call, Option.map_map] at hm
    obtain ⟨k, hk, rfl⟩ := Option.map_eq_some_iff.1 hm
    dsimp only [Function.comp]
    rw [mouseInterrupt_eq, Kernel.mouseHandlerLogged_result hk]
  | other e =>
    have hstep := (wireStep_other h).1
    rw [WireEvent.event, hstep] at hm
    exact Option.some.inj hm

/-- The runs so far have cut the port into chunks. -/
structure CutUp (port : Nat → UInt8) (w : Wired) : Prop where
  pos : w.pos = Framing.start taken port w.log.length
  log : w.log = (List.range w.log.length).map fun i =>
    readPacket port (Framing.start taken port i)

theorem CutUp.step (h : CutUp port w) {e : WireEvent} (hs : wireStep img port w e = some w') :
    CutUp port w' := by
  cases e with
  | mouse stray =>
    rw [wireStep_mouse] at hs
    cases hs
    constructor
    · dsimp only
      rw [List.length_append, List.length_singleton, Framing.start, readPacket_next, h.pos]
    · dsimp only
      rw [List.length_append, List.length_singleton, List.range_succ, List.map_append, ← h.log,
        List.map_singleton, ← h.pos]
  | other e =>
    obtain ⟨_, hpos, hlog⟩ := wireStep_other hs
    constructor
    · rw [hpos, hlog]
      exact h.pos
    · rw [hlog]
      exact h.log

theorem log_eq {m : Machine} {es : List WireEvent}
    (hr : run (wireStep img port) (.initial m) es = some w') : CutUp port w' := by
  have hinit : CutUp port (.initial m) := ⟨rfl, rfl⟩
  exact run_inv (fun w e w1 hw _ hs => hw.step hs) hinit
    (Allowed.of_forall (fun _ _ _ => trivial) _) hr

/-! ## Packets -/

variable {s : Nat → Packet}

theorem bytesOf_packet (s : Nat → Packet) (i : Nat) :
    (⟨bytesOf s (3 * i), bytesOf s (3 * i + 1), bytesOf s (3 * i + 2)⟩ : Packet) = s i := by
  have hdiv : 3 * i / 3 = i ∧ (3 * i + 1) / 3 = i ∧ (3 * i + 2) / 3 = i := by omega
  have hmod : 3 * i % 3 = 0 ∧ (3 * i + 1) % 3 = 1 ∧ (3 * i + 2) % 3 = 2 := by omega
  simp [bytesOf, hdiv.1, hdiv.2.1, hdiv.2.2, hmod.1, hmod.2.1, hmod.2.2]

/-- Run `i` is packet `i`: its status byte is that of the packet, and it has decoded the packet or
thrown all of it away. -/
structure Decoded.Frames (s : Nat → Packet) (i : Nat) (d : Decoded) : Prop where
  start : d.start = 3 * i
  whole : d.triple = some (s i) ∨ d.triple = none ∧ d.next = 3 * (i + 1)

def Framed (s : Nat → Packet) (log : List Decoded) : Prop :=
  ∀ (i : Nat) (d : Decoded), log[i]? = some d → d.Frames s i

theorem readPacket_frames_iff (i pos : Nat) : (readPacket (bytesOf s) pos).Frames s i ↔
    pos = 3 * i ∧ taken (bytesOf s pos) = 3 := by
  constructor
  · intro h
    have hpos : pos = 3 * i := by rw [← readPacket_start (bytesOf s) pos, h.start]
    have hwhole := h.whole
    have hnext := readPacket_next (bytesOf s) pos
    refine ⟨hpos, ?_⟩
    unfold taken at hnext ⊢
    by_cases hover : bytesOf s pos &&& 0xC0 ≠ 0
    · -- the run has left two bytes of the packet behind
      simp only [readPacket, if_pos hover] at hwhole
      rcases hwhole with htriple | ⟨_, hend⟩
      · cases htriple
      · omega
    · rw [if_neg hover]
  · rintro ⟨rfl, htaken⟩
    have hover : ¬ bytesOf s (3 * i) &&& 0xC0 ≠ 0 := by
      intro hover
      rw [taken, if_pos hover] at htaken
      cases htaken
    refine ⟨readPacket_start _ _, Or.inl ?_⟩
    simp only [readPacket, if_neg hover, bytesOf_packet]

theorem CutUp.framed_iff (h : CutUp (bytesOf s) w) :
    Framed s w.log ↔ InStep taken (bytesOf s) 3 w.log.length := by
  have hget : ∀ i < w.log.length, w.log[i]? =
      some (readPacket (bytesOf s) (Framing.start taken (bytesOf s) i)) := by
    intro i hi
    rw [h.log, List.getElem?_map, List.getElem?_range hi]
    rfl
  constructor
  · intro hf i hi
    obtain ⟨hpos, htaken⟩ := (readPacket_frames_iff i _).1 (hf i _ (hget i hi))
    refine ⟨hpos, ?_⟩
    rw [Framing.start, htaken, hpos, Nat.mul_succ]
  · intro hstep i d hd
    have hi : i < w.log.length := by
      by_contra hge
      rw [List.getElem?_eq_none (Nat.not_lt.1 hge)] at hd
      cases hd
    rw [hget i hi] at hd
    cases hd
    obtain ⟨hpos, hnext⟩ := hstep i hi
    rw [Framing.start, hpos, Nat.mul_succ] at hnext
    rw [readPacket_frames_iff, hpos]
    exact ⟨rfl, Nat.add_left_cancel hnext⟩

theorem taken_eq_three {status : UInt8} : taken status = 3 ↔ status &&& 0xC0 = 0 := by
  unfold taken
  split
  · rename_i h
    exact iff_of_false (by decide) h
  · rename_i h
    exact iff_of_true rfl (not_not.1 h)

/-- For every stream of packets and every run, from any state of the kernel: the packets have stayed
framed if and only if none of those that the handler has come to has an overflow bit. -/
theorem packets_framed_iff (img : Image) (s : Nat → Packet) (m : Machine) (es : List WireEvent)
    (w : Wired) (hr : run (wireStep img (bytesOf s)) (.initial m) es = some w) :
    Framed s w.log ↔ ∀ i < w.log.length, (s i).status &&& 0xC0 = 0 := by
  rw [(log_eq hr).framed_iff, inStep_iff]
  refine forall_congr' fun i => forall_congr' fun _ => ?_
  rw [taken_eq_three]
  have hstatus := congrArg Packet.status (bytesOf_packet s i)
  dsimp only at hstatus
  rw [hstatus]

theorem packets_framed_still : ∃ w, run (wireStep Machine.disk (bytesOf fun _ => ⟨8, 4, 252⟩))
    (.initial Machine.booted) [.mouse false, .other .rtc, .mouse false] = some w ∧ w.log.length = 2 ∧
      Framed (fun _ => ⟨8, 4, 252⟩) w.log := by
  refine ⟨_, rfl, rfl, ?_⟩
  exact (packets_framed_iff Machine.disk _ Machine.booted
    [.mouse false, .other .rtc, .mouse false] _ rfl).2 fun _ _ => rfl

/-- A packet with the X overflow bit, and still packets after it. -/
def farRight : Nat → Packet
  | 0 => ⟨0x48, 9, 1⟩
  | _ => ⟨8, 0, 0⟩

/-- The second run takes 9, 1 and 8 for a packet. -/
theorem packets_out_of_step : ¬ ∀ (img : Image) (s : Nat → Packet) (m : Machine)
    (es : List WireEvent) (w : Wired),
      run (wireStep img (bytesOf s)) (.initial m) es = some w → Framed s w.log := by
  intro h
  have hframed := h Machine.disk farRight Machine.booted [.mouse false, .mouse false] _ rfl
  have hsecond := hframed 1 ⟨1, some ⟨9, 1, 8⟩, 4⟩ rfl
  exact absurd hsecond.start (by decide)

end DeviceOS
