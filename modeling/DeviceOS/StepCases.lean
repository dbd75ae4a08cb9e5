import DeviceOS.Machine

/-!
# DeviceOS.StepCases

What one event can be, said once: `step_cases` is the inversion of `step`. Every fact about the
steps of the machine is a case analysis on `StepCase`.
-/

namespace DeviceOS
namespace Machine

variable {img : Image} {m m' : Machine} {e : Event}

/-- A system call. -/
def IsSyscall : Event → Prop
  | .tick _ _ | .key _ _ | .mouse _ | .rtc | .go => False
  | _ => True

theorem call_user {x : Machine × Option Reply} (h : call img m e = some x) (he : IsSyscall e) :
    ∃ p, m.ctl = .user p ∧ syscall img m.kern p e = some x := by
  obtain ⟨k, c⟩ := m
  cases e <;> first
    | exact False.elim he
    | (cases c with
       | user p => exact ⟨p, rfl, h⟩
       | _ => simp [call] at h)

inductive StepCase (img : Image) (m m' : Machine) : Event → Prop
  | tick {esp ebp : Nat} :
      m.kern.pitHandler img m.ctl ⟨esp, ebp, none⟩ = some (m'.kern, m'.ctl) →
      StepCase img m m' (.tick esp ebp)
  | key {status code : UInt8} : m' = ⟨key m.kern status code, m.ctl⟩ →
      StepCase img m m' (.key status code)
  | mouse {p : Packet} : m.kern.mouseHandler p = some m'.kern → m'.ctl = m.ctl →
      StepCase img m m' (.mouse p)
  | rtc : m' = ⟨{ m.kern with rtc := m.kern.rtc.handler }, m.ctl⟩ → StepCase img m m' .rtc
  | statement {pc : HaltPc} {l : HaltLocals} : m.ctl = .halting pc l →
      pc.exec l m.kern = some (m'.kern, m'.ctl) → StepCase img m m' .go
  | finish {fr : Frame} {l : HaltLocals} {p : Pid} : m.ctl = .finishing fr l →
      fr.caller = some p → m' = ⟨m.kern, .user p⟩ → StepCase img m m' .go
  | poll {p : Pid} {r : Reader} {y : Option Reply} : m.ctl = .reading p r →
      m.kern.readStep p r = some (m'.kern, m'.ctl, y) → StepCase img m m' .go
  | rtcPoll {p : Pid} : m.ctl = .waiting p → m' = ⟨m.kern, (m.kern.rtcStep p).1⟩ →
      StepCase img m m' .go
  | returned {command : Option CString} {esp ebp : Nat} {p : Pid} {v : Int} {proc : Proc} :
      m.ctl = .user p →
      m.kern.proc.execute img m.kern.con.curTerminal command ⟨esp, ebp, some p⟩ = .ret v proc →
      m' = ⟨{ m.kern with proc := proc }, .user p⟩ →
      StepCase img m m' (.execute command esp ebp)
  | entered {command : Option CString} {esp ebp : Nat} {p child : Pid} {proc : Proc} :
      m.ctl = .user p →
      m.kern.proc.execute img m.kern.con.curTerminal command ⟨esp, ebp, some p⟩ =
        .enter child proc →
      m' = ⟨{ m.kern with proc := proc }, .user child⟩ →
      StepCase img m m' (.execute command esp ebp)
  | halt {status : UInt8} {p : Pid} : m.ctl = .user p →
      DeviceOS.halt m.kern status = some (m'.kern, m'.ctl) → StepCase img m m' (.halt status)
  | haltCall {status : UInt8} {p : Pid} : m.ctl = .user p →
      m.kern.haltEntry status = some (m'.kern, m'.ctl) → StepCase img m m' (.haltCall status)
  | read {fd nbytes : Int} {buf : Option (Nat → UInt8)} {p : Pid} {r : Reply} : m.ctl = .user p →
      m.kern.read img fd buf nbytes = some (.ret r m'.kern) → m'.ctl = .user p →
      StepCase img m m' (.read fd buf nbytes)
  | readTerminal {fd nbytes : Int} {buf : Option (Nat → UInt8)} {p : Pid} {t : Term} :
      m.ctl = .user p → m.kern.read img fd buf nbytes = some (.terminal t) →
      m' = ⟨m.kern, .reading p (.start t nbytes.toNat (buf.getD fun _ => 0))⟩ →
      StepCase img m m' (.read fd buf nbytes)
  | readRtc {fd nbytes : Int} {buf : Option (Nat → UInt8)} {p : Pid} : m.ctl = .user p →
      m.kern.read img fd buf nbytes = some (.rtc m'.kern) → m'.ctl = .waiting p →
      StepCase img m m' (.read fd buf nbytes)
  | write {fd nbytes : Int} {buf : Option (Nat → UInt8)} {p : Pid} {r : Reply} :
      m.ctl = .user p → m.kern.write fd buf nbytes = some (r, m'.kern) → m'.ctl = .user p →
      StepCase img m m' (.write fd buf nbytes)
  | open' {name : Option CString} {p : Pid} {v : Int} : m.ctl = .user p →
      m.kern.open' img name = some (v, m'.kern) → m'.ctl = .user p →
      StepCase img m m' (.open' name)
  | close {fd v : Int} {p : Pid} : m.ctl = .user p → m.kern.close fd = some (v, m'.kern) →
      m'.ctl = .user p → StepCase img m m' (.close fd)
  | getargs {mem : Nat → UInt8} {nbytes : Int} {p : Pid} {r : Reply} : m.ctl = .user p →
      m.kern.getargs mem nbytes = some (r, m'.kern) → m'.ctl = .user p →
      StepCase img m m' (.getargs mem nbytes)
  | vidmap {start : Nat} {p : Pid} {v : Int} : m.ctl = .user p →
      m.kern.vidmap start = some (v, m'.kern) → m'.ctl = .user p →
      StepCase img m m' (.vidmap start)
  | setHandler {p : Pid} : m.ctl = .user p → m' = m → StepCase img m m' .setHandler
  | sigreturn {p : Pid} : m.ctl = .user p → m' = m → StepCase img m m' .sigreturn

theorem go_cases {y : Option Reply} (h : call img m .go = some (m', y)) :
    StepCase img m m' .go := by
  simp only [call] at h
  cases hc : m.ctl with
  | halting pc l =>
    rw [hc] at h
    obtain ⟨⟨k', c'⟩, hx, heq⟩ := Option.map_eq_some_iff.mp h
    cases heq
    exact .statement hc hx
  | finishing fr l =>
    rw [hc] at h
    obtain ⟨⟨k', c'⟩, hx, heq⟩ := Option.map_eq_some_iff.mp h
    cases heq
    obtain ⟨p, hp, heq⟩ := Option.map_eq_some_iff.mp hx
    cases heq
    exact .finish hc hp rfl
  | reading p r =>
    rw [hc] at h
    obtain ⟨⟨k', c', y'⟩, hx, heq⟩ := Option.map_eq_some_iff.mp h
    cases heq
    exact .poll hc hx
  | waiting p =>
    rw [hc] at h
    cases h
    exact .rtcPoll hc rfl
  | _ => simp [hc, go] at h

theorem syscall_cases {y : Option Reply} {p : Pid} (hc : m.ctl = .user p) (he : IsSyscall e)
    (h : syscall img m.kern p e = some (m', y)) : StepCase img m m' e := by
  cases e with
  | execute command esp ebp =>
    simp only [syscall, execute] at h
    split at h
    · rename_i hx
      cases h
      exact .returned hc hx rfl
    · rename_i hx
      cases h
      exact .entered hc hx rfl
    · cases h
  | halt status =>
    obtain ⟨⟨k', c'⟩, hx, heq⟩ := Option.map_eq_some_iff.mp h
    cases heq
    exact .halt hc hx
  | haltCall status =>
    obtain ⟨⟨k', c'⟩, hx, heq⟩ := Option.map_eq_some_iff.mp h
    cases heq
    exact .haltCall hc hx
  | read fd buf nbytes =>
    obtain ⟨x, hx, heq⟩ := Option.map_eq_some_iff.mp h
    cases x with
    | ret r k' =>
      cases heq
      exact .read hc hx rfl
    | terminal t =>
      cases heq
      exact .readTerminal hc hx rfl
    | rtc k' =>
      cases heq
      exact .readRtc hc hx rfl
  | write fd buf nbytes =>
    obtain ⟨⟨r, k'⟩, hx, heq⟩ := Option.map_eq_some_iff.mp h
    cases heq
    exact .write hc hx rfl
  | open' name =>
    obtain ⟨⟨v, k'⟩, hx, heq⟩ := Option.map_eq_some_iff.mp h
    cases heq
    exact .open' hc hx rfl
  | close fd =>
    obtain ⟨⟨v, k'⟩, hx, heq⟩ := Option.map_eq_some_iff.mp h
    cases heq
    exact .close hc hx rfl
  | getargs mem nbytes =>
    obtain ⟨⟨r, k'⟩, hx, heq⟩ := Option.map_eq_some_iff.mp h
    cases heq
    exact .getargs hc hx rfl
  | vidmap start =>
    obtain ⟨⟨v, k'⟩, hx, heq⟩ := Option.map_eq_some_iff.mp h
    cases heq
    exact .vidmap hc hx rfl
  | setHandler =>
    obtain ⟨k, c⟩ := m
    cases hc
    cases h
    exact .setHandler rfl rfl
  | sigreturn =>
    obtain ⟨k, c⟩ := m
    cases hc
    cases h
    exact .sigreturn rfl rfl
  | _ => exact he.elim

/-- The inversion of one event. -/
theorem step_cases (h : step img m e = some m') : StepCase img m m' e := by
  obtain ⟨⟨m1, y⟩, hcall, rfl⟩ := Option.map_eq_some_iff.mp h
  have hsys : IsSyscall e → StepCase img m m1 e := by
    intro he
    obtain ⟨p, hc, hs⟩ := call_user hcall he
    exact syscall_cases hc he hs
  cases e with
  | tick esp ebp =>
    obtain ⟨⟨k', c'⟩, hp, heq⟩ := Option.map_eq_some_iff.mp hcall
    cases heq
    exact .tick hp
  | key status code =>
    cases hcall
    exact .key rfl
  | mouse p =>
    obtain ⟨k', hk, heq⟩ := Option.map_eq_some_iff.mp hcall
    cases heq
    exact .mouse hk rfl
  | rtc =>
    cases hcall
    exact .rtc rfl
  | go => exact go_cases hcall
  | _ => exact hsys trivial

end Machine
end DeviceOS
