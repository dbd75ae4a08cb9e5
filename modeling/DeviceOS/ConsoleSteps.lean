import DeviceOS.ConsoleFrame

/-!
# DeviceOS.ConsoleSteps

What one event of the machine does to the console: `ConsoleKind` is the inversion of `step` for it.
-/

namespace DeviceOS

theorem Kernel.write_con {k k' : Kernel} {fd nbytes : Int} {buf : Option (Nat → UInt8)} {r : Reply}
    (h : k.write fd buf nbytes = some (r, k')) : k'.con = k.con ∨
      ∃ bytes, k'.con = k.con.terminalWrite k.proc.terminalProcessIndex bytes := by
  cases write_cases h with
  | refused => exact Or.inl rfl
  | rtc => exact Or.inl rfl
  | terminal => exact Or.inr ⟨_, rfl⟩

theorem Proc.execute_tpi {img : Image} {cur : Term} {p : Proc} {command : Option CString}
    {regs : Frame} :
    (∀ v p', p.execute img cur command regs = .ret v p' →
      p'.terminalProcessIndex = p.terminalProcessIndex) ∧
    ∀ q p', p.execute img cur command regs = .enter q p' →
      p'.terminalProcessIndex = p.terminalProcessIndex := by
  refine execute_keeps (I := fun p' => p'.terminalProcessIndex = p.terminalProcessIndex) rfl ?_
    fun _ _ _ h => h
  rintro q p' ⟨mem, rfl, _⟩
  rfl

namespace Machine

variable {img : Image} {m m' : Machine} {e : Event}

/-- The page that `schedule` puts in `vidmap_page_table` for terminal `t`. -/
def videoPage (cur t : Term) : Nat := if t ≠ cur then term1Index + t.val else vidmemIndex

/-- An event that can leave the console alone. -/
def CanSpareConsole : Event → Prop
  | .tick _ _ | .key _ _ | .mouse _ => False
  | .vidmap start => ¬ (Kernel.usrmemBottom ≤ start ∧ start ≤ Kernel.usrmemTop)
  | _ => True

inductive ConsoleKind (m m' : Machine) : Event → Prop
  | same {e : Event} : CanSpareConsole e → m'.kern.con = m.kern.con → ConsoleKind m m' e
  | still {esp ebp : Nat} : m.kern.nextTerminal = none → m' = m → ConsoleKind m m' (.tick esp ebp)
  /-- A tick to a terminal without a process: its base shell starts, or fails to start. -/
  | start {esp ebp : Nat} {t : Term} : m.kern.nextTerminal = some t → m.kern.proc.pidArr t = none →
      m'.kern.con = m.kern.con → m'.kern.proc.terminalProcessIndex = some t →
      ConsoleKind m m' (.tick esp ebp)
  | resume {esp ebp : Nat} {t : Term} : m.kern.nextTerminal = some t →
      m.kern.proc.pidArr t ≠ none →
      m'.kern.con = { m.kern.con with vidmemPage := videoPage m.kern.con.curTerminal t } →
      m'.kern.proc.terminalProcessIndex = some t → ConsoleKind m m' (.tick esp ebp)
  | typed {status code : UInt8} : m' = ⟨key m.kern status code, m.ctl⟩ →
      ConsoleKind m m' (.key status code)
  | moved {p : Packet} : m.kern.mouseHandler p = some m'.kern → m'.ctl = m.ctl →
      ConsoleKind m m' (.mouse p)
  | wrote {fd nbytes : Int} {buf : Option (Nat → UInt8)} {bytes : List UInt8} :
      m'.kern.con = m.kern.con.terminalWrite m.kern.proc.terminalProcessIndex bytes →
      ConsoleKind m m' (.write fd buf nbytes)
  | mapped {start : Nat} : Kernel.usrmemBottom ≤ start → start ≤ Kernel.usrmemTop →
      m'.kern.con = { m.kern.con with vidmapped := true, vidmemPage := vidmemIndex } →
      ConsoleKind m m' (.vidmap start)
  | read {p : Pid} {r : Reader} {buf : Nat → UInt8} {ret : Nat} {shell : Bool} :
      m.ctl = .reading p r → r.step (m.kern.con.terminalStruct r.term) = .done buf ret →
      m'.kern.con = m.kern.con.setTerm r.term
        ((m.kern.con.terminalStruct r.term).finishRead shell) → ConsoleKind m m' .go

/-- The inversion of one event, for the console. -/
theorem step_console (h : step img m e = some m') : ConsoleKind m m' e := by
  cases step_cases h with
  | tick hp =>
    rcases Kernel.pitHandler_cases hp with ⟨hn, hk, hc⟩ | ⟨t, hn, _, hcase⟩
    · obtain ⟨k', c'⟩ := m'
      cases hk
      cases hc
      exact .still hn rfl
    · rcases hcase with ⟨he, p', hx, hk, _⟩ | ⟨he, q, p', hx, hk, _⟩ | ⟨q, hq, hk, _⟩
      · exact .start hn he (by rw [hk]; rfl) (by rw [hk]; exact Proc.execute_tpi.1 _ _ hx)
      · exact .start hn he (by rw [hk]; rfl) (by rw [hk]; exact Proc.execute_tpi.2 _ _ hx)
      · exact .resume hn (by rw [hq]; simp) (by rw [hk]; rfl) (by rw [hk]; rfl)
  | key heq => exact .typed heq
  | mouse hk hc => exact .moved hk hc
  | rtc heq => exact .same trivial (by rw [heq])
  | statement _ hx => exact .same trivial (HaltPc.exec_con hx).1
  | finish _ _ heq => exact .same trivial (by rw [heq])
  | @poll p r y hc hk =>
    simp only [Kernel.readStep] at hk
    split at hk
    · simp only [Option.some.injEq, Prod.mk.injEq] at hk
      exact .same trivial (by rw [← hk.1])
    · rename_i buf ret hdone
      obtain ⟨q, _, heq⟩ := Option.map_eq_some_iff.mp hk
      simp only [Prod.mk.injEq] at heq
      exact .read hc hdone (by rw [← heq.1])
    · cases hk
  | rtcPoll _ heq => exact .same trivial (by rw [heq])
  | returned _ _ heq => exact .same trivial (by rw [heq])
  | entered _ _ heq => exact .same trivial (by rw [heq])
  | halt _ hx => exact .same trivial (halt_con hx).1
  | haltCall _ hx => exact .same trivial (by rw [Kernel.haltEntry_kern hx])
  | read _ hx => exact .same trivial (Kernel.read_apart hx).2
  | readTerminal _ _ heq => exact .same trivial (by rw [heq])
  | readRtc _ hx => exact .same trivial (by rw [Kernel.read_rtc hx])
  | write _ hx =>
    rcases Kernel.write_con hx with hcon | ⟨bytes, hcon⟩
    · exact .same trivial hcon
    · exact .wrote hcon
  | open' _ hx => exact .same trivial (Kernel.open_apart hx).2
  | close _ hx => exact .same trivial (Kernel.close_apart hx).2
  | getargs _ hx => exact .same trivial (Kernel.getargs_apart hx).2
  | vidmap _ hx =>
    rcases (Kernel.vidmap_cases hx).2.2 with ⟨_, hk, hout⟩ | ⟨_, hcon, h1, h2⟩
    · exact .same hout (by rw [hk])
    · exact .mapped h1 h2 hcon
  | setHandler _ heq => exact .same trivial (by rw [heq])
  | sigreturn _ heq => exact .same trivial (by rw [heq])

end Machine
end DeviceOS
