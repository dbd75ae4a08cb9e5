import DeviceOS.ConsoleSteps

/-!
# DeviceOS.VideoMapping

The page table entry through which programs see video memory. `schedule` and `switch_terminal` set
it to what the running terminal has to draw on. But `keyboard_handler` saves it before, and puts it
back after, its call of `switch_terminal`; `vidmap` sets it to the screen whoever calls; and a base
shell that `schedule` starts gets no entry of its own.

* `Disturbs`: the events after which the entry is wrong.
* `Settled`: no event has disturbed the entry since boot, or since the timer last resumed a process.
* `video_mapping_follows`: in a settled state the entry is right, and the next event keeps it right
  exactly when it does not disturb it.
-/

namespace DeviceOS

open EventSystem (Reach run)

namespace Kernel

variable {k k' : Kernel}

theorem togglePaint_page (k : Kernel) : k.togglePaint.1.con.vidmemPage = k.con.vidmemPage ∧
    k.togglePaint.1.con.curTerminal = k.con.curTerminal := by
  have hd := Console.clearScreen_drawn k.con
  simp only [togglePaint]
  split
  · rw [Console.setTerm_vidmemPage, Console.setTerm_curTerminal]
    exact ⟨hd.vidmemPage, hd.curTerminal⟩
  · exact ⟨hd.vidmemPage, hd.curTerminal⟩

/-- A mouse interrupt keeps the displayed terminal and puts the entry back. -/
theorem mouseHandler_page {p : Packet} (h : k.mouseHandler p = some k') :
    k'.con.vidmemPage = k.con.vidmemPage ∧ k'.con.curTerminal = k.con.curTerminal := by
  rcases mouseHandler_drawn h with hd | hd
  · exact ⟨hd.vidmemPage, hd.curTerminal⟩
  · obtain ⟨h1, h2⟩ := togglePaint_page k
    exact ⟨hd.vidmemPage.trans h1, hd.curTerminal.trans h2⟩

end Kernel

namespace Machine

variable {img : Image} {m m' : Machine} {e : Event} {t : Term}

/-- Only the timer moves to another terminal. -/
theorem step_terminalProcessIndex (h : step img m e = some m') (he : ∀ esp ebp, e ≠ .tick esp ebp) :
    m'.kern.proc.terminalProcessIndex = m.kern.proc.terminalProcessIndex := by
  have hquiet : Quiet m e → m'.kern.proc.terminalProcessIndex = m.kern.proc.terminalProcessIndex :=
    fun hq => (step_sameTables hq h).1.terminalProcessIndex
  cases step_cases h with
  | tick => exact absurd rfl (he _ _)
  | returned _ hx heq =>
    rw [heq]
    exact Proc.execute_tpi.1 _ _ hx
  | entered _ hx heq =>
    rw [heq]
    exact Proc.execute_tpi.2 _ _ hx
  | halt _ hx => exact (halt_con hx).2
  | haltCall _ hx => rw [Kernel.haltEntry_kern hx]
  | statement _ hx => exact (HaltPc.exec_con hx).2
  | finish _ _ heq => rw [heq]
  | poll hc => exact hquiet ⟨_, by rw [hc]; rfl⟩
  | rtcPoll hc => exact hquiet ⟨_, by rw [hc]; rfl⟩
  | _ => exact hquiet trivial

theorem videoPage_self (t : Term) : videoPage t t = vidmemIndex := by simp [videoPage]

/-- Two pairs of terminals agree on the page when they agree on being the same. -/
theorem videoPage_eq_iff (cur cur' t : Term) :
    videoPage cur t = videoPage cur' t ↔ (t = cur ↔ t = cur') := by
  simp only [videoPage, term1Index, vidmemIndex]
  split_ifs with h1 h2 h2
  · exact iff_of_true rfl (iff_of_false h1 h2)
  · exact iff_of_false (by omega) fun h => h1 (h.mpr (not_not.mp h2))
  · exact iff_of_false (by omega) fun h => h2 (h.mp (not_not.mp h1))
  · exact iff_of_true rfl (iff_of_true (not_not.mp h1) (not_not.mp h2))

/-- The entry is the page of the running terminal: video memory if it is displayed, else the page
that it is saved in. -/
def VideoFollows (m : Machine) : Prop := ∀ t, m.kern.proc.terminalProcessIndex = some t →
  m.kern.con.vidmemPage = if t = m.kern.con.curTerminal then 0xB8 else 0xB9 + t.val

theorem videoFollows_iff (m : Machine) : VideoFollows m ↔
    ∀ t, m.kern.proc.terminalProcessIndex = some t →
      m.kern.con.vidmemPage = videoPage m.kern.con.curTerminal t := by
  refine forall₂_congr fun t _ => ?_
  simp only [videoPage, ne_eq, ite_not, vidmemIndex, term1Index]

/-- An event after which the entry is wrong, if it was right before: Alt-F1/F2/F3 that shows or
hides the running terminal, `vidmap` by a process that is not displayed, a base shell that starts
while the entry is not already its own. -/
def Disturbs (m : Machine) : Event → Prop
  | .key status code => status ≠ 0 ∧ ∃ n t, m.kern.con.switchTarget code.toNat = some n ∧
    m.kern.proc.terminalProcessIndex = some t ∧ ¬ (t = m.kern.con.curTerminal ↔ t = n)
  | .vidmap start => Kernel.usrmemBottom ≤ start ∧ start ≤ Kernel.usrmemTop ∧
    ∃ t, m.kern.proc.terminalProcessIndex = some t ∧ t ≠ m.kern.con.curTerminal
  | .tick _ _ => ∃ t, m.kern.nextTerminal = some t ∧ m.kern.proc.pidArr t = none ∧
    m.kern.con.vidmemPage ≠ videoPage m.kern.con.curTerminal t
  | _ => False

/-- A tick that resumes a process. -/
def Resumes (m : Machine) : Event → Prop
  | .tick _ _ => ∃ t, m.kern.nextTerminal = some t ∧ m.kern.proc.pidArr t ≠ none
  | _ => False

/-- `schedule` sets the entry when it resumes a process. -/
theorem Resumes.videoFollows (hr : Resumes m e) (h : step img m e = some m') : VideoFollows m' := by
  rw [videoFollows_iff]
  cases step_console h with
  | same hspare => cases e <;> first | exact hr.elim | exact hspare.elim
  | still hn =>
    obtain ⟨t, hn', _⟩ := hr
    rw [hn] at hn'
    cases hn'
  | start hn he =>
    obtain ⟨t, hn', he'⟩ := hr
    rw [hn] at hn'
    cases hn'
    exact absurd he he'
  | resume hn _ hcon htpi =>
    intro t ht
    rw [htpi] at ht
    cases ht
    rw [hcon]
  | _ => exact hr.elim

/-- A scan code keeps the entry right exactly when it does not show or hide the running terminal. -/
theorem VideoFollows.key_iff (hm : VideoFollows m) (status code : UInt8) :
    VideoFollows ⟨key m.kern status code, m.ctl⟩ ↔ ¬ Disturbs m (.key status code) := by
  rw [videoFollows_iff] at hm ⊢
  by_cases hst : status = 0
  · subst hst
    exact iff_of_true hm fun hd => hd.1 rfl
  · obtain ⟨hpage, hcur⟩ := m.kern.con.keyboardHandler_page m.kern.proc.typingMask
      m.kern.proc.terminalProcessIndex hst code
    simp only [key, hpage, hcur]
    cases hn : m.kern.con.switchTarget code.toNat with
    | none =>
      refine iff_of_true hm ?_
      rintro ⟨_, n, _, hn', _⟩
      rw [hn] at hn'
      cases hn'
    | some n =>
      simp only [Option.getD_some]
      constructor
      · rintro hright ⟨_, n', t, hn', ht, hdiff⟩
        rw [hn] at hn'
        cases hn'
        exact hdiff ((videoPage_eq_iff _ _ _).mp ((hm t ht).symm.trans (hright t ht)))
      · intro hd t ht
        rw [hm t ht, videoPage_eq_iff]
        by_contra hdiff
        exact hd ⟨hst, n, t, hn, ht, hdiff⟩

/-- One event keeps the entry right exactly when it does not disturb it. -/
theorem VideoFollows.next_iff (hm : VideoFollows m) (h : step img m e = some m') :
    VideoFollows m' ↔ ¬ Disturbs m e := by
  have hkey := hm.key_iff
  rw [videoFollows_iff] at hm ⊢
  -- an event that changes neither the entry nor the two indices it depends on
  have hkeep : m'.kern.con.vidmemPage = m.kern.con.vidmemPage →
      m'.kern.con.curTerminal = m.kern.con.curTerminal → (∀ esp ebp, e ≠ .tick esp ebp) →
      ∀ t, m'.kern.proc.terminalProcessIndex = some t →
        m'.kern.con.vidmemPage = videoPage m'.kern.con.curTerminal t := by
    intro h1 h2 he t ht
    rw [h1, h2]
    exact hm t ((step_terminalProcessIndex h he).symm.trans ht)
  cases step_console h with
  | @same e hspare hcon =>
    have htick : ∀ esp ebp, e ≠ .tick esp ebp := by
      rintro esp ebp rfl
      exact hspare
    refine iff_of_true (hkeep (by rw [hcon]) (by rw [hcon]) htick) ?_
    cases e with
    | key | tick | mouse => exact hspare.elim
    | vidmap start => exact fun hd => hspare ⟨hd.1, hd.2.1⟩
    | _ => exact not_false
  | still hn heq =>
    subst heq
    refine iff_of_true hm ?_
    rintro ⟨t, hn', _⟩
    rw [hn] at hn'
    cases hn'
  | @start esp ebp t hn he hcon htpi =>
    rw [hcon, htpi]
    constructor
    · rintro hright ⟨u, hu, _, hwrong⟩
      rw [hn] at hu
      cases hu
      exact hwrong (hright t rfl)
    · intro hd u hu
      cases hu
      by_contra hwrong
      exact hd ⟨t, hn, he, hwrong⟩
  | resume hn he hcon htpi =>
    refine iff_of_true ?_ ?_
    · rw [← videoFollows_iff]
      exact Resumes.videoFollows (e := .tick _ _) ⟨_, hn, he⟩ h
    · rintro ⟨t, hn', he', _⟩
      rw [hn] at hn'
      cases hn'
      exact he he'
  | @typed status code heq =>
    subst heq
    rw [← videoFollows_iff]
    exact hkey status code
  | moved hmove hctl =>
    obtain ⟨h1, h2⟩ := Kernel.mouseHandler_page hmove
    exact iff_of_true (hkeep h1 h2 (by simp)) not_false
  | wrote hcon =>
    have hd := Console.terminalWrite_drawn m.kern.proc.terminalProcessIndex m.kern.con
    refine iff_of_true (hkeep ?_ ?_ (by simp)) not_false
    · rw [hcon]
      exact (hd _).vidmemPage
    · rw [hcon]
      exact (hd _).curTerminal
  | mapped h1 h2 hcon =>
    rw [hcon, step_terminalProcessIndex h (by simp)]
    constructor
    · rintro hright ⟨_, _, t, ht, hne⟩
      have hsame := (videoPage_eq_iff t m.kern.con.curTerminal t).mp
        ((videoPage_self t).trans (hright t ht))
      exact hne (hsame.mp rfl)
    · intro hd t ht
      by_cases hcur : t = m.kern.con.curTerminal
      · rw [hcur]
        exact (videoPage_self _).symm
      · exact absurd ⟨h1, h2, t, ht, hcur⟩ hd
  | read _ _ hcon =>
    refine iff_of_true (hkeep ?_ ?_ (by simp)) not_false
    · rw [hcon, Console.setTerm_vidmemPage]
    · rw [hcon, Console.setTerm_curTerminal]

theorem Boot.videoFollows (h : Boot m) : VideoFollows m := by
  intro t ht
  rw [h.tpi] at ht
  cases ht

/-- Since boot, or since the timer last resumed a process, no event has disturbed the entry. -/
inductive Settled (img : Image) : Machine → Prop
  | boot {m : Machine} : Boot m → Settled img m
  | resume {m m' : Machine} {e : Event} : Reach (step img) Boot (fun _ _ => True) m → Resumes m e →
      step img m e = some m' → Settled img m'
  | step {m m' : Machine} {e : Event} : Settled img m → ¬ Disturbs m e →
      step img m e = some m' → Settled img m'

/-- In every state reached without an event that disturbs the entry since the timer last set it,
the entry is that of the running terminal, and the next event keeps it so exactly when it does not
disturb it. -/
theorem video_mapping_follows (img : Image) (m : Machine) (h : Settled img m) :
    VideoFollows m ∧
      ∀ e m', step img m e = some m' → (VideoFollows m' ↔ ¬ Disturbs m e) := by
  have hm : VideoFollows m := by
    induction h with
    | boot hb => exact hb.videoFollows
    | resume _ hr hs => exact hr.videoFollows hs
    | step _ hd hs ih => exact (ih.next_iff hs).mpr hd
  exact ⟨hm, fun e m' hs => hm.next_iff hs⟩

/-- The three base shells start, and the first one is resumed. -/
theorem video_mapping_follows_resumed : ∃ m : Machine, m.program = some 0 ∧ VideoFollows m := by
  have hrun : (run (step disk) booted (List.replicate 3 (.tick 0 0))).map (fun m =>
      (m.kern.nextTerminal, m.kern.proc.pidArr 0)) = some (some 0, some 0) := by
    decide +kernel
  obtain ⟨m, hm, hp⟩ := Option.map_eq_some_iff.mp hrun
  simp only [Prod.mk.injEq] at hp
  have hstep : (step disk m (.tick 0 0)).map program = some (some 0) := by
    have hrun' : ((run (step disk) booted (List.replicate 3 (.tick 0 0))).bind fun m =>
        (step disk m (.tick 0 0)).map program) = some (some 0) := by
      decide +kernel
    rwa [hm] at hrun'
  obtain ⟨m', hs, hprog⟩ := Option.map_eq_some_iff.mp hstep
  have hreach : Reach (step disk) Boot (fun _ _ => True) m :=
    Reach.of_any (.init boot_booted) hm
  have hres : Resumes m (.tick 0 0) := ⟨0, hp.1, by rw [hp.2]; simp⟩
  exact ⟨m', hprog, (video_mapping_follows disk m' (.resume hreach hres hs)).1⟩

/-- Alt-F2 while the program of the first terminal runs: the handler puts the entry back to video
memory, which now shows the second terminal. -/
theorem alt_f2_keeps_mapping :
    ¬ ∀ (img : Image) (m : Machine), Reach (step img) Boot (fun _ _ => True) m →
      ∀ p t, m.ctl = .user p → m.kern.proc.terminalProcessIndex = some t →
        m.kern.con.vidmemPage = if t = m.kern.con.curTerminal then 0xB8 else 0xB9 + t.val := by
  intro h
  have hrun : (run (step disk) booted (List.replicate 4 (.tick 0 0) ++
      [.key 1 0x38, .key 1 0x3C])).map (fun m => (m.program, m.kern.proc.terminalProcessIndex,
        m.kern.con.curTerminal, m.kern.con.vidmemPage)) = some (some 0, some 0, 1, 0xB8) := by
    decide +kernel
  obtain ⟨m, hm, hp⟩ := Option.map_eq_some_iff.mp hrun
  simp only [Prod.mk.injEq, program_eq_some] at hp
  obtain ⟨hc, ht, hcur, hpage⟩ := hp
  have := h disk m (Reach.of_any (.init boot_booted) hm) 0 0 hc ht
  rw [hcur, hpage] at this
  exact absurd this (by decide)

end Machine
end DeviceOS
