import DeviceOS.ConsoleCalls
import DeviceOS.UserPages

/-!
# DeviceOS.MachinePages

The page tables of the running machine.

* `pagingOps`: the calls that one event of the machine makes of the functions that edit the tables.
* `step_pageState`: the machine's own account of the tables (`Kernel.pageState`) changes by these
  calls and by nothing else. `keyboard_handler` and `mouse_handler` put back what they change.
* `pagedStep`: the machine together with its page tables, which `pagingOps` edits. `PagedInv`: the
  tables are always those of the machine's account.
-/

namespace DeviceOS

open EventSystem (withHistory withHistory_eq_some)

/-! ## The console -/

namespace Console

theorem switchTerminal_vidmapped (tpi : Option Term) (c : Console) (keycode : Nat) :
    (c.switchTerminal tpi keycode).vidmapped = c.vidmapped := by
  unfold switchTerminal
  split
  · refine (setCursor_drawn _ _ _).vidmapped.trans ?_
    simp only
    split <;> rfl
  · rfl

theorem Call.exec_vidmapped (tpi : Option Term) (c : Console) (x : Call) :
    (x.exec tpi c).vidmapped = c.vidmapped := by
  cases x with
  | putc ch => exact (putc_drawn c ch).vidmapped
  | shiftScreen => exact (shiftScreen_drawn c).vidmapped
  | clearScreen => exact (clearScreen_drawn c).vidmapped
  | setCursor x y => exact (setCursor_drawn c x y).vidmapped
  | display keycode => exact switchTerminal_vidmapped tpi c keycode
  | _ => rfl

theorem runCalls_vidmapped (tpi : Option Term) (calls : List Call) : ∀ c : Console,
    (runCalls tpi calls c).vidmapped = c.vidmapped := by
  induction calls with
  | nil => exact fun c => rfl
  | cons x calls ih => exact fun c => (ih _).trans (x.exec_vidmapped tpi c)

theorem keyboardHandler_vidmap (typing : Term → Bool) (tpi : Option Term) (c : Console)
    (status code : UInt8) :
    (c.keyboardHandler typing tpi status code).vidmapped = c.vidmapped ∧
      (c.keyboardHandler typing tpi status code).vidmemPage = c.vidmemPage := by
  refine ⟨?_, ?_⟩
  · rw [← runCalls_keyCalls c status code]
    exact runCalls_vidmapped tpi _ c
  · by_cases hs : status = 0
    · simp [keyboardHandler, hs]
    · exact (keyboardHandler_page typing tpi c hs code).1

end Console

theorem Kernel.togglePaint_vidmapped (k : Kernel) :
    k.togglePaint.1.con.vidmapped = k.con.vidmapped := by
  have hd := Console.clearScreen_drawn k.con
  simp only [togglePaint]
  split
  · rw [Console.setTerm_vidmapped]
    exact hd.vidmapped
  · exact hd.vidmapped

/-! ## Directory entry 32 -/

namespace Proc

variable {img : Image} {cur : Term} {p p' : Proc} {command : Option CString} {regs : Frame}

/-- The pid for which `execute` gets to `map_program_mem`. -/
def mappedPid (img : Image) (p : Proc) (command : Option CString) : Option Pid :=
  match p.freePid, command with
  | some q, some cmd =>
    match findProgram img cmd with
    | .ok (some _) => some q
    | _ => none
  | _, _ => none

theorem Finds.mappedPid {q : Pid} {prog : Program} (h : p.Finds img command q prog) :
    p.mappedPid img command = some q := by
  obtain ⟨hq, cmd, rfl, hf⟩ := h
  simp [Proc.mappedPid, hq, hf]

theorem mappedPid_eq_none (h : ∀ q prog, ¬ p.Finds img command q prog) :
    p.mappedPid img command = none := by
  simp only [mappedPid]
  split
  · rename_i q cmd hq
    split
    · rename_i prog hf
      exact absurd ⟨hq, cmd, rfl, hf⟩ (h q prog)
    · rfl
  · rfl

/-- Directory entry 32 after the entry of `q` was put there, if there is a `q`. -/
def pageAfter (old : Pde) (q : Option Pid) : Pde := q.elim old pdeOf

theorem execute_ret_page {v : Int} (h : p.execute img cur command regs = .ret v p') :
    p'.pageDirectory32 = pageAfter p.pageDirectory32 (p.mappedPid img command) := by
  rcases execute_cases img cur p command regs with ⟨h1, hno⟩ | ⟨f, h1⟩ | ⟨q, prog, p1, hf, _, hst, h1⟩ |
    ⟨q, prog, p1, hl, hst, h1⟩
  all_goals rw [h1] at h; cases h
  · rw [mappedPid_eq_none hno]
    rfl
  · rw [hf.mappedPid, hst.pageDirectory32]
    rfl

theorem execute_enter_page {q : Pid} (h : p.execute img cur command regs = .enter q p') :
    p'.pageDirectory32 = pageAfter p.pageDirectory32 (p.mappedPid img command) := by
  obtain ⟨prog, p1, hl, hst, rfl⟩ := execute_enter h
  rw [hl.1.mappedPid]
  exact hst.pageDirectory32

end Proc

/-- The parent whose page `halt` maps. -/
def Kernel.haltParent (k : Kernel) : Option Pid :=
  k.currPid.bind fun q => if q.val < 3 then none else (k.proc.pcb q).parentid

/-- The pid that the next statement of `halt` maps. -/
def HaltPc.mappedBy (l : HaltLocals) : HaltPc → Option Pid
  | .mapParent => l.pidTemp
  | _ => none

theorem HaltPc.exec_page {pc : HaltPc} {l : HaltLocals} {k k' : Kernel} {c : Ctl}
    (h : pc.exec l k = some (k', c)) :
    k'.proc.pageDirectory32 = Proc.pageAfter k.proc.pageDirectory32 (pc.mappedBy l) ∧
      ∀ pc' l', c = .halting pc' l' → pc' ≠ .mapParent := by
  cases pc with
  | mapParent =>
    simp only [exec] at h
    split at h
    · rename_i hnone
      cases h
      refine ⟨?_, fun pc' l' hc => by cases hc⟩
      simp only [mappedBy, hnone]
      rfl
    · rename_i q hq
      cases h
      refine ⟨?_, fun pc' l' hc => by cases hc; exact HaltPc.noConfusion⟩
      simp only [mappedBy, hq]
      rfl
  | closeFds i =>
    obtain ⟨⟨v, k1⟩, hclose, heq⟩ := Option.map_eq_some_iff.mp h
    cases heq
    refine ⟨(Kernel.close_apart hclose).1.pageDirectory32, fun pc' l' hc => ?_⟩
    cases hc
    split <;> simp
  | typing =>
    obtain ⟨t, _, heq⟩ := Option.map_eq_some_iff.mp h
    cases heq
    exact ⟨rfl, fun pc' l' hc => by cases hc; simp⟩
  | popPid =>
    obtain ⟨t, _, heq⟩ := Option.map_eq_some_iff.mp h
    cases heq
    exact ⟨rfl, fun pc' l' hc => by cases hc; simp⟩
  | jump =>
    cases h
    exact ⟨rfl, fun pc' l' hc => by cases hc⟩
  | _ =>
    cases h
    exact ⟨rfl, fun pc' l' hc => by cases hc; simp⟩

/-- Only the first statement of `halt` maps a page. -/
theorem runHalt_page {n : Nat} {k k' : Kernel} {c c' : Ctl}
    (hc : ∀ pc l, c = .halting pc l → pc ≠ .mapParent) (h : runHalt n k c = some (k', c')) :
    k'.proc.pageDirectory32 = k.proc.pageDirectory32 := by
  have hinv := runHalt_inv (I := fun k1 c1 => (∀ pc l, c1 = .halting pc l → pc ≠ .mapParent) ∧
    k1.proc.pageDirectory32 = k.proc.pageDirectory32) ?_
    (fun hi => ⟨fun pc l hc => (by cases hc), hi.2⟩) ⟨hc, rfl⟩ h
  · exact hinv.2
  · intro pc l k1 k2 c2 hi hx
    obtain ⟨hpage, hnext⟩ := HaltPc.exec_page hx
    have hsame : Proc.pageAfter k1.proc.pageDirectory32 (pc.mappedBy l) =
        k1.proc.pageDirectory32 := by
      have hne := hi.1 pc l rfl
      cases pc <;> first | exact absurd rfl hne | rfl
    exact ⟨hnext, (hpage.trans hsame).trans hi.2⟩

theorem halt_page {k k' : Kernel} {status : UInt8} {c : Ctl}
    (h : DeviceOS.halt k status = some (k', c)) :
    k'.proc.pageDirectory32 = Proc.pageAfter k.proc.pageDirectory32 k.haltParent := by
  simp only [DeviceOS.halt, Option.bind_eq_some_iff] at h
  obtain ⟨⟨k1, c1⟩, hentry, hr⟩ := h
  obtain ⟨rfl, q, hq, ⟨hlt, rfl⟩ | ⟨hge, rfl⟩⟩ := Kernel.haltEntry_cases hentry
  · rw [runHalt_page (fun pc l hc => by cases hc) hr]
    simp only [Kernel.haltParent, hq, Option.bind_some, if_pos hlt]
    rfl
  · simp only [runHalt, Option.bind_eq_some_iff] at hr
    obtain ⟨⟨k2, c2⟩, hx, hr⟩ := hr
    obtain ⟨hpage, hnext⟩ := HaltPc.exec_page hx
    rw [runHalt_page hnext hr, hpage]
    simp only [Kernel.haltParent, hq, Option.bind_some, if_neg (Nat.not_lt.mpr hge)]
    rfl

/-! ## One event -/

/-- What the machine knows of its page tables. -/
def Kernel.pageState (k : Kernel) : PageState :=
  ⟨k.proc.pageDirectory32, k.con.vidmapped, k.con.vidmemPage⟩

namespace Machine

variable {img : Image} {m m' : Machine} {e : Event}

/-- The calls that one event makes of the functions that edit the page tables. -/
def pagingOps (img : Image) (m : Machine) : Event → List PagingOp
  | .tick _ _ =>
    match m.kern.nextTerminal with
    | none => []
    | some t => [.schedule t m.kern.con.curTerminal (m.kern.proc.pidArr t)
        (m.kern.proc.mappedPid img (some shellName))]
  | .execute command _ _ => (m.kern.proc.mappedPid img command).toList.map .mapProgramMem
  | .halt _ => m.kern.haltParent.toList.map .mapProgramMem
  | .go =>
    match m.ctl with
    | .halting pc l => (pc.mappedBy l).toList.map .mapProgramMem
    | _ => []
  | .vidmap screenStart => [.vidmap screenStart]
  -- `keyboard_handler` and `mouse_handler` put the one field back that they change
  | _ => []

theorem foldl_mapped (s : PageState) (q : Option Pid) :
    (q.toList.map PagingOp.mapProgramMem).foldl PageState.next s =
      { s with program := Proc.pageAfter s.program q } := by
  cases q <;> rfl

/-- Events that keep the fields of the console that describe the page tables. -/
theorem step_vidmap (h : step img m e = some m') :
    (∃ start, e = .vidmap start ∧ Kernel.usrmemBottom ≤ start ∧ start ≤ Kernel.usrmemTop ∧
      m'.kern.con.vidmapped = true ∧ m'.kern.con.vidmemPage = vidmemIndex) ∨
    ((∀ start, e = .vidmap start → ¬ (Kernel.usrmemBottom ≤ start ∧ start ≤ Kernel.usrmemTop)) ∧
      m'.kern.con.vidmapped = m.kern.con.vidmapped ∧
      (m'.kern.con.vidmemPage = m.kern.con.vidmemPage ∨ ∃ esp ebp t, e = .tick esp ebp ∧
        m.kern.nextTerminal = some t ∧ m.kern.proc.pidArr t ≠ none)) := by
  cases step_console h with
  | @same e hspare hcon =>
    refine Or.inr ⟨?_, by rw [hcon], Or.inl (by rw [hcon])⟩
    rintro start rfl
    exact hspare
  | still _ heq =>
    rw [heq]
    exact Or.inr ⟨by simp, rfl, Or.inl rfl⟩
  | start _ _ hcon => exact Or.inr ⟨by simp, by rw [hcon], Or.inl (by rw [hcon])⟩
  | resume hn hp hcon =>
    exact Or.inr ⟨by simp, by rw [hcon], Or.inr ⟨_, _, _, rfl, hn, hp⟩⟩
  | typed heq =>
    rw [heq]
    obtain ⟨h1, h2⟩ := Console.keyboardHandler_vidmap m.kern.proc.typingMask
      m.kern.proc.terminalProcessIndex m.kern.con _ _
    exact Or.inr ⟨by simp, h1, Or.inl h2⟩
  | moved hm =>
    refine Or.inr ⟨by simp, ?_, Or.inl (Kernel.mouseHandler_page hm).1⟩
    rcases Kernel.mouseHandler_drawn hm with hd | hd
    · exact hd.vidmapped
    · exact hd.vidmapped.trans m.kern.togglePaint_vidmapped
  | wrote hcon =>
    have hd := Console.terminalWrite_drawn m.kern.proc.terminalProcessIndex m.kern.con
    rw [hcon]
    exact Or.inr ⟨by simp, (hd _).vidmapped, Or.inl (hd _).vidmemPage⟩
  | mapped h1 h2 hcon =>
    rw [hcon]
    exact Or.inl ⟨_, rfl, h1, h2, rfl, rfl⟩
  | read _ _ hcon =>
    rw [hcon]
    exact Or.inr ⟨by simp, rfl, Or.inl rfl⟩

theorem next_start (s : PageState) (t cur : Term) (q : Option Pid) :
    s.next (.schedule t cur none q) = { s with program := Proc.pageAfter s.program q } := by
  cases q <;> rfl

theorem pageState_eq {k k' : Kernel} {q : Option Pid}
    (h1 : k'.proc.pageDirectory32 = Proc.pageAfter k.proc.pageDirectory32 q)
    (h2 : k'.con.vidmapped = k.con.vidmapped) (h3 : k'.con.vidmemPage = k.con.vidmemPage) :
    k'.pageState = (q.toList.map PagingOp.mapProgramMem).foldl PageState.next k.pageState := by
  rw [foldl_mapped, Kernel.pageState, h1, h2, h3]
  rfl

/-- One event changes the account of the tables by the calls that it makes. -/
theorem step_pageState (h : step img m e = some m') :
    m'.kern.pageState = (pagingOps img m e).foldl PageState.next m.kern.pageState := by
  -- an event that makes no call
  have hnone : (∀ esp ebp, e ≠ .tick esp ebp) → (∀ start, e ≠ .vidmap start) →
      m'.kern.proc.pageDirectory32 = m.kern.proc.pageDirectory32 →
      m'.kern.pageState = m.kern.pageState := by
    intro htick hvidmap hpage
    rcases step_vidmap h with ⟨start, heq, _⟩ | ⟨_, h1, h2 | ⟨esp, ebp, t, heq, _⟩⟩
    · exact absurd heq (hvidmap start)
    · rw [Kernel.pageState, hpage, h1, h2]
      rfl
    · exact absurd heq (htick esp ebp)
  have hquiet : Quiet m e → m'.kern.proc.pageDirectory32 = m.kern.proc.pageDirectory32 :=
    fun hq => (step_sameTables hq h).1.pageDirectory32
  cases step_cases h with
  | tick hp =>
    rcases Kernel.pitHandler_cases hp with ⟨hn, hk, _⟩ | ⟨t, hn, _, hcase⟩
    · rw [hk]
      simp only [pagingOps, hn]
      rfl
    · simp only [pagingOps, hn, List.foldl]
      rcases hcase with ⟨he, p', hx, hk, _⟩ | ⟨he, q, p', hx, hk, _⟩ | ⟨q, hq, hk, _⟩
      · rw [hk, he, next_start, Kernel.pageState, Proc.execute_ret_page hx]
        rfl
      · rw [hk, he, next_start, Kernel.pageState, Proc.execute_enter_page hx]
        rfl
      · rw [hk, hq]
        rfl
  | returned _ hx heq =>
    rw [heq]
    exact pageState_eq (Proc.execute_ret_page hx) rfl rfl
  | entered _ hx heq =>
    rw [heq]
    exact pageState_eq (Proc.execute_enter_page hx) rfl rfl
  | halt _ hx => exact pageState_eq (halt_page hx) (by rw [(halt_con hx).1]) (by rw [(halt_con hx).1])
  | haltCall _ hx =>
    rw [Kernel.haltEntry_kern hx]
    rfl
  | statement hc hx =>
    have hcon := (HaltPc.exec_con hx).1
    simp only [pagingOps, hc]
    exact pageState_eq (HaltPc.exec_page hx).1 (by rw [hcon]) (by rw [hcon])
  | finish hc _ heq =>
    simp only [pagingOps, hc]
    rw [heq]
    rfl
  | poll hc =>
    simp only [pagingOps, hc]
    exact hnone (by simp) (by simp) (hquiet ⟨_, by rw [hc]; rfl⟩)
  | rtcPoll hc =>
    simp only [pagingOps, hc]
    exact hnone (by simp) (by simp) (hquiet ⟨_, by rw [hc]; rfl⟩)
  | vidmap =>
    simp only [pagingOps, List.foldl, PageState.next]
    rcases step_vidmap h with ⟨start, heq, h1, h2, h3, h4⟩ | ⟨hout, h1, h2 | ⟨_, _, _, heq, _⟩⟩
    · cases heq
      rw [if_neg (by omega), Kernel.pageState, hquiet trivial, h3, h4]
      rfl
    · have := hout _ rfl
      rw [if_pos (by omega), Kernel.pageState, hquiet trivial, h1, h2]
      rfl
    · cases heq
  | _ => exact hnone (by simp) (by simp) (hquiet trivial)

/-! ## The machine with its tables -/

/-- The machine and its page tables, which every event edits by its calls. -/
def pagedStep (L : Layout) (img : Image) :
    Machine × PageTables → Event → Option (Machine × PageTables) :=
  withHistory (step img) fun m e t => (pagingOps img m e).foldl (PagingOp.apply L) t

/-- The machine after boot, and the tables as `paging_init` has left them. -/
def PagedBoot (L : Layout) (s : Machine × PageTables) : Prop :=
  Boot s.1 ∧ s.1.kern.pageState = PageState.init ∧ ∃ t : PageTables, s.2 = t.pagingInit L

/-- The tables are those of the machine's account. -/
def PagedInv (L : Layout) (s : Machine × PageTables) : Prop :=
  ∃ last, TablesInv L s.2 s.1.kern.pageState last

variable {L : Layout} {s s' : Machine × PageTables}

theorem PagedBoot.inv (h : PagedBoot L s) : PagedInv L s := by
  obtain ⟨_, hstate, t, ht⟩ := h
  refine ⟨none, ?_⟩
  rw [hstate, ht]
  exact tablesInv_init t L

theorem PagedInv.next (h : PagedInv L s) (hs : pagedStep L img s e = some s') : PagedInv L s' := by
  obtain ⟨last, hinv⟩ := h
  obtain ⟨hstep, htables⟩ := withHistory_eq_some.mp hs
  refine ⟨(pagingOps img s.1 e).foldl (fun last op => op.mapped.or last) last, ?_⟩
  rw [htables, step_pageState hstep]
  exact hinv.run (pagingOps img s.1 e)

end Machine
end DeviceOS
