import DeviceOS.MachinePages

/-!
# DeviceOS.VideoGrants

Who may draw on the screens. `vidmap` opens video memory to the program that calls it. But it edits
tables that all processes share, it opens the saved pages of the three terminals too (their entries
in `first_page_table` are for the kernel only), and `halt`, `execute` and `schedule` leave the pages
open.

* `OwnScreenOnly`: the program that runs reaches the page of its own terminal and no other, and this
  one only if the process has called `vidmap` itself.
* `video_granted_per_process`: so it is in every run until the first `vidmap` that succeeds, and not
  after it.
-/

namespace DeviceOS
namespace Machine

open EventSystem (Reach run withHistory withHistory_eq_some)
open Paging32 (Memory Mapping translate)

/-- A `vidmap` that succeeds. -/
def Grants (m : Machine) : Event → Prop
  | .vidmap start => Kernel.usrmemBottom ≤ start ∧ start ≤ Kernel.usrmemTop ∧ m.program ≠ none
  | _ => False

instance (m : Machine) (e : Event) : Decidable (Grants m e) := by
  cases e <;> simp only [Grants] <;> infer_instance

/-- For each process, whether it has called `vidmap` since it started. -/
def recordGrant (img : Image) (s : Machine × PageTables) (e : Event) (granted : Pid → Bool) :
    Pid → Bool :=
  match started img s.1 e, s.1.program with
  | some q, _ => Function.update granted q false
  | none, some p => if Grants s.1 e then Function.update granted p true else granted
  | none, none => granted

/-- The machine with its page tables and the record of `vidmap`. -/
def grantStep (L : Layout) (img : Image) :
    (Machine × PageTables) × (Pid → Bool) → Event → Option ((Machine × PageTables) × (Pid → Bool)) :=
  withHistory (pagedStep L img) (recordGrant img)

def GrantBoot (L : Layout) (s : (Machine × PageTables) × (Pid → Bool)) : Prop :=
  PagedBoot L s.1 ∧ ∀ q, s.2 q = false

/-- Of the video page and the saved pages, the running program reaches only that of its own
terminal, and only if it has called `vidmap`. `u` is the terminal that runs. -/
def OwnScreenOnly (L : Layout) (other : Memory) (s : (Machine × PageTables) × (Pid → Bool)) : Prop :=
  ∀ p, s.1.1.program = some p → ∀ a x, translate (L.memory s.1.2 other) L.cr3 a = some x →
    x.user = true → IsVideoPage (x.phys / 0x1000) →
    s.2 p = true ∧ ∃ u, s.1.1.kern.proc.terminalProcessIndex = some u ∧
      x.phys / 0x1000 = if u = s.1.1.kern.con.curTerminal then 0xB8 else 0xB9 + u.val

variable {L : Layout} {img : Image} {other : Memory} {e : Event}
  {s s' : (Machine × PageTables) × (Pid → Bool)}

/-- While nothing is open, user mode reaches no video page at all. -/
theorem ownScreenOnly_of_closed (h : PagedInv L s.1) (hv : s.1.1.kern.con.vidmapped = false) :
    OwnScreenOnly L other s := by
  obtain ⟨last, hinv⟩ := h
  intro p _ a x hx hu hpage
  exfalso
  rw [isVideoPage_iff] at hpage
  rcases (hinv.confined other).user a x hx hu with ⟨_, _, q, _, heq⟩ | ⟨hlo, hhi, _⟩
  · omega
  · rw [translate_eq hinv.describes other a, PageState.lookup,
      if_pos ((isVideoPage_iff a.toNat).mpr ⟨hlo, hhi⟩)] at hx
    cases hx
    rw [Kernel.pageState, hv] at hu
    cases hu

/-- What an open saved page translates to. -/
theorem translate_saved (h : PagedInv L s.1) (hv : s.1.1.kern.con.vidmapped = true) (u : Term) :
    translate (L.memory s.1.2 other) L.cr3 (BitVec.ofNat 32 ((term1Index + u.val) * 0x1000)) =
      some ⟨(term1Index + u.val) * 0x1000, true⟩ := by
  obtain ⟨last, hinv⟩ := h
  have hlt : (term1Index + u.val) * 0x1000 < 2 ^ 32 := by
    simp only [term1Index]
    omega
  have hdiv : (term1Index + u.val) * 0x1000 / 0x1000 = term1Index + u.val := by omega
  have hpage : IsVideoPage (term1Index + u.val) := termPage_isVideoPage (some u)
  have hne : term1Index + u.val ≠ vidmemIndex := by
    simp only [term1Index, vidmemIndex]
    omega
  rw [translate_eq hinv.describes, BitVec.toNat_ofNat, Nat.mod_eq_of_lt hlt, PageState.lookup, hdiv,
    if_pos hpage]
  simp [Kernel.pageState, hv, hne]

/-- Once the pages are open, every program reaches the saved pages of all three terminals. -/
theorem not_ownScreenOnly_of_open (h : PagedInv L s.1) (hv : s.1.1.kern.con.vidmapped = true)
    {p : Pid} (hp : s.1.1.program = some p) : ¬ OwnScreenOnly L other s := by
  intro hown
  have hpage : ∀ u : Term, (term1Index + u.val) * 0x1000 / 0x1000 = term1Index + u.val := by
    intro u
    omega
  have hreach : ∀ u : Term, ∃ v, s.1.1.kern.proc.terminalProcessIndex = some v ∧
      term1Index + u.val = if v = s.1.1.kern.con.curTerminal then 0xB8 else 0xB9 + v.val := by
    intro u
    have := (hown p hp _ _ (translate_saved h hv u) rfl (by
      rw [hpage u]
      exact termPage_isVideoPage (some u))).2
    rwa [hpage u] at this
  obtain ⟨v, hv0, h0⟩ := hreach 0
  obtain ⟨v', hv1, h1⟩ := hreach 1
  rw [hv0] at hv1
  cases hv1
  rw [← h0] at h1
  simp [term1Index] at h1

/-! ## Every run -/

theorem GrantBoot.closed (h : GrantBoot L s) : s.1.1.kern.con.vidmapped = false := by
  have hstate := h.1.2.1
  exact congrArg PageState.vidmapped hstate

theorem grantStep_inv (h : PagedInv L s.1) (hs : grantStep L img s e = some s') : PagedInv L s'.1 :=
  h.next (withHistory_eq_some.mp hs).1

/-- Only a `vidmap` that succeeds opens the pages. -/
theorem grantStep_closed (hv : s.1.1.kern.con.vidmapped = false)
    (hs : grantStep L img s e = some s') :
    (¬ Grants s.1.1 e → s'.1.1.kern.con.vidmapped = false) ∧
      (Grants s.1.1 e → s'.1.1.kern.con.vidmapped = true ∧ s'.1.1.program ≠ none) := by
  have hstep : step img s.1.1 e = some s'.1.1 :=
    (withHistory_eq_some.mp (withHistory_eq_some.mp hs).1).1
  rcases step_vidmap hstep with ⟨start, rfl, h1, h2, h3, _⟩ | ⟨hout, h1, _⟩
  · have hprog : s.1.1.program ≠ none ∧ s'.1.1.program ≠ none := by
      cases step_cases hstep with
      | vidmap hc _ hc' => simp [program, hc, hc']
    exact ⟨fun hg => absurd ⟨h1, h2, hprog.1⟩ hg, fun _ => ⟨h3, hprog.2⟩⟩
  · refine ⟨fun _ => h1.trans hv, fun hg => ?_⟩
    cases e with
    | vidmap start => exact absurd ⟨hg.1, hg.2.1⟩ (hout start rfl)
    | _ => exact hg.elim

/-- In every run in which no `vidmap` succeeds, the running program reaches no page but that of its
own terminal, and only after a `vidmap` of its own; the next event keeps it so exactly when it is
not a `vidmap` that succeeds. -/
theorem video_granted_per_process (L : Layout) (img : Image) (other : Memory)
    (s : (Machine × PageTables) × (Pid → Bool))
    (h : Reach (grantStep L img) (GrantBoot L) (fun s e => ¬ Grants s.1.1 e) s) :
    OwnScreenOnly L other s ∧ ∀ e s', grantStep L img s e = some s' →
      (OwnScreenOnly L other s' ↔ ¬ Grants s.1.1 e) := by
  have hinv : PagedInv L s.1 ∧ s.1.1.kern.con.vidmapped = false := by
    refine h.inv (I := fun s => PagedInv L s.1 ∧ s.1.1.kern.con.vidmapped = false)
      (fun s hb => ⟨hb.1.inv, hb.closed⟩) ?_
    intro s e s' hi hg hs
    exact ⟨grantStep_inv hi.1 hs, (grantStep_closed hi.2 hs).1 hg⟩
  refine ⟨ownScreenOnly_of_closed hinv.1 hinv.2, fun e s' hs => ?_⟩
  have hinv' := grantStep_inv hinv.1 hs
  obtain ⟨hkeep, hopen⟩ := grantStep_closed hinv.2 hs
  constructor
  · intro hown hg
    obtain ⟨hv, hprog⟩ := hopen hg
    obtain ⟨p, hp⟩ := Option.ne_none_iff_exists'.mp hprog
    exact not_ownScreenOnly_of_open hinv' hv hp hown
  · exact fun hg => ownScreenOnly_of_closed hinv' (hkeep hg)

/-- The tables one after another, at the addresses from `0x410000` on. -/
def linked : Layout := ⟨0x410000, 0x411000, 0x412000, by decide, by decide, by decide⟩

/-- The machine after boot, its tables, and no process that has called `vidmap`. -/
def grantBooted : (Machine × PageTables) × (Pid → Bool) :=
  ((booted, (⟨fun _ => 0, fun _ => 0, fun _ => 0⟩ : PageTables).pagingInit linked), fun _ => false)

theorem grantBoot_booted : GrantBoot linked grantBooted :=
  ⟨⟨boot_booted, rfl, _, rfl⟩, fun _ => rfl⟩

/-- Two shells have started. -/
theorem video_granted_per_process_second : ∃ s : (Machine × PageTables) × (Pid → Bool),
    s.1.1.program = some 1 ∧ OwnScreenOnly linked (fun _ _ => 0) s := by
  have hrun : (run (grantStep linked disk) grantBooted [.tick 0 0, .tick 0 0]).map
      (fun s => s.1.1.program) = some (some 1) := by
    decide +kernel
  obtain ⟨s, hs, hp⟩ := Option.map_eq_some_iff.mp hrun
  exact ⟨s, hp, (video_granted_per_process linked disk (fun _ _ => 0) s
    (Reach.of_run (.init grantBoot_booted) (EventSystem.Allowed.of_forall (by simp [Grants]) _) hs)).1⟩

/-- The first shell calls `vidmap`. The second one, which never does, then reaches the saved pages
of all three terminals. -/
theorem vidmap_opens_pages_for_all :
    ¬ ∀ (L : Layout) (img : Image) (other : Memory) (s : (Machine × PageTables) × (Pid → Bool)),
      Reach (grantStep L img) (GrantBoot L) (fun _ _ => True) s → OwnScreenOnly L other s := by
  intro h
  have hrun : (run (grantStep linked disk) grantBooted
      [.tick 0 0, .vidmap 0x8000000, .tick 0 0]).map (fun s =>
        (s.1.1.program, s.2 1, s.1.1.kern.con.vidmapped)) = some (some 1, false, true) := by
    decide +kernel
  obtain ⟨s, hs, hp⟩ := Option.map_eq_some_iff.mp hrun
  simp only [Prod.mk.injEq] at hp
  obtain ⟨hprog, _, hv⟩ := hp
  have hreach : Reach (grantStep linked disk) (GrantBoot linked) (fun _ _ => True) s :=
    Reach.of_any (.init grantBoot_booted) hs
  have hinv : PagedInv linked s.1 := hreach.inv (I := fun s => PagedInv linked s.1)
    (fun _ hb => hb.1.inv) fun _ _ _ hi _ hs => grantStep_inv hi hs
  exact not_ownScreenOnly_of_open hinv hv hprog (h linked disk (fun _ _ => 0) s hreach)

end Machine
end DeviceOS
