import DeviceOS.CursorBounds
import DeviceOS.Lib.Overlays
import DeviceOS.ScreenBlind

/-!
# DeviceOS.PointerOverlay

Two consoles that draw the same, one of them with the mouse pointer on the screen.

* `Overlaid p under c c'`: `c'` is `c` without the pointer. The pointer is in the cell at address
  `p` and covers a character, or is not on the screen yet. The page where the displayed terminal was
  last saved does not matter.
* `Call.Keeps`: a call that does not disturb the cell under the pointer.
* `Overlaid.exec`: such a call leads to two consoles that differ by the pointer again.
-/

namespace DeviceOS
namespace Console

open Overlays

variable {c c' : Console} {p : Nat} {under : Option UInt8}

/-! ## Addresses -/

/-- Where the page that output goes to is in memory. -/
def pageBase (c : Console) : Nat := c.phys c.videoMem

theorem videoMem_aligned (c : Console) : c.videoMem % 0x1000 = 0 := by
  unfold videoMem
  split
  · decide
  · simp only [vmemTerm]
    omega

theorem phys_offset (c : Console) {k : Nat} (hk : k < 0x1000) :
    c.phys (c.videoMem + k) = c.pageBase + k := by
  have hal := c.videoMem_aligned
  have hpage : (c.videoMem + k) / 0x1000 = c.videoMem / 0x1000 := by omega
  have hmod : (c.videoMem + k) % 0x1000 = c.videoMem % 0x1000 + k := by omega
  simp only [pageBase, phys, hpage, hmod]
  split
  · omega
  · rfl

theorem pageBase_aligned (c : Console) : c.pageBase % 0x1000 = 0 := by
  have hal := c.videoMem_aligned
  simp only [pageBase, phys]
  split
  · omega
  · exact hal

theorem Drawn.pageBase {d : Console} (h : Drawn c d) : d.pageBase = c.pageBase := by
  rw [Console.pageBase, h.phys, h.videoMem]
  rfl

/-- Page `0xB8` can be mapped to itself. -/
theorem phys_identity (hpage : c.vidmemPage = vidmemIndex) (a : Nat) : c.phys a = a := by
  simp only [phys, hpage]
  split
  · omega
  · rfl

/-- Attributes are at odd addresses. -/
theorem phys_odd (c : Console) (i : Nat) : c.phys (c.videoMem + 2 * i + 1) % 2 = 1 := by
  have hal := c.videoMem_aligned
  simp only [phys]
  split <;> omega

/-- `p` is the address of a character on the screen. -/
def OnScreen (p : Nat) : Prop := ∃ i < numRows * numCols, p = video + 2 * i

/-- The page where terminal `t` is saved. -/
def Saved (t : Term) (a : Nat) : Prop := vmemTerm t ≤ a ∧ a < vmemTerm t + 0x1000

/-- A byte of the page that output goes to is on the screen only if this page is video memory. -/
theorem OnScreen.pageBase (h : OnScreen p) {k : Nat} (hk : k < 0x1000) (ha : c.pageBase + k = p) :
    c.pageBase = video ∧ p = video + k := by
  obtain ⟨i, hi, rfl⟩ := h
  have hal := c.pageBase_aligned
  simp only [video, numRows, numCols] at *
  omega

theorem OnScreen.not_saved (h : OnScreen p) (t : Term) : ¬ Saved t p := by
  obtain ⟨i, hi, rfl⟩ := h
  simp only [Saved, video, vmemTerm, numRows, numCols] at hi ⊢
  omega

/-- The whole page is that of the saved terminal, or nothing of it. -/
theorem saved_offset (c : Console) (t : Term) {k l : Nat} (hk : k < 0x1000) (hl : l < 0x1000)
    (h : Saved t (c.phys (c.videoMem + k))) : Saved t (c.phys (c.videoMem + l)) := by
  have hal := c.pageBase_aligned
  rw [c.phys_offset hk] at h
  rw [c.phys_offset hl]
  simp only [Saved, vmemTerm] at h ⊢
  omega

/-! ## The relation -/

def Overlaid (p : Nat) (under : Option UInt8) (c c' : Console) : Prop :=
  ∃ v, c' = c.withVram v ∧ Overlay p under (Saved c.curTerminal) c.vram v

theorem Overlaid.attrib (h : Overlaid p under c c') : c'.attrib = c.attrib := by
  obtain ⟨v, rfl, _⟩ := h
  rfl

theorem Overlaid.getCursorX (h : Overlaid p under c c') : c'.getCursorX = c.getCursorX := by
  obtain ⟨v, rfl, _⟩ := h
  rfl

theorem Overlaid.getCursorY (h : Overlaid p under c c') : c'.getCursorY = c.getCursorY := by
  obtain ⟨v, rfl, _⟩ := h
  rfl

/-- A call that stores nothing. -/
theorem Overlaid.map (h : Overlaid p under c c') {f : Console → Console}
    (hf : ∀ d v, f (Console.withVram d v) = (f d).withVram v) (hv : (f c).vram = c.vram)
    (hcur : (f c).curTerminal = c.curTerminal) : Overlaid p under (f c) (f c') := by
  obtain ⟨v, rfl, hov⟩ := h
  refine ⟨v, hf c v, ?_⟩
  rw [hv, hcur]
  exact hov

theorem Overlaid.poke (h : Overlaid p under c c') {a : Nat} {b : UInt8}
    (hk : c.phys a = p → Agrees under b) : Overlaid p under (c.poke a b) (c'.poke a b) := by
  obtain ⟨v, rfl, hov⟩ := h
  exact ⟨_, rfl, hov.store (Or.inl rfl) hk⟩

/-- The copy of byte `l` of the page to byte `k`. -/
theorem Overlaid.copyByte (h : Overlaid p under c c') {k l : Nat} (hk : k < 0x1000)
    (hl : l < 0x1000) (hread : c.phys (c.videoMem + l) = p → Agrees under (c.vram p))
    (hstore : c.phys (c.videoMem + k) = p → Agrees under (c.peek (c.videoMem + l))) :
    Overlaid p under (c.poke (c.videoMem + k) (c.peek (c.videoMem + l)))
      (c'.poke (c.videoMem + k) (c'.peek (c.videoMem + l))) := by
  obtain ⟨v, rfl, hov⟩ := h
  refine ⟨_, rfl, hov.store ?_ hstore⟩
  exact (hov.read hread).imp_right fun hs => c.saved_offset _ hl hk hs

theorem foldl_overlaid {f : Console → Nat → Console} {l : List Nat} (hd : ∀ d i, Drawn d (f d i))
    (hf : ∀ d d' i, Drawn c d → i ∈ l → Overlaid p under d d' → Overlaid p under (f d i) (f d' i))
    (h : Overlaid p under c c') : Overlaid p under (l.foldl f c) (l.foldl f c') := by
  induction l generalizing c c' with
  | nil => exact h
  | cons i l ih =>
    rw [List.foldl_cons, List.foldl_cons]
    refine ih (fun d d' j hdr hj => ?_) (hf c c' i (.refl c) List.mem_cons_self h)
    exact hf d d' j ((hd c i).trans hdr) (List.mem_cons_of_mem i hj)

/-! ## Drawing -/

/-- `ch` may be stored in cell `i` of the page that output goes to. -/
def StoreKeeps (p : Nat) (under : Option UInt8) (c : Console) (i : Nat) (ch : UInt8) : Prop :=
  c.phys (c.videoMem + 2 * i) = p → Agrees under ch

/-- The page that output goes to may be scrolled: the pointer is not moved up, and the character
that comes to its cell is the one that it covers. -/
def ScrollKeeps (p : Nat) (under : Option UInt8) (c : Console) : Prop :=
  c.pageBase = video → (video + 160 ≤ p → Agrees under (c.vram p)) ∧
    Agrees under (if p < video + 3840 then c.vram (p + 160) else 32)

/-- The page that output goes to may be cleared. -/
def ClearKeeps (under : Option UInt8) (c : Console) : Prop :=
  c.pageBase = video → Agrees under 32

theorem Overlaid.putCell (h : Overlaid p under c c') (hp : OnScreen p) {i : Nat} {ch attr : UInt8}
    (hk : StoreKeeps p under c i ch) :
    Overlaid p under (c.putCell i ch attr) (c'.putCell i ch attr) := by
  have hodd := c.phys_odd i
  obtain ⟨j, _, rfl⟩ := hp
  have h1 := h.poke hk
  obtain ⟨v, rfl, _⟩ := h
  refine Overlaid.poke (c := c.poke (c.videoMem + 2 * i) ch) h1 fun ha => ?_
  have ha : c.phys (c.videoMem + 2 * i + 1) = video + 2 * j := ha
  simp only [video] at ha
  omega

theorem Overlaid.copyCell (h : Overlaid p under c c') (hp : OnScreen p) {i j : Nat} (hi : i < 2000)
    (hj : j < 2000) (hread : c.phys (c.videoMem + 2 * j) = p → Agrees under (c.vram p))
    (hstore : StoreKeeps p under c i (c.peek (c.videoMem + 2 * j))) :
    Overlaid p under (c.copyCell i j) (c'.copyCell i j) := by
  have h1 := h.copyByte (k := 2 * i) (l := 2 * j) (by omega) (by omega) hread hstore
  have hodd := c.phys_odd i
  have hodd' := c.phys_odd j
  obtain ⟨n, _, rfl⟩ := hp
  obtain ⟨v, rfl, _⟩ := h
  refine Overlaid.copyByte (c := c.poke (c.videoMem + 2 * i) (c.peek (c.videoMem + 2 * j)))
    (k := 2 * i + 1) (l := 2 * j + 1) h1 (by omega) (by omega) (fun ha => ?_) fun ha => ?_
  · have ha : c.phys (c.videoMem + 2 * j + 1) = video + 2 * n := ha
    simp only [video] at ha
    omega
  · have ha : c.phys (c.videoMem + 2 * i + 1) = video + 2 * n := ha
    simp only [video] at ha
    omega

theorem Overlaid.setCursor (h : Overlaid p under c c') (x y : Nat) :
    Overlaid p under (c.setCursor x y) (c'.setCursor x y) := by
  refine h.map (f := fun d => d.setCursor x y) (fun d v => ?_) (setCursor_vram c x y)
    (setCursor_drawn c x y).curTerminal
  obtain ⟨_, _, idx, _⟩ := d
  cases idx <;> rfl

theorem copyCell_vram (c : Console) {i j a : Nat} (h1 : a ≠ c.phys (c.videoMem + 2 * i))
    (h2 : a ≠ c.phys (c.videoMem + 2 * i + 1)) : (c.copyCell i j).vram a = c.vram a :=
  (Function.update_of_ne h2 ..).trans (Function.update_of_ne h1 ..)

/-- The first loop of `shift_screen`, up to cell `n`: the cells from `n` on are still the old
ones. -/
theorem Overlaid.shiftLoop (h : Overlaid p under c c') (hp : OnScreen p)
    (hk : ScrollKeeps p under c) : ∀ {n : Nat}, n ≤ (numRows - 1) * numCols →
      Overlaid p under ((List.range n).foldl (fun d i => d.copyCell i (i + numCols)) c)
        ((List.range n).foldl (fun d i => d.copyCell i (i + numCols)) c') ∧
      ∀ k, 2 * n ≤ k → k < 0x1000 →
        ((List.range n).foldl (fun d i => d.copyCell i (i + numCols)) c).vram (c.pageBase + k) =
          c.vram (c.pageBase + k) := by
  intro n
  induction n with
  | zero => intro _; exact ⟨h, fun _ _ _ => rfl⟩
  | succ n ih =>
    intro hn
    obtain ⟨hov, hold⟩ := ih (by omega)
    have hd := foldl_drawn (fun d i => copyCell_drawn d i (i + numCols)) (List.range n) c
    rw [List.range_succ, List.foldl_append, List.foldl_append]
    simp only [List.foldl_cons, List.foldl_nil]
    generalize (List.range n).foldl (fun d i => d.copyCell i (i + numCols)) c = d at hov hold hd ⊢
    simp only [numRows, numCols] at hn
    have hphys : ∀ {k : Nat}, k < 0x1000 → d.phys (d.videoMem + k) = c.pageBase + k := by
      intro k hk
      rw [d.phys_offset hk, hd.pageBase]
    have hbelow : 2 * (n + numCols) < 0x1000 := by
      simp only [numCols]
      omega
    constructor
    · refine hov.copyCell hp (by omega) (by simp only [numCols]; omega) (fun ha => ?_) fun ha => ?_
      · -- the cell under the pointer is copied up
        rw [hphys hbelow] at ha
        obtain ⟨hvideo, hcell⟩ := hp.pageBase hbelow ha
        have hup := (hk hvideo).1 (by simp only [numCols] at hcell; omega)
        rw [← ha, hold _ (by omega) hbelow, ha]
        exact hup
      · -- another cell is copied to the cell under the pointer
        rw [hphys (by omega)] at ha
        obtain ⟨hvideo, hcell⟩ := hp.pageBase (by omega) ha
        have hin := (hk hvideo).2
        rw [if_pos (by omega)] at hin
        rw [peek, hphys hbelow, hold _ (by omega) hbelow]
        have hidx : c.pageBase + 2 * (n + numCols) = p + 160 := by
          simp only [numCols]
          omega
        rw [hidx]
        exact hin
    · intro k hlo hhi
      have hattr : d.phys (d.videoMem + 2 * n + 1) = c.pageBase + (2 * n + 1) := by
        rw [Nat.add_assoc]
        exact hphys (by omega)
      rw [copyCell_vram d (by rw [hphys (by omega)]; omega) (by rw [hattr]; omega)]
      exact hold k (by omega) hhi

theorem Overlaid.shiftScreen (h : Overlaid p under c c') (hp : OnScreen p)
    (hk : ScrollKeeps p under c) : Overlaid p under c.shiftScreen c'.shiftScreen := by
  have hcopy := (h.shiftLoop hp hk (Nat.le_refl _)).1
  have hd := foldl_drawn (fun d i => copyCell_drawn d i (i + numCols))
    (List.range ((numRows - 1) * numCols)) c
  unfold Console.shiftScreen
  simp only [h.attrib]
  generalize (List.range ((numRows - 1) * numCols)).foldl
    (fun d i => d.copyCell i (i + numCols)) c = c1 at hcopy hd ⊢
  generalize (List.range ((numRows - 1) * numCols)).foldl
    (fun d i => d.copyCell i (i + numCols)) c' = c1' at hcopy ⊢
  refine Overlaid.setCursor ?_ 0 24
  refine foldl_overlaid (f := fun d i => d.putCell ((numRows - 1) * numCols + i) 32 c.attrib)
    (fun d i => putCell_drawn d _ _ _) (fun d d' i hdr hi hov => hov.putCell hp fun ha => ?_) hcopy
  -- the blank is stored under the pointer
  rw [List.mem_range] at hi
  simp only [numRows, numCols] at hi ha
  rw [d.phys_offset (by omega), (hd.trans hdr).pageBase] at ha
  obtain ⟨hvideo, hcell⟩ := hp.pageBase (by omega) ha
  have hin := (hk hvideo).2
  rwa [if_neg (by omega)] at hin

/-- The character `ch` is output at the end of the last row. -/
def Scrolls (c : Console) (ch : UInt8) : Prop :=
  24 < c.getCursorY + 1 ∧ (ch = 10 ∨ ch = 13 ∨ 79 < c.getCursorX + 1)

/-- `ch` may be output: in the cell at the cursor, and with the screen scrolled if it is at the
end. -/
def PutcKeeps (p : Nat) (under : Option UInt8) (c : Console) (ch : UInt8) : Prop :=
  if ch = 10 ∨ ch = 13 then Scrolls c ch → ScrollKeeps p under c
  else StoreKeeps p under c c.cellAtCursor ch ∧
    (Scrolls c ch → ScrollKeeps p under (c.putCell c.cellAtCursor ch c.attrib))

theorem Overlaid.putc (h : Overlaid p under c c') (hp : OnScreen p) {ch : UInt8}
    (hk : PutcKeeps p under c ch) : Overlaid p under (c.putc ch) (c'.putc ch) := by
  simp only [Console.putc, advance, h.getCursorX, h.getCursorY, h.attrib]
  unfold PutcKeeps at hk
  by_cases hnl : ch = 10 ∨ ch = 13
  · rw [if_pos hnl] at hk ⊢
    rw [if_pos hnl]
    split
    · rename_i hlast
      exact h.shiftScreen hp (hk ⟨hlast, by tauto⟩)
    · exact h.setCursor _ _
  · rw [if_neg hnl] at hk ⊢
    rw [if_neg hnl]
    have hcell : Overlaid p under (c.putCell c.cellAtCursor ch c.attrib)
        (c'.putCell c.cellAtCursor ch c.attrib) := h.putCell hp hk.1
    split
    · rename_i hend
      split
      · rename_i hlast
        exact hcell.shiftScreen hp (hk.2 ⟨hlast, Or.inr (Or.inr hend)⟩)
      · exact hcell.setCursor _ _
    · exact hcell.setCursor _ _

theorem Overlaid.clearScreen (h : Overlaid p under c c') (hp : OnScreen p)
    (hk : ClearKeeps under c) : Overlaid p under c.clearScreen c'.clearScreen := by
  simp only [Console.clearScreen, clear, h.attrib]
  refine Overlaid.setCursor ?_ 0 0
  refine foldl_overlaid (f := fun d i => d.putCell i 32 c.attrib)
    (fun d i => putCell_drawn d _ _ _) (fun d d' i hd hi hov => hov.putCell hp fun ha => ?_) h
  rw [List.mem_range] at hi
  simp only [numRows, numCols] at hi
  rw [d.phys_offset (by omega), hd.pageBase] at ha
  exact hk (hp.pageBase (by omega) ha).1

/-! ## The display switch -/

/-- The display may change to terminal `n`: the page that is saved shows what the pointer covers,
and so does the page of `n`. -/
def SwitchKeeps (p : Nat) (under : Option UInt8) (c : Console) (n : Term) : Prop :=
  n ≠ c.curTerminal → Agrees under (c.vram p) ∧
    Agrees under (c.vram (vmemTerm n + (p - video)))

/-- The terminal that `switch_terminal` is asked for. -/
def keyTerm (keycode : Nat) : Option Term :=
  if h : (keycode + 256 - 0x3B) % 256 < 3 then some ⟨_, h⟩ else none

/-- The text pages after the display has changed to `n`. -/
def switched (cur n : Term) (v : Nat → UInt8) (a : Nat) : UInt8 :=
  if video ≤ a ∧ a < video + 0x1000 then
    if n = cur then v a else v (vmemTerm n + (a - video))
  else if vmemTerm cur ≤ a ∧ a < vmemTerm cur + 0x1000 then v (video + (a - vmemTerm cur))
  else v a

theorem memcpyPage_identity {c : Console} (hpage : c.vidmemPage = vidmemIndex) (dst src a : Nat) :
    (c.memcpyPage dst src).vram a =
      if dst ≤ a ∧ a < dst + 0x1000 then c.vram (src + (a - dst)) else c.vram a := by
  simp only [memcpyPage, phys_identity hpage]

theorem switchTerminal_vram (tpi : Option Term) (c : Console) {keycode : Nat} {n : Term}
    (hn : keyTerm keycode = some n) :
    (c.switchTerminal tpi keycode).vram = switched c.curTerminal n c.vram := by
  unfold keyTerm at hn
  split at hn
  · rename_i hlt
    have hn := Option.some.inj hn
    funext a
    simp only [switchTerminal, dif_pos hlt, setCursor_vram, hn]
    rw [apply_ite Console.vram, ite_self]
    rw [memcpyPage_identity rfl]
    simp only [memcpyPage_identity (c := { c with vidmemPage := vidmemIndex }) rfl]
    unfold switched
    by_cases hv : video ≤ a ∧ a < video + 0x1000
    · rw [if_pos hv, if_pos hv]
      by_cases hcur : n = c.curTerminal
      · rw [if_pos hcur, ← hcur, if_pos (by omega)]
        congr 1
        omega
      · have hne := Fin.val_ne_of_ne hcur
        rw [if_neg hcur, if_neg (by simp only [vmemTerm]; omega)]
    · rw [if_neg hv, if_neg hv]
  · cases hn

theorem switchTerminal_cur (tpi : Option Term) (c : Console) {keycode : Nat} {n : Term}
    (hn : keyTerm keycode = some n) : (c.switchTerminal tpi keycode).curTerminal = n := by
  unfold keyTerm at hn
  split at hn
  · rename_i hlt
    cases hn
    simp only [switchTerminal, dif_pos hlt, (setCursor_drawn _ _ _).curTerminal]
  · cases hn

theorem switchTerminal_none (tpi : Option Term) (c : Console) {keycode : Nat}
    (hn : keyTerm keycode = none) : c.switchTerminal tpi keycode = c := by
  unfold keyTerm at hn
  split at hn
  · cases hn
  · rename_i hge
    exact dif_neg hge

/-- Nothing but the text pages depends on the text pages. -/
theorem switchTerminal_withVram (tpi : Option Term) (c : Console) (v : Nat → UInt8) (keycode : Nat) :
    (c.withVram v).switchTerminal tpi keycode = (c.switchTerminal tpi keycode).withVram
      ((c.withVram v).switchTerminal tpi keycode).vram := by
  obtain ⟨_, _, idx, _⟩ := c
  unfold switchTerminal
  split
  · dsimp only
    split <;> cases idx <;> rfl
  · rfl

theorem overlay_switched {cur n : Term} {v v' : Nat → UInt8}
    (h : Overlay p under (Saved cur) v v') (hp : OnScreen p)
    (hk : n ≠ cur → Agrees under (v p) ∧ Agrees under (v (vmemTerm n + (p - video)))) :
    Overlay p under (Saved n) (switched cur n v) (switched cur n v') := by
  have hscreen : ∀ a, video ≤ a ∧ a < video + 0x1000 → ¬ Saved cur a := by
    intro a ha
    simp only [Saved, video, vmemTerm] at ha ⊢
    omega
  have hpin : video ≤ p ∧ p < video + 0x1000 := by
    obtain ⟨i, hi, rfl⟩ := hp
    simp only [numRows, numCols] at hi
    omega
  -- the page of a terminal that is not displayed is the same in both
  have hpage : n ≠ cur → ∀ a, video ≤ a ∧ a < video + 0x1000 →
      v' (vmemTerm n + (a - video)) = v (vmemTerm n + (a - video)) := by
    intro hne a ha
    have hval := Fin.val_ne_of_ne hne
    refine h.apart _ ?_ ?_
    · simp only [video, vmemTerm] at hpin ⊢
      omega
    · simp only [Saved, video, vmemTerm] at ha ⊢
      omega
  refine ⟨hp.not_saved n, fun a ha hA => ?_, ?_⟩
  · unfold switched
    by_cases hv : video ≤ a ∧ a < video + 0x1000
    · rw [if_pos hv, if_pos hv]
      by_cases hcur : n = cur
      · rw [if_pos hcur, if_pos hcur]
        exact h.apart a ha (hscreen a hv)
      · rw [if_neg hcur, if_neg hcur]
        exact hpage hcur a hv
    · rw [if_neg hv, if_neg hv]
      by_cases hs : vmemTerm cur ≤ a ∧ a < vmemTerm cur + 0x1000
      · rw [if_pos hs, if_pos hs]
        have hne : n ≠ cur := by
          rintro rfl
          exact hA hs
        have hread := h.read (a := video + (a - vmemTerm cur)) fun _ => (hk hne).1
        exact hread.resolve_right (hscreen _ (by omega))
      · rw [if_neg hs, if_neg hs]
        exact h.apart a ha hs
  · unfold switched
    rw [if_pos hpin, if_pos hpin]
    by_cases hcur : n = cur
    · rw [if_pos hcur, if_pos hcur]
      exact h.cell
    · rw [if_neg hcur, if_neg hcur, hpage hcur p hpin, (hk hcur).2.getD]

theorem Overlaid.switchTerminal (h : Overlaid p under c c') (hp : OnScreen p) (tpi : Option Term)
    {keycode : Nat} (hk : ∀ n, keyTerm keycode = some n → SwitchKeeps p under c n) :
    Overlaid p under (c.switchTerminal tpi keycode) (c'.switchTerminal tpi keycode) := by
  cases hn : keyTerm keycode with
  | none =>
    rw [switchTerminal_none tpi c hn, switchTerminal_none tpi c' hn]
    exact h
  | some n =>
    obtain ⟨v, rfl, hov⟩ := h
    refine ⟨_, switchTerminal_withVram tpi c v keycode, ?_⟩
    rw [switchTerminal_vram tpi c hn, switchTerminal_cur tpi c hn,
      switchTerminal_vram tpi (c.withVram v) hn]
    exact overlay_switched hov hp (hk n hn)

/-! ## Sequences of calls -/

/-- The call does not disturb the cell under the pointer. -/
def Call.Keeps (p : Nat) (under : Option UInt8) (c : Console) : Call → Prop
  | putc ch => PutcKeeps p under c ch
  | shiftScreen => ScrollKeeps p under c
  | clearScreen => ClearKeeps under c
  | display keycode => ∀ n, keyTerm keycode = some n → SwitchKeeps p under c n
  | _ => True

variable {tpi : Option Term}

theorem Overlaid.exec (h : Overlaid p under c c') (hp : OnScreen p) {x : Call}
    (hk : x.Keeps p under c) : Overlaid p under (x.exec tpi c) (x.exec tpi c') := by
  cases x with
  | putc ch => exact h.putc hp hk
  | shiftScreen => exact h.shiftScreen hp hk
  | clearScreen => exact h.clearScreen hp hk
  | display keycode => exact h.switchTerminal hp tpi hk
  | setCursor x y => exact h.setCursor x y
  | updateTermStruct x y =>
    exact h.map (f := fun d => d.updateTermStruct x y) (fun _ _ => rfl) rfl rfl
  | edit t f => exact h.map (f := fun d => d.editLine t f) (fun _ _ => rfl) rfl rfl
  | modifiers shft cpslock lctrl alt =>
    exact h.map (f := (Call.modifiers shft cpslock lctrl alt).exec tpi) (fun _ _ => rfl) rfl rfl
  | page n => exact h.map (f := (Call.page n).exec tpi) (fun _ _ => rfl) rfl rfl
  | aim o => exact h.map (f := (Call.aim o).exec tpi) (fun _ _ => rfl) rfl rfl

instance (p : Nat) (under : Option UInt8) (c : Console) (i : Nat) (ch : UInt8) :
    Decidable (StoreKeeps p under c i ch) :=
  inferInstanceAs (Decidable (c.phys (c.videoMem + 2 * i) = p → Agrees under ch))

instance (p : Nat) (under : Option UInt8) (c : Console) : Decidable (ScrollKeeps p under c) :=
  inferInstanceAs (Decidable (c.pageBase = video → (video + 160 ≤ p → Agrees under (c.vram p)) ∧
    Agrees under (if p < video + 3840 then c.vram (p + 160) else 32)))

instance (c : Console) (ch : UInt8) : Decidable (Scrolls c ch) :=
  inferInstanceAs (Decidable (24 < c.getCursorY + 1 ∧ (ch = 10 ∨ ch = 13 ∨ 79 < c.getCursorX + 1)))

instance (p : Nat) (under : Option UInt8) (c : Console) (ch : UInt8) :
    Decidable (PutcKeeps p under c ch) :=
  inferInstanceAs (Decidable (if ch = 10 ∨ ch = 13 then Scrolls c ch → ScrollKeeps p under c
    else StoreKeeps p under c c.cellAtCursor ch ∧
      (Scrolls c ch → ScrollKeeps p under (c.putCell c.cellAtCursor ch c.attrib))))

instance (p : Nat) (under : Option UInt8) (c : Console) (n : Term) :
    Decidable (SwitchKeeps p under c n) :=
  inferInstanceAs (Decidable (n ≠ c.curTerminal → Agrees under (c.vram p) ∧
    Agrees under (c.vram (vmemTerm n + (p - video)))))

instance (p : Nat) (under : Option UInt8) (c : Console) : ∀ x : Call, Decidable (x.Keeps p under c)
  | .putc ch => inferInstanceAs (Decidable (PutcKeeps p under c ch))
  | .shiftScreen => inferInstanceAs (Decidable (ScrollKeeps p under c))
  | .clearScreen => inferInstanceAs (Decidable (c.pageBase = video → Agrees under 32))
  | .display keycode =>
    inferInstanceAs (Decidable (∀ n, keyTerm keycode = some n → SwitchKeeps p under c n))
  | .setCursor _ _ | .updateTermStruct _ _ | .edit _ _ | .modifiers _ _ _ _ | .page _
  | .aim _ => isTrue trivial

/-- Every call of the sequence keeps the cell under the pointer. -/
def CallsKeep (tpi : Option Term) (p : Nat) (under : Option UInt8) : List Call → Console → Prop
  | [], _ => True
  | x :: calls, c => x.Keeps p under c ∧ CallsKeep tpi p under calls (x.exec tpi c)

instance decidableCallsKeep (tpi : Option Term) (p : Nat) (under : Option UInt8) :
    ∀ (calls : List Call) (c : Console), Decidable (CallsKeep tpi p under calls c)
  | [], _ => isTrue trivial
  | x :: calls, c =>
    have := decidableCallsKeep tpi p under calls (x.exec tpi c)
    inferInstanceAs (Decidable (x.Keeps p under c ∧ CallsKeep tpi p under calls (x.exec tpi c)))

theorem Overlaid.runCalls {calls : List Call} (hp : OnScreen p) :
    ∀ {c c' : Console}, Overlaid p under c c' → CallsKeep tpi p under calls c →
      Overlaid p under (runCalls tpi calls c) (runCalls tpi calls c') := by
  induction calls with
  | nil => intro c c' h _; exact h
  | cons x calls ih =>
    intro c c' h hk
    exact ih (h.exec hp hk.1) hk.2

theorem Overlaid.keyboardHandler (h : Overlaid p under c c') (hp : OnScreen p) {typing : Term → Bool}
    {status code : UInt8} (hk : CallsKeep tpi p under (c.keyCalls typing status code) c) :
    Overlaid p under (c.keyboardHandler typing tpi status code)
      (c'.keyboardHandler typing tpi status code) := by
  have hsame : c'.keyCalls typing status code = c.keyCalls typing status code := by
    obtain ⟨v, rfl, _⟩ := h
    rfl
  rw [← runCalls_keyCalls, ← runCalls_keyCalls, hsame]
  exact h.runCalls hp hk

theorem Overlaid.terminalWrite (h : Overlaid p under c c') (hp : OnScreen p) {bytes : List UInt8}
    (hk : CallsKeep tpi p under (writeCalls tpi c bytes) c) :
    Overlaid p under (c.terminalWrite tpi bytes) (c'.terminalWrite tpi bytes) := by
  have hsame : writeCalls tpi c' bytes = writeCalls tpi c bytes := by
    obtain ⟨v, rfl, _⟩ := h
    rfl
  rw [← runCalls_writeCalls, ← runCalls_writeCalls, hsame]
  exact h.runCalls hp hk

end Console
end DeviceOS
