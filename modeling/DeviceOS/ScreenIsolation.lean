import DeviceOS.TextPages

/-!
# DeviceOS.ScreenIsolation

The three terminals, each with a screen of its own, out of one video page and three saved ones.

* `Console.screen c t`: the screen of terminal `t`, wherever its text is kept.
* `Views c ss`: the screens are `ss`. `terminalWrite_views`, `putc_views`,
  `switchTerminal_views`: output goes to one of them, and switching changes none.
* `screens_isolated`: after any sequence of output and switching, the screen of a terminal is its
  first screen after the output for that terminal alone.
-/

namespace DeviceOS
namespace Console

open TextScreen

/-- The page that keeps the text of `t`: video memory while `t` is displayed. -/
def pageOf (c : Console) (t : Term) : Nat :=
  vmemArray (if t = c.curTerminal then none else some t)

def screen (c : Console) (t : Term) : TextScreen where
  cells r k := c.cellsAt (c.pageOf t) (index 79 r.val k.val)
  row := Fin.ofNat 25 (c.terminalStruct t).cursorY
  col := Fin.ofNat 80 (c.terminalStruct t).cursorX

def CursorsInside (c : Console) : Prop :=
  ∀ t, (c.terminalStruct t).cursorX < numCols ∧ (c.terminalStruct t).cursorY < numRows

structure Shows (c : Console) (t : Term) (s : TextScreen) : Prop where
  laid : Laid (c.cellsAt (c.pageOf t)) s
  row : (c.terminalStruct t).cursorY = s.row.val
  col : (c.terminalStruct t).cursorX = s.col.val

/-- The screens of the three terminals. `write_term_idx` never names the displayed terminal. -/
structure Views (c : Console) (ss : Term → TextScreen) : Prop where
  vidmapped : c.vidmapped = false
  aimed : ∀ t, c.writeTermIdx = some t → t ≠ c.curTerminal
  shown : ∀ t, Shows c t (ss t)

/-- Output of `chs` to terminal `t`. -/
def feed (ss : Term → TextScreen) (t : Term) (chs : List UInt8) : Term → TextScreen :=
  Function.update ss t (chs.foldl (screenPutc (attribArray t)) (ss t))

variable {c c' : Console} {t u : Term} {s : TextScreen} {ss : Term → TextScreen}

theorem screen_shown (h : CursorsInside c) (t : Term) : Shows c t (c.screen t) where
  laid _ _ := rfl
  row := (Nat.mod_eq_of_lt (h t).2).symm
  col := (Nat.mod_eq_of_lt (h t).1).symm

theorem Shows.screen_eq (h : Shows c t s) : c.screen t = s := by
  ext1
  · funext r k
    exact h.laid r k
  · apply Fin.ext
    simp only [screen, h.row]
    exact Nat.mod_eq_of_lt s.row.isLt
  · apply Fin.ext
    simp only [screen, h.col]
    exact Nat.mod_eq_of_lt s.col.isLt

theorem Views.screen_eq (h : Views c ss) : c.screen = ss := by
  funext t
  exact (h.shown t).screen_eq

theorem Views.cursorsInside (h : Views c ss) : CursorsInside c := by
  intro t
  have hs := h.shown t
  rw [hs.row, hs.col]
  exact ⟨(ss t).col.isLt, (ss t).row.isLt⟩

theorem feed_nil (ss : Term → TextScreen) (t : Term) : feed ss t [] = ss :=
  Function.update_eq_self t ss

theorem feed_cons (ss : Term → TextScreen) (t : Term) (ch : UInt8) (chs : List UInt8) :
    feed ss t (ch :: chs) = feed (feed ss t [ch]) t chs := by
  unfold feed
  rw [Function.update_idem, Function.update_self]
  rfl

theorem feed_apply (ss : Term → TextScreen) (u t : Term) (chs : List UInt8) :
    feed ss u chs t = (if u = t then chs else []).foldl (screenPutc (attribArray t)) (ss t) := by
  unfold feed
  by_cases hut : u = t
  · subst hut
    rw [if_pos rfl, Function.update_self]
  · rw [if_neg hut, Function.update_of_ne (Ne.symm hut)]
    rfl

/-! ## Output -/

theorem Views.pageOf_target (h : Views c ss) : c.pageOf c.target = c.videoMem := by
  unfold pageOf target
  rw [videoMem_eq]
  cases hw : c.writeTermIdx with
  | none => rw [Option.getD_none, if_pos rfl]
  | some t => rw [Option.getD_some, if_neg (h.aimed t hw)]

theorem pageOf_far (ht : t ≠ c.target) :
    c.pageOf t + 0x1000 ≤ c.videoMem ∨ c.videoMem + 0x1000 ≤ c.pageOf t := by
  rw [videoMem_eq]
  apply vmemArray_far
  cases hw : c.writeTermIdx with
  | none =>
    have hcur : t ≠ c.curTerminal := by
      intro heq
      apply ht
      rw [target, hw]
      exact heq
    rw [if_neg hcur]
    exact Option.some_ne_none t
  | some u =>
    have hu : t ≠ u := by
      intro heq
      apply ht
      rw [target, hw]
      exact heq
    split
    · exact (Option.some_ne_none u).symm
    · exact fun heq => hu (Option.some.inj heq)

theorem Drawn.pageOf (h : Drawn c c') (t : Term) : c'.pageOf t = c.pageOf t := by
  unfold Console.pageOf
  rw [h.curTerminal]

/-- Output leaves the other two screens alone. -/
theorem Confined.shows (h : Confined c c') (hv : Views c ss) (ht : t ≠ c.target) :
    Shows c' t (ss t) := by
  have hs := hv.shown t
  refine ⟨?_, ?_, ?_⟩
  · rw [h.drawn.pageOf]
    refine hs.laid.congr fun i hi => ?_
    have hfar := pageOf_far ht
    unfold cellsAt
    rw [h.vram _ (by omega), h.vram _ (by omega)]
  · rw [h.others t ht]
    exact hs.row
  · rw [h.others t ht]
    exact hs.col

theorem putc_views (h : Views c ss) (ch : UInt8) :
    Views (c.putc ch) (feed ss c.target [ch]) := by
  have hs := h.shown c.target
  have hd := putc_drawn c ch
  have hlaid := hs.laid
  rw [h.pageOf_target] at hlaid
  have hto := putc_targetShows h.vidmapped ⟨hlaid, hs.row, hs.col⟩ ch
  have hcon : Confined c (c.putc ch) :=
    putc_confined h.vidmapped (h.cursorsInside c.target).1 (h.cursorsInside c.target).2 ch
  refine ⟨hd.vidmapped.trans h.vidmapped, ?_, fun t => ?_⟩
  · rw [hd.writeTermIdx, hd.curTerminal]
    exact h.aimed
  · by_cases ht : t = c.target
    · subst ht
      rw [feed, Function.update_self]
      refine ⟨?_, ?_, ?_⟩
      · rw [hd.pageOf, h.pageOf_target, ← hd.videoMem]
        exact hto.laid
      · have hrow := hto.row
        rwa [getCursorY, hd.target] at hrow
      · have hcol := hto.col
        rwa [getCursorX, hd.target] at hcol
    · rw [feed, Function.update_of_ne ht]
      exact hcon.shows h ht

/-- The loop of `terminal_write`, which skips NUL. -/
theorem writeLoop_views (bytes : List UInt8) : ∀ {c : Console} {ss : Term → TextScreen},
    Views c ss → Views (bytes.foldl (fun d b => if b = 0 then d else d.putc b) c)
      (feed ss c.target (bytes.filter (· ≠ 0))) := by
  induction bytes with
  | nil =>
    intro c ss h
    rw [List.filter_nil, feed_nil]
    exact h
  | cons b bytes ih =>
    intro c ss h
    rw [List.foldl_cons]
    by_cases hb : b = 0
    · rw [if_pos hb, List.filter_cons_of_neg (by simp [hb])]
      exact ih h
    · rw [if_neg hb, List.filter_cons_of_pos (by simp [hb]), feed_cons]
      have h1 := ih (putc_views h b)
      rwa [(putc_drawn c b).target] at h1

/-- `write_term_idx` says where output goes, not where the screens are kept. -/
theorem Views.aim (h : Views c ss) {o : Option Term} (ho : ∀ t, o = some t → t ≠ c.curTerminal) :
    Views { c with writeTermIdx := o } ss :=
  ⟨h.vidmapped, ho, fun t => ⟨(h.shown t).laid, (h.shown t).row, (h.shown t).col⟩⟩

theorem terminalWrite_views (h : Views c ss) (hw : c.writeTermIdx = none) (u : Term)
    (bytes : List UInt8) :
    Views (c.terminalWrite (some u) bytes) (feed ss u (bytes.filter (· ≠ 0))) := by
  unfold terminalWrite
  dsimp only
  have hnone : ∀ (d : Console) (t : Term), none = some t → t ≠ d.curTerminal := by
    intro d t heq
    cases heq
  by_cases hu : u = c.curTerminal
  · rw [if_neg (by simp [hu])]
    have h1 := writeLoop_views bytes h
    have htarget : c.target = u := by
      rw [target, hw, hu]
      rfl
    rw [htarget] at h1
    exact h1.aim (hnone _)
  · rw [if_pos (by simp [hu])]
    have haim : ∀ t, some u = some t → t ≠ c.curTerminal := by
      intro t heq
      rwa [← Option.some.inj heq]
    exact (writeLoop_views bytes (h.aim haim)).aim (hnone _)

/-! ## Switching -/

theorem memcpyPage_vram (hv : c.vidmapped = false) (dst src a : Nat) :
    (c.memcpyPage dst src).vram a =
      if dst ≤ a ∧ a < dst + 0x1000 then c.vram (src + (a - dst)) else c.vram a := by
  unfold memcpyPage
  rw [phys_eq hv, phys_eq hv]

theorem memcpyPage_cells (hv : c.vidmapped = false) (dst src : Nat) {i : Nat} (hi : i < 2000) :
    (c.memcpyPage dst src).cellsAt dst i = c.cellsAt src i := by
  unfold cellsAt
  rw [memcpyPage_vram hv, memcpyPage_vram hv, if_pos (by omega), if_pos (by omega)]
  congr 2 <;> omega

theorem memcpyPage_cells_of_far (hv : c.vidmapped = false) {dst p : Nat} (src : Nat)
    (hp : p + 0x1000 ≤ dst ∨ dst + 0x1000 ≤ p) {i : Nat} (hi : i < 2000) :
    (c.memcpyPage dst src).cellsAt p i = c.cellsAt p i := by
  unfold cellsAt
  rw [memcpyPage_vram hv, memcpyPage_vram hv, if_neg (by omega), if_neg (by omega)]

/-- Once the displayed page is saved, every terminal's text is in its own page. -/
theorem saved_cells (hv : c.vidmapped = false) (t : Term) {i : Nat} (hi : i < 2000) :
    (c.memcpyPage (vmemTerm c.curTerminal) video).cellsAt (vmemTerm t) i =
      c.cellsAt (c.pageOf t) i := by
  unfold pageOf
  by_cases ht : t = c.curTerminal
  · rw [if_pos ht, ht]
    exact memcpyPage_cells hv _ _ hi
  · rw [if_neg ht]
    exact memcpyPage_cells_of_far hv _
      (vmemArray_far (fun heq : some t = some c.curTerminal => ht (Option.some.inj heq))) hi

/-- The two copies of `switch_terminal` move every text to the page that it has next. -/
theorem swapped_cells (hv : c.vidmapped = false) (n t : Term) {i : Nat} (hi : i < 2000) :
    ((c.memcpyPage (vmemTerm c.curTerminal) video).memcpyPage video (vmemTerm n)).cellsAt
      (vmemArray (if t = n then none else some t)) i = c.cellsAt (c.pageOf t) i := by
  have hv1 : (c.memcpyPage (vmemTerm c.curTerminal) video).vidmapped = false := hv
  rw [← saved_cells hv t hi]
  by_cases ht : t = n
  · rw [if_pos ht, ht]
    exact memcpyPage_cells hv1 _ _ hi
  · rw [if_neg ht]
    exact memcpyPage_cells_of_far hv1 _ (vmemArray_far (Option.some_ne_none t)) hi

/-- `switch_terminal` sets the cursor of the new terminal to where it is. -/
theorem switchTerminal_terminalStruct (hw : c.writeTermIdx = none)
    (hb : ∀ t, (c.terminalStruct t).cursorX < 256 ∧ (c.terminalStruct t).cursorY < 256)
    (tpi : Option Term) (keycode : Nat) :
    (c.switchTerminal tpi keycode).terminalStruct = c.terminalStruct := by
  unfold switchTerminal
  split
  · rename_i hk
    dsimp only
    rw [setCursor_terminalStruct]
    split <;>
    · simp only [target, memcpyPage, hw, Option.getD_none,
        Nat.mod_eq_of_lt (hb ⟨(keycode + 256 - 0x3B) % 256, hk⟩).1,
        Nat.mod_eq_of_lt (hb ⟨(keycode + 256 - 0x3B) % 256, hk⟩).2]
      exact Function.update_eq_self ..
  · rfl

/-- The terminal that a function key displays. -/
def displayedBy (cur : Term) (keycode : Nat) : Term :=
  if h : (keycode + 256 - 0x3B) % 256 < 3 then ⟨(keycode + 256 - 0x3B) % 256, h⟩ else cur

theorem switchTerminal_writeTermIdx (tpi : Option Term) (c : Console) (keycode : Nat) :
    (c.switchTerminal tpi keycode).writeTermIdx = c.writeTermIdx := by
  unfold switchTerminal
  dsimp only
  split
  · rw [(setCursor_drawn _ _ _).writeTermIdx]
    split <;> rfl
  · rfl

theorem switchTerminal_displayed (tpi : Option Term) (c : Console) (keycode : Nat) :
    (c.switchTerminal tpi keycode).curTerminal = displayedBy c.curTerminal keycode := by
  unfold switchTerminal displayedBy
  dsimp only
  split
  · rw [(setCursor_drawn _ _ _).curTerminal]
  · rfl

/-- What `switch_terminal` does to the state that the screens depend on. -/
theorem switchTerminal_spec (h : Views c ss) (hw : c.writeTermIdx = none) (tpi : Option Term)
    {keycode : Nat} (hk : (keycode + 256 - 0x3B) % 256 < 3) :
    (c.switchTerminal tpi keycode).vidmapped = false ∧
    (c.switchTerminal tpi keycode).terminalStruct = c.terminalStruct ∧
    ∀ t, ∀ i < 2000, (c.switchTerminal tpi keycode).cellsAt
      ((c.switchTerminal tpi keycode).pageOf t) i = c.cellsAt (c.pageOf t) i := by
  let n : Term := ⟨(keycode + 256 - 0x3B) % 256, hk⟩
  let c1 := { c with vidmemPage := vidmemIndex }
  let c3 := (c1.memcpyPage (vmemTerm c.curTerminal) video).memcpyPage video (vmemTerm n)
  let c5 := { (if tpi ≠ some n then { c3 with vidmemPage := termPage tpi } else c3) with
    curTerminal := n }
  have hc5 : c5.vidmapped = false ∧ c5.vram = c3.vram := by
    dsimp only [c5]
    split <;> exact ⟨h.vidmapped, rfl⟩
  obtain ⟨hv5, hvram⟩ := hc5
  have heq : c.switchTerminal tpi keycode =
      c5.setCursor (c.terminalStruct n).cursorX (c.terminalStruct n).cursorY := by
    unfold switchTerminal
    rw [dif_pos hk]
  have hin : ∀ u, (c.terminalStruct u).cursorX < 256 ∧ (c.terminalStruct u).cursorY < 256 := by
    intro u
    have hu := h.cursorsInside u
    simp only [numCols, numRows] at hu
    omega
  refine ⟨?_, switchTerminal_terminalStruct hw hin tpi keycode, fun t i hi => ?_⟩
  · rw [heq]
    exact (setCursor_drawn _ _ _).vidmapped.trans hv5
  · rw [heq, (setCursor_drawn _ _ _).pageOf]
    unfold cellsAt
    rw [setCursor_vram, hvram]
    exact swapped_cells (c := c1) h.vidmapped n t hi

theorem switchTerminal_views (h : Views c ss) (hw : c.writeTermIdx = none) (tpi : Option Term)
    (keycode : Nat) : Views (c.switchTerminal tpi keycode) ss := by
  by_cases hk : (keycode + 256 - 0x3B) % 256 < 3
  · obtain ⟨hv, hstruct, hcells⟩ := switchTerminal_spec h hw tpi hk
    refine ⟨hv, ?_, fun t => ?_⟩
    · intro u hu
      rw [switchTerminal_writeTermIdx, hw] at hu
      cases hu
    · have hs := h.shown t
      refine ⟨hs.laid.congr fun i hi => hcells t i hi, ?_, ?_⟩
      · rw [hstruct]
        exact hs.row
      · rw [hstruct]
        exact hs.col
  · have heq : c.switchTerminal tpi keycode = c := by
      unfold switchTerminal
      rw [dif_neg hk]
    rw [heq]
    exact h

/-! ## Runs -/

/-- `terminal_write` by a process of terminal `t`, echo of a key, and `switch_terminal` while
`terminal_process_index` is `tpi`. -/
inductive ScreenOp where
  | write (t : Term) (bytes : List UInt8)
  | echo (ch : UInt8)
  | switch (tpi : Option Term) (keycode : Nat)

def screenStep (c : Console) : ScreenOp → Console
  | .write t bytes => c.terminalWrite (some t) bytes
  | .echo ch => c.putc ch
  | .switch tpi keycode => c.switchTerminal tpi keycode

/-- The characters that one operation outputs for `t` while `cur` is displayed. -/
def outputOf (t cur : Term) : ScreenOp → List UInt8
  | .write u bytes => if u = t then bytes.filter (· ≠ 0) else []
  | .echo ch => if cur = t then [ch] else []
  | .switch _ _ => []

def displayedAfter (cur : Term) : ScreenOp → Term
  | .switch _ keycode => displayedBy cur keycode
  | _ => cur

/-- The characters that are output for `t`, in order. -/
def outputTo (t : Term) : Term → List ScreenOp → List UInt8
  | _, [] => []
  | cur, op :: ops => outputOf t cur op ++ outputTo t (displayedAfter cur op) ops

theorem screenStep_state (hw : c.writeTermIdx = none) (op : ScreenOp) :
    (screenStep c op).writeTermIdx = none ∧
    (screenStep c op).curTerminal = displayedAfter c.curTerminal op := by
  cases op with
  | write t bytes => exact ⟨rfl, (terminalWrite_drawn (some t) c bytes).curTerminal⟩
  | echo ch =>
    have hd := putc_drawn c ch
    exact ⟨hd.writeTermIdx.trans hw, hd.curTerminal⟩
  | switch tpi keycode =>
    exact ⟨(switchTerminal_writeTermIdx tpi c keycode).trans hw,
      switchTerminal_displayed tpi c keycode⟩

/-- One operation: each screen gets the output that is for it. -/
theorem screenStep_views (h : Views c ss) (hw : c.writeTermIdx = none) (op : ScreenOp) :
    Views (screenStep c op) fun t =>
      (outputOf t c.curTerminal op).foldl (screenPutc (attribArray t)) (ss t) := by
  cases op with
  | write u bytes =>
    have h1 := terminalWrite_views h hw u bytes
    have heq : feed ss u (bytes.filter (· ≠ 0)) = fun t =>
        (outputOf t c.curTerminal (.write u bytes)).foldl (screenPutc (attribArray t)) (ss t) := by
      funext t
      exact feed_apply ss u t _
    rwa [heq] at h1
  | echo ch =>
    have h1 := putc_views h ch
    have htarget : c.target = c.curTerminal := by
      rw [target, hw]
      rfl
    have heq : feed ss c.target [ch] = fun t =>
        (outputOf t c.curTerminal (.echo ch)).foldl (screenPutc (attribArray t)) (ss t) := by
      funext t
      rw [htarget]
      exact feed_apply ss c.curTerminal t [ch]
    rwa [heq] at h1
  | switch tpi keycode => exact switchTerminal_views h hw tpi keycode

theorem run_views (ops : List ScreenOp) : ∀ {c : Console} {ss : Term → TextScreen},
    Views c ss → c.writeTermIdx = none →
      (ops.foldl screenStep c).writeTermIdx = none ∧
      Views (ops.foldl screenStep c) fun t =>
        (outputTo t c.curTerminal ops).foldl (screenPutc (attribArray t)) (ss t) := by
  induction ops with
  | nil =>
    intro c ss h hw
    exact ⟨hw, h⟩
  | cons op ops ih =>
    intro c ss h hw
    obtain ⟨hw1, hcur⟩ := screenStep_state hw op
    have hrest := ih (screenStep_views h hw op) hw1
    rw [hcur] at hrest
    simp only [outputTo, List.foldl_cons, List.foldl_append]
    exact hrest

/-- Each terminal has a screen of its own: it is made by the output for that terminal, whatever
is output for the others and whichever is displayed, and switching changes none. -/
theorem screens_isolated (c : Console) (hv : c.vidmapped = false) (hw : c.writeTermIdx = none)
    (hc : CursorsInside c) (ops : List ScreenOp) :
    CursorsInside (ops.foldl screenStep c) ∧
    (∀ t, (ops.foldl screenStep c).screen t =
      (outputTo t c.curTerminal ops).foldl (screenPutc (attribArray t)) (c.screen t)) ∧
    ∀ tpi keycode, ((ops.foldl screenStep c).switchTerminal tpi keycode).screen =
      (ops.foldl screenStep c).screen := by
  have hviews : Views c c.screen := by
    refine ⟨hv, ?_, screen_shown hc⟩
    intro t ht
    rw [hw] at ht
    cases ht
  obtain ⟨hw', h'⟩ := run_views ops hviews hw
  refine ⟨h'.cursorsInside, fun t => congrFun h'.screen_eq t, fun tpi keycode => ?_⟩
  rw [(switchTerminal_views h' hw' tpi keycode).screen_eq, h'.screen_eq]

/-- A process of the second terminal writes `hi`, `x` is typed on the first one, the second one is
displayed, and `!` is typed. -/
theorem screens_isolated_typed :
    let c := [ScreenOp.write 1 [104, 105], .echo 120, .switch (some 0) 0x3C, .echo 33].foldl
      screenStep Machine.booted.kern.con
    (c.screen 0).cells 0 0 = (120, 0xB) ∧ (c.screen 1).cells 0 0 = (104, 0xD) ∧
    (c.screen 1).cells 0 1 = (105, 0xD) ∧ (c.screen 1).cells 0 2 = (33, 0xD) := by
  have hinside : CursorsInside Machine.booted.kern.con := fun _ =>
    ⟨by simp only [Machine.booted, numCols]; omega, by simp only [Machine.booted, numRows]; omega⟩
  obtain ⟨_, h, _⟩ := screens_isolated Machine.booted.kern.con rfl rfl hinside
    [.write 1 [104, 105], .echo 120, .switch (some 0) 0x3C, .echo 33]
  dsimp only
  rw [h 0, h 1]
  exact ⟨rfl, rfl, rfl, rfl⟩

end Console
end DeviceOS
