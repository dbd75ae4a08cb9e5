import DeviceOS.BlinkTimer
import Mathlib.Data.List.GetD
import Mathlib.Data.List.Perm.Subperm

/-!
# DeviceOS.Frames

`add_frames` of `fish.c`: two text files are read side by side, and each position at which one of
them has a character becomes a structure that blinks between the two.

* `FrameFile`: what is left of a file, and the character last read; a read returns the next byte
  until the end of the file. `addFrames`: the two nested loops, at most `n` steps each.
* `charAt`: the character of a text in a row and a column. `frameCells`: the positions that blink.
* `addFrames_eq`: the loops end, and add these structures in this order.
* `frames_alternate`: the screen shows the first text for 15 ticks and the second one for 15.
-/

namespace DeviceOS

open EventSystem (run run_append run_cons)

def space : UInt8 := 32
def newline : UInt8 := 10

/-! ## The code -/

/-- `c0`, `eof0` and the rest of the file that `fd0` reads, or those of `fd1`. -/
structure FrameFile where
  c : UInt8
  eof : Bool
  rest : List UInt8

namespace FrameFile

/-- `if (c0 != '\n')`, with the `read` and the test for the end of the file. -/
def next (f : FrameFile) : FrameFile :=
  if f.c ≠ newline then
    match f.rest with
    | [] => { f with c := newline, eof := true }
    | b :: bs => { f with c := b, rest := bs }
  else f

/-- The `if (eof0)` at the end of a row. -/
def again (f : FrameFile) : FrameFile := { f with c := if f.eof then newline else 48 }

/-- The character that is shown. -/
def shown (f : FrameFile) : UInt8 := if f.c = newline then space else f.c

end FrameFile

/-- The structure that is added for a position. `int32_t` to `unsigned short`. -/
def frameStruct (row col : Nat) (onChar offChar : UInt8) : BlinkStruct where
  location := BitVec.ofNat 16 (row * 80 + col + 40)
  onChar := onChar
  offChar := offChar
  onLength := 15
  offLength := 15
  -- not set by the source, and set by `mp1_ioctl_add` before they are used
  countdown := 0
  status := 0

/-- The `while (1)` of a row. -/
def frameRow : Nat → Nat → Nat → FrameFile → FrameFile → Blinker →
    Option (FrameFile × FrameFile × Blinker)
  | 0, _, _, _, _, _ => none
  | n + 1, row, col, f₀, f₁, s =>
    let f₀ := f₀.next
    let f₁ := f₁.next
    if f₀.c = newline ∧ f₁.c = newline then some (f₀, f₁, s)
    else if (f₀.c ≠ space ∧ f₀.c ≠ newline) ∨ (f₁.c ≠ space ∧ f₁.c ≠ newline) then
      frameRow n row (col + 1) f₀ f₁ (s.mp1IoctlAdd (frameStruct row col f₀.shown f₁.shown)).2
    else frameRow n row (col + 1) f₀ f₁ s

def frameRows : Nat → Nat → Nat → FrameFile → FrameFile → Blinker → Option Blinker
  | 0, _, _, _, _, _ => none
  | n + 1, m, row, f₀, f₁, s =>
    if f₀.eof = false ∨ f₁.eof = false then
      (frameRow m row 0 f₀ f₁ s).bind fun (f₀, f₁, s) =>
        frameRows n m (row + 1) f₀.again f₁.again s
    else some s

/-- `add_frames` with two files that can be opened and read. -/
def addFrames (n : Nat) (frame₀ frame₁ : List UInt8) (s : Blinker) : Option Blinker :=
  frameRows n n 0 ⟨48, false, frame₀⟩ ⟨48, false, frame₁⟩ s

/-! ## The texts -/

def linesOf (text : List UInt8) : List (List UInt8) := text.splitOn newline

def charAt (text : List UInt8) (row col : Nat) : UInt8 :=
  ((linesOf text).getD row []).getD col space

/-- A position at which one of the texts has a character other than a space. -/
structure FrameCell where
  row : Nat
  col : Nat
  onChar : UInt8
  offChar : UInt8

def FrameCell.struct (x : FrameCell) : BlinkStruct := frameStruct x.row x.col x.onChar x.offChar

def frameCell (row col : Nat) (a b : UInt8) : Option FrameCell :=
  if a = space ∧ b = space then none else some ⟨row, col, a, b⟩

/-- The cells of a row, from column `col` on. -/
def rowCells (row col : Nat) (l₀ l₁ : List UInt8) : List FrameCell :=
  (List.range (max l₀.length l₁.length)).filterMap fun i =>
    frameCell row (col + i) (l₀.getD i space) (l₁.getD i space)

def rowsCells (row : Nat) (ls₀ ls₁ : List (List UInt8)) : List FrameCell :=
  (List.range (max ls₀.length ls₁.length)).flatMap fun i =>
    rowCells (row + i) 0 (ls₀.getD i []) (ls₁.getD i [])

def frameCells (frame₀ frame₁ : List UInt8) : List FrameCell :=
  rowsCells 0 (linesOf frame₀) (linesOf frame₁)

def addCells (s : Blinker) (xs : List FrameCell) : Blinker :=
  xs.foldl (fun s x => (s.mp1IoctlAdd x.struct).2) s

theorem addCells_append (s : Blinker) (xs ys : List FrameCell) :
    addCells s (xs ++ ys) = addCells (addCells s xs) ys := List.foldl_append

theorem getD_zero_tail {α : Type} (l : List α) (d : α) :
    l.getD 0 d = l.headD d ∧ ∀ i, l.getD (i + 1) d = l.tail.getD i d := by
  cases l <;> simp

theorem max_length_tail {α : Type} {l₀ l₁ : List α} (h : ¬ (l₀ = [] ∧ l₁ = [])) :
    max l₀.length l₁.length = max l₀.tail.length l₁.tail.length + 1 := by
  cases l₀ with
  | nil =>
    cases l₁ with
    | nil => exact absurd ⟨rfl, rfl⟩ h
    | cons b l₁ => simp
  | cons a l₀ => cases l₁ <;> simp

theorem rowCells_step {row col : Nat} {l₀ l₁ : List UInt8} (h : ¬ (l₀ = [] ∧ l₁ = [])) :
    rowCells row col l₀ l₁ = (frameCell row col (l₀.headD space) (l₁.headD space)).toList ++
      rowCells row (col + 1) l₀.tail l₁.tail := by
  have hrest : ((fun i => frameCell row (col + i) (l₀.getD i space) (l₁.getD i space)) ∘ Nat.succ) =
      fun i => frameCell row (col + 1 + i) (l₀.tail.getD i space) (l₁.tail.getD i space) := by
    funext i
    simp only [Function.comp, Nat.succ_eq_add_one, (getD_zero_tail l₀ space).2,
      (getD_zero_tail l₁ space).2]
    rw [Nat.add_assoc, Nat.add_comm 1 i]
  unfold rowCells
  rw [max_length_tail h, List.range_succ_eq_map, List.filterMap_cons, List.filterMap_map, hrest,
    Nat.add_zero, (getD_zero_tail l₀ space).1, (getD_zero_tail l₁ space).1]
  cases frameCell row col (l₀.headD space) (l₁.headD space) <;> rfl

theorem rowsCells_step {row : Nat} {ls₀ ls₁ : List (List UInt8)} (h : ¬ (ls₀ = [] ∧ ls₁ = [])) :
    rowsCells row ls₀ ls₁ = rowCells row 0 (ls₀.headD []) (ls₁.headD []) ++
      rowsCells (row + 1) ls₀.tail ls₁.tail := by
  have hrest : (fun i => rowCells (row + (i + 1)) 0 (ls₀.getD (i + 1) []) (ls₁.getD (i + 1) [])) =
      fun i => rowCells (row + 1 + i) 0 (ls₀.tail.getD i []) (ls₁.tail.getD i []) := by
    funext i
    rw [(getD_zero_tail ls₀ []).2, (getD_zero_tail ls₁ []).2, Nat.add_assoc, Nat.add_comm 1 i]
  unfold rowsCells
  rw [max_length_tail h, List.range_succ_eq_map, List.flatMap_cons, List.flatMap_map, hrest,
    Nat.add_zero, (getD_zero_tail ls₀ []).1, (getD_zero_tail ls₁ []).1]

/-! ## One row -/

namespace FrameFile

variable {f : FrameFile}

/-- What is left of the row. -/
def line (f : FrameFile) : List UInt8 :=
  if f.c = newline then [] else (linesOf f.rest).headD []

/-- The rows below. -/
def below (f : FrameFile) : List (List UInt8) :=
  if f.c = newline then (if f.eof then [] else linesOf f.rest) else (linesOf f.rest).tail

/-- At the end of the file the row is over. -/
def Ended (f : FrameFile) : Prop := f.eof = true → f.c = newline

theorem linesOf_nil : linesOf [] = [[]] := rfl

theorem linesOf_cons (b : UInt8) (bs : List UInt8) :
    linesOf (b :: bs) = if b = newline then [] :: linesOf bs
      else (linesOf bs).modifyHead (List.cons b) := by
  unfold linesOf List.splitOn
  rw [List.splitOnP_cons_eq_if_modifyHead]
  simp

theorem linesOf_ne_nil (bs : List UInt8) : linesOf bs ≠ [] := List.splitOnP_ne_nil _ _

/-- One read: a character of the row, or its end. -/
structure Reads (f : FrameFile) : Prop where
  ended : f.next.Ended
  line : f.next.line = f.line.tail
  below : f.next.below = f.below
  newline_iff : f.next.c = newline ↔ f.line = []
  shown : f.next.shown = f.line.headD space

theorem Ended.next (h : f.Ended) : f.Reads := by
  by_cases hc : f.c = newline
  · have hsame : f.next = f := if_neg (not_not.mpr hc)
    have hline : f.line = [] := if_pos hc
    refine ⟨?_, ?_, ?_, ?_, ?_⟩
    · rwa [hsame]
    · rw [hsame, hline]
      rfl
    · rw [hsame]
    · rw [hsame, hline]
      exact ⟨fun _ => rfl, fun _ => hc⟩
    · rw [hsame, hline, FrameFile.shown, if_pos hc]
      rfl
  · have hnext : f.next = match f.rest with
        | [] => { f with c := newline, eof := true }
        | b :: bs => { f with c := b, rest := bs } := if_pos hc
    have heof : f.eof = false := by
      by_contra he
      exact hc (h (by simpa using he))
    cases hrest : f.rest with
    | nil =>
      simp only [hrest] at hnext
      have hline : f.line = [] := by simp [FrameFile.line, hc, hrest, linesOf_nil]
      refine ⟨?_, ?_, ?_, ?_, ?_⟩
      · rw [hnext]
        exact fun _ => rfl
      · rw [hnext, hline]
        rfl
      · rw [hnext]
        simp [FrameFile.below, hc, hrest, linesOf_nil]
      · rw [hnext, hline]
        exact ⟨fun _ => rfl, fun _ => rfl⟩
      · rw [hnext, hline]
        rfl
    | cons b bs =>
      simp only [hrest] at hnext
      have hended : f.next.Ended := by
        rw [hnext]
        intro he
        simp [heof] at he
      by_cases hb : b = newline
      · have hline : f.line = [] := by simp [FrameFile.line, hc, hrest, linesOf_cons, hb]
        refine ⟨hended, ?_, ?_, ?_, ?_⟩
        · rw [hnext, hline]
          simp [FrameFile.line, hb]
        · rw [hnext]
          simp [FrameFile.below, hc, hrest, linesOf_cons, hb, heof]
        · rw [hnext, hline]
          exact ⟨fun _ => rfl, fun _ => hb⟩
        · rw [hnext, hline]
          simp [FrameFile.shown, hb]
      · obtain ⟨l, ls, hls⟩ := List.exists_cons_of_ne_nil (linesOf_ne_nil bs)
        have hline : f.line = b :: l := by simp [FrameFile.line, hc, hrest, linesOf_cons, hb, hls]
        refine ⟨hended, ?_, ?_, ?_, ?_⟩
        · rw [hnext, hline]
          simp [FrameFile.line, hb, hls]
        · rw [hnext]
          simp [FrameFile.below, hc, hrest, linesOf_cons, hb, hls]
        · rw [hnext, hline]
          simp [hb]
        · rw [hnext, hline]
          simp [FrameFile.shown, hb]

/-- The first character of the next row has not been read. -/
theorem again_spec (hc : f.c = newline) :
    f.again.Ended ∧ f.again.line = f.below.headD [] ∧ f.again.below = f.below.tail ∧
      (f.eof = true ↔ f.below = []) := by
  have h48 : ¬ (48 : UInt8) = newline := by decide
  cases he : f.eof with
  | true => simp [Ended, again, FrameFile.line, FrameFile.below, hc, he]
  | false => simp [Ended, again, FrameFile.line, FrameFile.below, hc, he, h48, linesOf_ne_nil]

variable {f₀ f₁ : FrameFile}

/-- A position is added when one of the characters is no space. -/
theorem frameCell_shown (row col : Nat) (f₀ f₁ : FrameFile) :
    ((f₀.c ≠ space ∧ f₀.c ≠ newline) ∨ (f₁.c ≠ space ∧ f₁.c ≠ newline) →
      frameCell row col f₀.shown f₁.shown = some ⟨row, col, f₀.shown, f₁.shown⟩) ∧
    (¬ ((f₀.c ≠ space ∧ f₀.c ≠ newline) ∨ (f₁.c ≠ space ∧ f₁.c ≠ newline)) →
      frameCell row col f₀.shown f₁.shown = none) := by
  have hshown : ∀ f : FrameFile, f.shown = space ↔ ¬ (f.c ≠ space ∧ f.c ≠ newline) := by
    intro f
    unfold FrameFile.shown
    split
    · rename_i hc
      simp [hc]
    · rename_i hc
      simp [hc]
  have hboth : f₀.shown = space ∧ f₁.shown = space ↔
      ¬ ((f₀.c ≠ space ∧ f₀.c ≠ newline) ∨ (f₁.c ≠ space ∧ f₁.c ≠ newline)) := by
    rw [hshown f₀, hshown f₁, ← not_or]
  constructor
  · intro h
    exact if_neg fun hs => hboth.mp hs h
  · intro h
    exact if_pos (hboth.mpr h)

/-- The loop of a row ends, and adds the cells of the row. -/
theorem frameRow_eq (row : Nat) : ∀ {n col : Nat} {f₀ f₁ : FrameFile} {s : Blinker},
    f₀.Ended → f₁.Ended → max f₀.line.length f₁.line.length < n →
      ∃ g₀ g₁, frameRow n row col f₀ f₁ s =
          some (g₀, g₁, addCells s (rowCells row col f₀.line f₁.line)) ∧
        (g₀.c = newline ∧ g₀.below = f₀.below) ∧ g₁.c = newline ∧ g₁.below = f₁.below := by
  intro n
  induction n with
  | zero => intro col f₀ f₁ s _ _ hn; omega
  | succ n ih =>
    intro col f₀ f₁ s h₀ h₁ hn
    have hr₀ := h₀.next
    have hr₁ := h₁.next
    rw [frameRow]
    by_cases hover : f₀.next.c = newline ∧ f₁.next.c = newline
    · rw [if_pos hover, hr₀.newline_iff.mp hover.1, hr₁.newline_iff.mp hover.2]
      exact ⟨_, _, rfl, ⟨hover.1, hr₀.below⟩, hover.2, hr₁.below⟩
    · have hlines : ¬ (f₀.line = [] ∧ f₁.line = []) := by
        rwa [← hr₀.newline_iff, ← hr₁.newline_iff]
      have hlen := max_length_tail hlines
      have hnext := fun s => @ih (col + 1) f₀.next f₁.next s hr₀.ended hr₁.ended
        (by rw [hr₀.line, hr₁.line]; omega)
      rw [if_neg hover, rowCells_step hlines, ← hr₀.shown, ← hr₁.shown, ← hr₀.line, ← hr₁.line,
        ← hr₀.below, ← hr₁.below]
      obtain ⟨hyes, hno⟩ := frameCell_shown row col f₀.next f₁.next
      by_cases hadd : (f₀.next.c ≠ space ∧ f₀.next.c ≠ newline) ∨
          (f₁.next.c ≠ space ∧ f₁.next.c ≠ newline)
      · rw [if_pos hadd, hyes hadd]
        exact hnext _
      · rw [if_neg hadd, hno hadd]
        exact hnext s

/-- The rows that are left when a row begins. -/
def rows (f : FrameFile) : List (List UInt8) := if f.eof then [] else f.line :: f.below

theorem Ended.rows (h : f.Ended) : f.line = f.rows.headD [] ∧ f.below = f.rows.tail := by
  unfold FrameFile.rows
  cases he : f.eof with
  | true => simp [FrameFile.line, FrameFile.below, h he, he]
  | false => simp

theorem again_rows (hc : f.c = newline) : f.again.Ended ∧ f.again.rows = f.below := by
  obtain ⟨hended, hline, hbelow, heof⟩ := again_spec hc
  refine ⟨hended, ?_⟩
  have hsame : f.again.eof = f.eof := rfl
  unfold rows
  rw [hsame, hline, hbelow]
  cases hb : f.below with
  | nil => rw [if_pos (heof.mpr hb)]
  | cons l ls =>
    have he : ¬ f.eof = true := by
      rw [heof, hb]
      simp
    rw [if_neg he]
    rfl

/-- All rows. -/
theorem frameRows_eq (m : Nat) : ∀ {n row : Nat} {f₀ f₁ : FrameFile} {s : Blinker},
    f₀.Ended → f₁.Ended → max f₀.rows.length f₁.rows.length < n →
      (∀ l, l ∈ f₀.rows ∨ l ∈ f₁.rows → l.length < m) → 0 < m →
        frameRows n m row f₀ f₁ s = some (addCells s (rowsCells row f₀.rows f₁.rows)) := by
  intro n
  induction n with
  | zero => intro row f₀ f₁ s _ _ hn; omega
  | succ n ih =>
    intro row f₀ f₁ s h₀ h₁ hn hm hpos
    have heof : (f₀.eof = false ∨ f₁.eof = false) ↔ ¬ (f₀.rows = [] ∧ f₁.rows = []) := by
      unfold rows
      cases f₀.eof <;> cases f₁.eof <;> simp
    have hline : ∀ {f : FrameFile}, f.Ended → (∀ l ∈ f.rows, l.length < m) → f.line.length < m := by
      intro f hf hl
      rw [hf.rows.1]
      cases hrows : f.rows with
      | nil => exact hpos
      | cons l ls =>
        rw [hrows] at hl
        exact hl l (by simp)
    rw [frameRows]
    by_cases hdone : f₀.rows = [] ∧ f₁.rows = []
    · rw [if_neg fun h => heof.mp h hdone, hdone.1, hdone.2]
      rfl
    · obtain ⟨g₀, g₁, hrow, ⟨hc₀, hb₀⟩, hc₁, hb₁⟩ := @frameRow_eq row m 0 f₀ f₁ s h₀ h₁
        (max_lt (hline h₀ fun l hl => hm l (Or.inl hl)) (hline h₁ fun l hl => hm l (Or.inr hl)))
      obtain ⟨ha₀, hr₀⟩ := again_rows hc₀
      obtain ⟨ha₁, hr₁⟩ := again_rows hc₁
      rw [hb₀, h₀.rows.2] at hr₀
      rw [hb₁, h₁.rows.2] at hr₁
      have hlen := max_length_tail hdone
      rw [if_pos (heof.mpr hdone), hrow, Option.bind_some, rowsCells_step hdone, addCells_append,
        ← h₀.rows.1, ← h₁.rows.1, ← hr₀, ← hr₁]
      refine ih ha₀ ha₁ (by rw [hr₀, hr₁]; omega) (fun l hl => hm l ?_) hpos
      rw [hr₀, hr₁] at hl
      exact hl.imp List.mem_of_mem_tail List.mem_of_mem_tail

end FrameFile

/-- The text has fewer than `n` rows, and each row fewer than `n` characters. -/
def Within (n : Nat) (text : List UInt8) : Prop :=
  (linesOf text).length < n ∧ ∀ l ∈ linesOf text, l.length < n

/-- `add_frames` ends, and has added the cells. -/
theorem addFrames_eq {n : Nat} {frame₀ frame₁ : List UInt8} (h₀ : Within n frame₀)
    (h₁ : Within n frame₁) (s : Blinker) :
    addFrames n frame₀ frame₁ s = some (addCells s (frameCells frame₀ frame₁)) := by
  have hstart : ∀ text, (⟨48, false, text⟩ : FrameFile).Ended ∧
      (⟨48, false, text⟩ : FrameFile).rows = linesOf text := by
    intro text
    have h48 : ¬ (48 : UInt8) = newline := by decide
    obtain ⟨l, ls, hls⟩ := List.exists_cons_of_ne_nil (FrameFile.linesOf_ne_nil text)
    simp [FrameFile.Ended, FrameFile.rows, FrameFile.line, FrameFile.below, h48, hls]
  have hrows := @FrameFile.frameRows_eq n n 0 _ _ s (hstart frame₀).1 (hstart frame₁).1
  rw [(hstart frame₀).2, (hstart frame₁).2] at hrows
  refine hrows (max_lt h₀.1 h₁.1) (fun l hl => ?_) (by have := h₀.1; omega)
  rcases hl with hl | hl
  · exact h₀.2 l hl
  · exact h₁.2 l hl

/-! ## On the screen -/

theorem mem_frameCells {frame₀ frame₁ : List UInt8} {row col : Nat}
    (h : ¬ (charAt frame₀ row col = space ∧ charAt frame₁ row col = space)) :
    ⟨row, col, charAt frame₀ row col, charAt frame₁ row col⟩ ∈ frameCells frame₀ frame₁ := by
  have hend : ∀ text, (linesOf text).length ≤ row ∨ ((linesOf text).getD row []).length ≤ col →
      charAt text row col = space := by
    rintro text (hle | hle)
    · rw [charAt, List.getD_eq_default _ _ hle]
      rfl
    · exact List.getD_eq_default _ _ hle
  have hrow : row < max (linesOf frame₀).length (linesOf frame₁).length := by
    by_contra hge
    exact h ⟨hend _ (Or.inl (by omega)), hend _ (Or.inl (by omega))⟩
  have hcol : col < max ((linesOf frame₀).getD row []).length
      ((linesOf frame₁).getD row []).length := by
    by_contra hge
    exact h ⟨hend _ (Or.inr (by omega)), hend _ (Or.inr (by omega))⟩
  refine List.mem_flatMap.mpr ⟨row, List.mem_range.mpr hrow, ?_⟩
  refine List.mem_filterMap.mpr ⟨col, List.mem_range.mpr hcol, ?_⟩
  rw [Nat.zero_add, Nat.zero_add]
  exact if_neg h

/-- The cells of one row are in different columns, all of them in a text. -/
theorem rowCells_spec (row : Nat) (l₀ l₁ : List UInt8) :
    (rowCells row 0 l₀ l₁).Pairwise (fun x y => x.col < y.col) ∧
      ∀ x ∈ rowCells row 0 l₀ l₁, x.row = row ∧ x.col < max l₀.length l₁.length := by
  have hcell : ∀ {col a b x}, frameCell row col a b = some x → x.row = row ∧ x.col = col := by
    intro col a b x h
    unfold frameCell at h
    split at h
    · cases h
    · cases h
      exact ⟨rfl, rfl⟩
  constructor
  · refine List.pairwise_filterMap.mpr (List.pairwise_lt_range.imp ?_)
    intro i j hij x hx y hy
    rw [(hcell hx).2, (hcell hy).2]
    omega
  · intro x hx
    obtain ⟨i, hi, hx⟩ := List.mem_filterMap.mp hx
    rw [List.mem_range] at hi
    rw [(hcell hx).1, (hcell hx).2]
    exact ⟨rfl, by omega⟩

/-- The texts fit on the screen, to the right of column 40 of the first row. A row has at most 80
characters. -/
structure FitsScreen (frame₀ frame₁ : List UInt8) : Prop where
  width : ∀ l, l ∈ linesOf frame₀ ∨ l ∈ linesOf frame₁ → l.length ≤ 80
  location : ∀ x ∈ frameCells frame₀ frame₁, x.row * 80 + x.col + 40 < 2000

variable {frame₀ frame₁ : List UInt8}

theorem struct_location {x : FrameCell} (h : x.row * 80 + x.col + 40 < 2000) :
    x.struct.location.toNat = x.row * 80 + x.col + 40 := by
  have hloc : x.struct.location = BitVec.ofNat 16 (x.row * 80 + x.col + 40) := rfl
  rw [hloc, BitVec.toNat_ofNat, Nat.mod_eq_of_lt (by omega)]

/-- Different cells are at different locations. -/
theorem FitsScreen.pairwise (h : FitsScreen frame₀ frame₁) :
    (frameCells frame₀ frame₁).Pairwise fun x y => x.struct.location ≠ y.struct.location := by
  have hline : ∀ text, (∀ l ∈ linesOf text, l.length ≤ 80) → ∀ i,
      ((linesOf text).getD i []).length ≤ 80 := by
    intro text hl i
    by_cases hi : i < (linesOf text).length
    · rw [List.getD_eq_getElem _ _ hi]
      exact hl _ (List.getElem_mem hi)
    · rw [List.getD_eq_default _ _ (by omega)]
      exact Nat.zero_le _
  have hcol : ∀ i, ∀ x ∈ rowCells (0 + i) 0 ((linesOf frame₀).getD i []) ((linesOf frame₁).getD i []),
      x.row = i ∧ x.col < 80 := by
    intro i x hx
    obtain ⟨hrow, hlt⟩ := (rowCells_spec _ _ _).2 x hx
    have h0 := hline frame₀ (fun l hl => h.width l (Or.inl hl)) i
    have h1 := hline frame₁ (fun l hl => h.width l (Or.inr hl)) i
    exact ⟨by omega, by omega⟩
  have hordered : (frameCells frame₀ frame₁).Pairwise fun x y =>
      x.row * 80 + x.col < y.row * 80 + y.col := by
    refine List.pairwise_flatMap.mpr ⟨fun i _ => ?_, List.pairwise_lt_range.imp ?_⟩
    · refine (rowCells_spec _ _ _).1.imp_of_mem fun {x y} hx hy hxy => ?_
      have := (hcol i x hx).1
      have := (hcol i y hy).1
      omega
    · intro i j hij x hx y hy
      have := hcol i x hx
      have := hcol j y hy
      omega
  refine hordered.imp_of_mem fun {x y} hx hy hxy heq => ?_
  have hloc := congrArg BitVec.toNat heq
  rw [struct_location (h.location x hx), struct_location (h.location y hy)] at hloc
  omega

/-- There is an element of the array for each cell. -/
theorem FitsScreen.length_le (h : FitsScreen frame₀ frame₁) :
    (frameCells frame₀ frame₁).length ≤ 2000 := by
  have hnodup : ((frameCells frame₀ frame₁).map fun x => x.struct.location.toNat).Nodup := by
    rw [List.nodup_iff_pairwise_ne, List.pairwise_map]
    refine h.pairwise.imp ?_
    intro x y hxy heq
    exact hxy (BitVec.eq_of_toNat_eq heq)
  have hsub : ((frameCells frame₀ frame₁).map fun x => x.struct.location.toNat) ⊆
      List.range 2000 := by
    intro k hk
    obtain ⟨x, hx, rfl⟩ := List.mem_map.mp hk
    have hlt := h.location x hx
    rw [List.mem_range, struct_location hlt]
    exact hlt
  simpa using (List.subperm_of_subset hnodup hsub).length_le

namespace Blinker

variable {n : Nat}

/-- Adding cells as a run of calls. -/
theorem run_add (n : Nat) (xs : List FrameCell) (s : Blinker) :
    run (step n) s (xs.map fun x => .add x.struct) = some (addCells s xs) := by
  induction xs generalizing s with
  | nil => rfl
  | cons x xs ih => exact run_cons.mpr ⟨(s.mp1IoctlAdd x.struct).2, rfl, ih _⟩

/-- The list holds nothing but the cells that were added. -/
theorem run_add_list (hn : 2000 < n) : ∀ {xs : List FrameCell} {s : Blinker} {a : Blinks},
    s.Represents a → (∀ x ∈ xs, x.struct.location ≠ 0) →
      ∃ a', (addCells s xs).Represents a' ∧ a'.list.length ≤ a.list.length + xs.length ∧
        ∀ b ∈ a'.list, b ∈ a.list ∨ ∃ x ∈ xs, b.location = x.struct.location := by
  intro xs
  induction xs with
  | nil => exact fun {s a} h _ => ⟨a, h, le_refl _, fun b hb => Or.inl hb⟩
  | cons x xs ih =>
    intro s a h h0
    obtain ⟨s1, hcall, h1⟩ := h.call (c := .add x.struct) hn (h0 x (by simp))
    have hadd : s.call n (.add x.struct) =
      some (⟨(s.mp1IoctlAdd x.struct).1, none⟩, (s.mp1IoctlAdd x.struct).2) := rfl
    obtain rfl : (s.mp1IoctlAdd x.struct).2 = s1 :=
      congrArg Prod.snd (Option.some.inj (hadd.symm.trans hcall))
    obtain ⟨a', ha', hlen, hall⟩ := ih h1 fun y hy => h0 y (List.mem_cons_of_mem _ hy)
    refine ⟨a', ha', ?_, fun b hb => ?_⟩
    · refine hlen.trans ?_
      rw [Blinks.call]
      split
      · simp only [List.length_cons]
        omega
      · simp only [List.length_cons]
        omega
    · rcases hall b hb with hb | ⟨y, hy, hloc⟩
      · rw [Blinks.call] at hb
        split at hb
        · exact Or.inl hb
        · rcases List.mem_cons.mp hb with rfl | hb
          · exact Or.inr ⟨x, by simp, rfl⟩
          · exact Or.inl hb
      · exact Or.inr ⟨y, List.mem_cons_of_mem _ hy, hloc⟩

/-- `add_frames` on an empty list, and then `t` ticks among calls that leave a position alone at
which one of the texts has a character: the screen shows the character of the first text for 15
ticks, that of the second one for 15, and so on. -/
theorem frames_alternate (n : Nat) (hn : 2000 < n) (s : Blinker) (hs : s.Start)
    (frame₀ frame₁ : List UInt8) (h₀ : Within n frame₀) (h₁ : Within n frame₁)
    (hfit : FitsScreen frame₀ frame₁) (row col : Nat)
    (hcell : ¬ (charAt frame₀ row col = space ∧ charAt frame₁ row col = space))
    (cs : List BlinkCall)
    (hcs : ∀ c ∈ cs, c.Keeps (BitVec.ofNat 16 (row * 80 + col + 40)) ∧ c.Placed) :
    ∃ s₁ s', addFrames n frame₀ frame₁ s = some s₁ ∧ run (step n) s₁ cs = some s' ∧
      s'.vmem (2 * (row * 80 + col + 40)) =
        if cs.countP BlinkCall.isTasklet % 30 < 15 then charAt frame₀ row col
        else charAt frame₁ row col := by
  obtain ⟨before, after, hsplit⟩ := List.append_of_mem (mem_frameCells hcell)
  let x : FrameCell := ⟨row, col, charAt frame₀ row col, charAt frame₁ row col⟩
  have hloc := fun y (hy : y ∈ frameCells frame₀ frame₁) => struct_location (hfit.location y hy)
  have hne : ∀ y ∈ frameCells frame₀ frame₁, y.struct.location ≠ 0 := by
    intro y hy h0
    have := hloc y hy
    rw [h0] at this
    simp at this
  have hpair := hfit.pairwise
  rw [hsplit] at hpair hloc hne
  obtain ⟨_, hafter, hbefore⟩ := List.pairwise_append.mp hpair
  have hx := hloc x (by simp [x])
  have hlt := hfit.location x (by rw [hsplit]; simp [x])
  -- the cells before this one
  have hstart : s.Represents ⟨[], s.vmem⟩ := ListStart.represents (s := (s, _)) ⟨hs, rfl⟩
  obtain ⟨a, ha, hlen, hlist⟩ := @run_add_list n hn before s _ hstart
    fun y hy => hne y (by simp [hy])
  have hnew : ∀ b ∈ a.list, b.location ≠ x.struct.location := by
    intro b hb
    rcases hlist b hb with hb | ⟨y, hy, hloc⟩
    · cases hb
    · rw [hloc]
      exact hbefore y hy x (by simp [x])
  have hroom : a.list.length < 2000 := by
    have := hfit.length_le
    rw [hsplit] at this
    simp only [List.length_append, List.length_cons, List.length_nil] at this hlen
    omega
  -- this cell, the ones after it, and the other calls
  have hrest : ∀ c ∈ after.map (fun y => BlinkCall.add y.struct) ++ cs,
      c.Keeps x.struct.location ∧ c.Placed := by
    intro c hc
    rcases List.mem_append.mp hc with hc | hc
    · obtain ⟨y, hy, rfl⟩ := List.mem_map.mp hc
      exact ⟨((List.pairwise_cons.mp hafter).1 y hy).symm, hne y (by simp [hy])⟩
    · exact hcs c hc
  obtain ⟨s', hrun, hscreen⟩ := character_blinks n hn _ a ha hroom x.struct
    ⟨show 0 < 15 by omega, show 15 < 2 ^ 15 by omega, show 0 < 15 by omega,
      show 15 < 2 ^ 15 by omega⟩ (hne x (by simp [x])) (by omega) hnew _ hrest
  have hticks : (after.map fun y => BlinkCall.add y.struct).countP BlinkCall.isTasklet = 0 := by
    rw [List.countP_eq_zero]
    intro c hc
    obtain ⟨y, _, rfl⟩ := List.mem_map.mp hc
    simp [BlinkCall.isTasklet]
  rw [BlinkStruct.offset, hx, List.countP_append, hticks, Nat.zero_add] at hscreen
  obtain ⟨s₀, hadd, hrun⟩ := run_cons.mp hrun
  obtain ⟨s₁, hadds, hrun⟩ := run_append.mp hrun
  refine ⟨s₁, s', ?_, hrun, hscreen⟩
  obtain rfl : ((addCells s before).mp1IoctlAdd x.struct).2 = s₀ := Option.some.inj hadd
  rw [addFrames_eq h₀ h₁, hsplit, addCells_append]
  exact (run_add n after _).symm.trans hadds

/-- `A` and, in the second text, `B` in the row below: after 16 ticks the `A` is gone. -/
theorem frames_alternate_sixteen : ∃ s₁ s', addFrames 2001 [65] [10, 66] still = some s₁ ∧
    run (step 2001) s₁ (List.replicate 16 .tasklet) = some s' ∧ s'.vmem 80 = 32 := by
  have hlines : ∀ l, l ∈ linesOf [65] ∨ l ∈ linesOf [10, 66] → l.length ≤ 80 := by
    rintro l (hl | hl)
    · revert l
      decide
    · revert l
      decide
  refine frames_alternate 2001 (by decide) still ⟨fun _ => rfl, rfl⟩ [65] [10, 66]
    ⟨by decide, fun l hl => ?_⟩ ⟨by decide, fun l hl => ?_⟩ ⟨hlines, by decide⟩ 0 0 (by decide) _
    fun c hc => ?_
  · exact Nat.lt_of_le_of_lt (hlines l (Or.inl hl)) (by decide)
  · exact Nat.lt_of_le_of_lt (hlines l (Or.inr hl)) (by decide)
  · obtain rfl := List.eq_of_mem_replicate hc
    exact ⟨trivial, trivial⟩

end Blinker
end DeviceOS
