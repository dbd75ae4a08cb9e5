import Mathlib.Data.Nat.SuccPred
import DeviceOS.LineEditor
import DeviceOS.LineRead

/-!
# DeviceOS.History

The arrow keys and the history: rows 1 to 9 are the lines that `terminal_read` has kept of those that
the shell has read, the last one first, and row 0 is the draft.

* `Browsed s p s'`: `s'` is `s` with row `p` on the line. One arrow moves `p` by one, or not at all
  at either end.
* `browsing_back`: as many arrows down as up give the line back.
* `Histories`: the lines that the shell has read, for each terminal, as it got them and as they were
  kept. `Remembers`: the rows are the last nine that were kept, in every reachable state.
* `recall_iff`: the arrow up stops before an empty line, so it brings a line back exactly when none of
  the later ones is empty and the call that read it had copied the line as it was (`LineCurrent`), or
  when the row that it stops at holds the same bytes.
-/

namespace DeviceOS

open EventSystem (Reach run withHistory)

/-- A buffer and a length. -/
abbrev Line := (Nat → UInt8) × Nat

/-- The bytes of a line. -/
def Line.text (l : Line) : List UInt8 := (List.range l.2).map l.1

theorem Line.text_length (l : Line) : l.text.length = l.2 := by simp [text]

namespace Terminal

def line (s : Terminal) : Line := (s.keyboardBuf, s.keyboardIdx)

/-- A row of the history; row 0 is the line that is being edited. -/
def row (s : Terminal) (k : Nat) : Line :=
  if k = 0 then s.line else (s.commandBuf k, s.commandIdx k)

end Terminal

/-- `s'` shows row `p` of `s`, and keeps the others. -/
structure Browsed (s : Terminal) (p : Nat) (s' : Terminal) : Prop where
  pos : s'.commandPos = p
  line : s'.line = s.row p
  rows : ∀ k, 0 < k → s'.commandBuf k = s.commandBuf k ∧ s'.commandIdx k = s.commandIdx k
  draft : 0 < p → (s'.commandBuf 0, s'.commandIdx 0) = s.line

namespace Terminal

/-- Where one arrow up leads from row `p`. -/
def nextUp (s : Terminal) (p : Nat) : Nat := if p < 9 ∧ s.commandIdx (p + 1) ≠ 0 then p + 1 else p

/-- Where `j` arrows up lead from the draft. -/
def climb (s : Terminal) (j : Nat) : Nat := s.nextUp^[j] 0

theorem climb_succ (s : Terminal) (j : Nat) : s.climb (j + 1) = s.nextUp (s.climb j) :=
  Function.iterate_succ_apply' s.nextUp j 0

theorem nextUp_le (s : Terminal) {p : Nat} (h : p ≤ 9) : s.nextUp p ≤ 9 := by
  unfold nextUp
  split <;> omega

theorem climb_le (s : Terminal) (j : Nat) : s.climb j ≤ j := by
  induction j with
  | zero => exact le_refl 0
  | succ j ih =>
    rw [climb_succ, nextUp]
    split <;> omega

/-- The climb passes rows that are not empty, and stops before one that is. -/
theorem climb_rows (s : Terminal) (j : Nat) :
    (∀ k, 0 < k → k ≤ s.climb j → s.commandIdx k ≠ 0) ∧
      (s.climb j < j → s.climb j < 9 → s.commandIdx (s.climb j + 1) = 0) := by
  induction j with
  | zero => exact ⟨fun k h1 h2 => absurd (Nat.lt_of_lt_of_le h1 h2) (lt_irrefl 0), by simp⟩
  | succ j ih =>
    obtain ⟨hrows, hstop⟩ := ih
    rw [climb_succ, nextUp]
    split
    · rename_i hgo
      refine ⟨fun k h1 h2 => ?_, fun hlt h9 => ?_⟩
      · rcases Nat.lt_or_eq_of_le h2 with h2 | rfl
        · exact hrows k h1 (by omega)
        · exact hgo.2
      · exact absurd (hstop (by omega) hgo.1) hgo.2
    · rename_i hstay
      refine ⟨hrows, fun _ h9 => ?_⟩
      by_contra hne
      exact hstay ⟨h9, hne⟩

end Terminal

namespace Browsed

variable {s s' s'' : Terminal} {p : Nat}

theorem start (h : s.commandPos = 0) : Browsed s 0 s :=
  ⟨h, rfl, fun _ _ => ⟨rfl, rfl⟩, fun h0 => absurd h0 (lt_irrefl 0)⟩

theorem sameLine (h : Browsed s p s') (hs : SameLine s' s'') : Browsed s p s'' := by
  refine ⟨hs.commandPos.trans h.pos, ?_, fun k hk => ?_, fun hp => ?_⟩
  · rw [← h.line]
    simp only [Terminal.line, hs.keyboardBuf, hs.keyboardIdx]
  · rw [hs.commandBuf, hs.commandIdx]
    exact h.rows k hk
  · rw [hs.commandBuf, hs.commandIdx]
    exact h.draft hp

theorem clearFlag (h : Browsed s p s') : Browsed s p s'.clearFlag :=
  ⟨h.pos, h.line, h.rows, h.draft⟩

/-- Once the draft is stored, every row is one of the history. -/
theorem stored (h : Browsed s p s') (hp : 0 < p) (k : Nat) :
    (s'.commandBuf k, s'.commandIdx k) = s.row k := by
  by_cases hk : k = 0
  · subst hk
    exact h.draft hp
  · obtain ⟨hbuf, hidx⟩ := h.rows k (Nat.pos_of_ne_zero hk)
    rw [Terminal.row, if_neg hk, hbuf, hidx]

theorem showRow (h : Browsed s p s') (hp : 0 < p) (k : Nat) : Browsed s k (s'.showRow k) :=
  ⟨rfl, h.stored hp k, h.rows, fun _ => h.draft hp⟩

theorem saveDraft (h : Browsed s 0 s') : Browsed s 1 (s'.saveDraft.showRow 1) := by
  have hrows : ∀ k, 0 < k → s'.saveDraft.commandBuf k = s.commandBuf k ∧
      s'.saveDraft.commandIdx k = s.commandIdx k := by
    intro k hk
    have hne : k ≠ 0 := by omega
    simp only [Terminal.saveDraft, Function.update_of_ne hne]
    exact h.rows k hk
  obtain ⟨hbuf, hidx⟩ := hrows 1 Nat.one_pos
  refine ⟨rfl, ?_, hrows, fun _ => ?_⟩
  · rw [Terminal.row, if_neg (by decide), ← hbuf, ← hidx]
    rfl
  · simp only [Terminal.showRow, Terminal.saveDraft, Function.update_self]
    exact h.line

theorem up (h : Browsed s p s') (hmax : p ≤ 9) :
    Browsed s (s.nextUp p) s'.up := by
  obtain ⟨_, hidx⟩ := h.rows (p + 1) (Nat.succ_pos p)
  simp only [Terminal.up, Terminal.nextUp, h.pos, hidx]
  by_cases hp : 9 ≤ p
  · have h9 : p = 9 := by omega
    subst h9
    rw [if_pos hp, if_neg (by omega)]
    exact ⟨rfl, h.line, h.rows, h.draft⟩
  · by_cases h0 : s.commandIdx (p + 1) = 0
    · rw [if_neg hp, if_pos h0, if_neg (fun hc => hc.2 h0)]
      exact h
    · rw [if_neg hp, if_neg h0, if_pos ⟨by omega, h0⟩, Terminal.older, h.pos]
      split
      · rename_i hp0
        subst hp0
        exact h.saveDraft
      · rename_i hp0
        exact h.showRow (Nat.pos_of_ne_zero hp0) (p + 1)

theorem down (h : Browsed s p s') : Browsed s p.pred s'.down := by
  simp only [Terminal.down, h.pos]
  split
  · rename_i h0
    subst h0
    exact h
  · rename_i h0
    rw [Terminal.newer, h.pos]
    exact h.showRow (Nat.pos_of_ne_zero h0) (p - 1)

end Browsed

namespace Console

variable (typing : Term → Bool) (tpi : Option Term)

/-- `keyboard_handler` runs for one interrupt after another: status and scan code. -/
def pressKeys (typing : Term → Bool) (tpi : Option Term) (keys : List (UInt8 × UInt8))
    (c : Console) : Console :=
  keys.foldl (fun d key => d.keyboardHandler typing tpi key.1 key.2) c

/-- The key with the code `arrow` is pressed `j` times, with releases of keys in between. -/
inductive Presses (arrow : UInt8) : Nat → List (UInt8 × UInt8) → Prop
  | nil : Presses arrow 0 []
  | press {j : Nat} {keys : List (UInt8 × UInt8)} {status : UInt8} : status ≠ 0 →
      Presses arrow j keys → Presses arrow (j + 1) ((status, arrow) :: keys)
  | release {j : Nat} {keys : List (UInt8 × UInt8)} {status code : UInt8} : 0x80 ≤ code.toNat →
      Presses arrow j keys → Presses arrow j ((status, code) :: keys)

/-- A key that is released only clears the flag. -/
theorem keyboardHandler_release (c : Console) (status : UInt8) {code : UInt8}
    (hcode : 0x80 ≤ code.toNat) :
    SameLine (c.terminalStruct c.curTerminal)
        ((c.keyboardHandler typing tpi status code).terminalStruct c.curTerminal) ∨
      SameLine (c.terminalStruct c.curTerminal).clearFlag
        ((c.keyboardHandler typing tpi status code).terminalStruct c.curTerminal) := by
  by_cases hs : status = 0
  · subst hs
    exact Or.inl (.refl _)
  · obtain ⟨s', hedit, hsame⟩ := keyboardHandler_line typing tpi c hs code
    refine Or.inr ?_
    cases hedit with
    | kept => exact hsame
    | typed _ hlt => omega
    | erased he => omega
    | oldest he => omega
    | older _ he => omega
    | newer _ he => omega
    | entered _ he => omega

theorem keyboardHandler_displayed (c : Console) (status : UInt8) {code : UInt8}
    (hcode : code.toNat < 0x3B ∨ 0x3E ≤ code.toNat) :
    (c.keyboardHandler typing tpi status code).curTerminal = c.curTerminal := by
  by_cases hs : status = 0
  · subst hs
    rfl
  · rw [(keyboardHandler_page typing tpi c hs code).2, switchTarget_of_lt c hcode]
    rfl

/-- What the arrow does to the position, and the releases do not undo, `j` presses do `j` times. -/
theorem presses_browsed {arrow : UInt8} {s : Terminal} {move : Nat → Nat} (ok : Nat → Prop)
    (harrow : arrow.toNat < 0x3B ∨ 0x3E ≤ arrow.toNat) (hok : ∀ p, ok p → ok (move p))
    (hmove : ∀ (c : Console) (status : UInt8) (p : Nat), status ≠ 0 →
      typing c.curTerminal = true → ok p → Browsed s p (c.terminalStruct c.curTerminal) →
      Browsed s (move p)
        ((c.keyboardHandler typing tpi status arrow).terminalStruct c.curTerminal))
    {j : Nat} {keys : List (UInt8 × UInt8)} (h : Presses arrow j keys) :
    ∀ (c : Console) (p : Nat), typing c.curTerminal = true → ok p →
      Browsed s p (c.terminalStruct c.curTerminal) →
      (pressKeys typing tpi keys c).curTerminal = c.curTerminal ∧
        Browsed s (move^[j] p) ((pressKeys typing tpi keys c).terminalStruct c.curTerminal) := by
  induction h with
  | nil => intro c p _ _ hb; exact ⟨rfl, hb⟩
  | @press j keys status hs _ ih =>
    intro c p hty hp hb
    have hcur := keyboardHandler_displayed typing tpi c status harrow
    obtain ⟨hc, hb⟩ := ih (c.keyboardHandler typing tpi status arrow) (move p)
      (by rw [hcur, hty]) (hok p hp) (by rw [hcur]; exact hmove c status p hs hty hp hb)
    rw [hcur] at hc hb
    exact ⟨hc, hb⟩
  | @release j keys status code hcode _ ih =>
    intro c p hty hp hb
    have hcur := keyboardHandler_displayed typing tpi c status
      (Or.inr (show 0x3E ≤ code.toNat by omega))
    have hkept : Browsed s p
        ((c.keyboardHandler typing tpi status code).terminalStruct c.curTerminal) := by
      rcases keyboardHandler_release typing tpi c status hcode with hsame | hsame
      · exact hb.sameLine hsame
      · exact hb.clearFlag.sameLine hsame
    obtain ⟨hc, hb⟩ := ih (c.keyboardHandler typing tpi status code) p (by rw [hcur, hty]) hp
      (by rw [hcur]; exact hkept)
    rw [hcur] at hc hb
    exact ⟨hc, hb⟩

theorem presses_up {c : Console} (hty : typing c.curTerminal = true)
    (hpos : (c.terminalStruct c.curTerminal).commandPos = 0) {j : Nat} {keys : List (UInt8 × UInt8)}
    (h : Presses 0x48 j keys) :
    (pressKeys typing tpi keys c).curTerminal = c.curTerminal ∧
      Browsed (c.terminalStruct c.curTerminal) ((c.terminalStruct c.curTerminal).climb j)
        ((pressKeys typing tpi keys c).terminalStruct c.curTerminal) := by
  refine presses_browsed typing tpi (fun p => p ≤ 9) (Or.inr (by decide))
    (fun p => Terminal.nextUp_le _) (fun d status p hs hty hp hb => ?_) h c 0 hty (Nat.zero_le 9)
    (.start hpos)
  exact (hb.clearFlag.up hp).sameLine (keyboardHandler_up typing tpi d hs hty)

theorem presses_down {c : Console} (hty : typing c.curTerminal = true) {s : Terminal} {p : Nat}
    (hb : Browsed s p (c.terminalStruct c.curTerminal)) {j : Nat} {keys : List (UInt8 × UInt8)}
    (h : Presses 0x50 j keys) :
    Browsed s (p - j) ((pressKeys typing tpi keys c).terminalStruct c.curTerminal) := by
  rw [← Nat.pred_iterate]
  refine (presses_browsed typing tpi (fun _ => True) (Or.inr (by decide)) (fun _ _ => trivial)
    (fun d status p hs hty _ hb => ?_) h c p hty trivial hb).2
  exact hb.clearFlag.down.sameLine (keyboardHandler_down typing tpi d hs hty)

/-- `j` arrows up and `j` arrows down give back the line, whatever the history is: down goes to the
draft from any row that `j` arrows up can reach. -/
theorem browsing_back (c : Console) (hty : typing c.curTerminal = true)
    (hpos : (c.terminalStruct c.curTerminal).commandPos = 0) (j : Nat)
    (ups downs : List (UInt8 × UInt8)) (hu : Presses 0x48 j ups) (hd : Presses 0x50 j downs) :
    let s := c.terminalStruct c.curTerminal
    let s' := (pressKeys typing tpi (ups ++ downs) c).terminalStruct c.curTerminal
    s'.keyboardBuf = s.keyboardBuf ∧ s'.keyboardIdx = s.keyboardIdx ∧
      s'.commandPos = s.commandPos := by
  obtain ⟨hcur, hb⟩ := presses_up typing tpi hty hpos hu
  have hback := presses_down typing tpi (c := pressKeys typing tpi ups c) (by rw [hcur, hty])
    (by rw [hcur]; exact hb) hd
  have hle := (c.terminalStruct c.curTerminal).climb_le j
  rw [hcur, Nat.sub_eq_zero_of_le hle] at hback
  have hline := hback.line
  simp only [Terminal.line, Terminal.row, if_true, Prod.mk.injEq] at hline
  simp only [pressKeys, List.foldl_append] at hback hline ⊢
  exact ⟨hline.1, hline.2, hback.pos.trans hpos.symm⟩

/-- A draft of one character and a history of one line, of two. -/
def oneRow : Console :=
  { Machine.booted.kern.con with
    terminalStruct := fun t =>
      { Machine.booted.kern.con.terminalStruct t with
        keyboardBuf := fun j => if j = 0 then 98 else 0
        keyboardIdx := 1
        commandBuf := fun k j => if k = 1 ∧ j < 2 then 97 else 0
        commandIdx := fun k => if k = 1 then 2 else 0 } }

/-- Two arrows up, of which the second finds no row, and two arrows down. -/
theorem browsing_back_two :
    let s' := (pressKeys (fun _ => true) none
      ([(1, 0x48), (1, 0xC8), (1, 0x48)] ++ [(1, 0x50), (1, 0x50)]) oneRow).terminalStruct 0
    s'.keyboardIdx = 1 ∧ s'.keyboardBuf 0 = 98 := by
  have hu : Presses 0x48 2 [(1, 0x48), (1, 0xC8), (1, 0x48)] :=
    .press (by decide) (.release (by decide) (.press (by decide) .nil))
  have hd : Presses 0x50 2 [(1, 0x50), (1, 0x50)] :=
    .press (by decide) (.press (by decide) .nil)
  obtain ⟨hbuf, hidx, _⟩ := browsing_back (fun _ => true) none oneRow rfl rfl 2 _ _ hu hd
  have hcur : oneRow.curTerminal = 0 := rfl
  rw [hcur] at hbuf hidx
  exact ⟨hidx.trans rfl, (congrFun hbuf 0).trans rfl⟩

end Console

/-! ## The lines that the shell has read -/

/-- The rows 1 to 9 after the history has taken the line. -/
theorem Terminal.pushHistory_row (s : Terminal) {k : Nat} (hk : k < 9) :
    s.pushHistory.commandBuf (k + 1) = (if k = 0 then s.keyboardBuf else s.commandBuf k) ∧
      s.pushHistory.commandIdx (k + 1) = if k = 0 then s.keyboardIdx else s.commandIdx k := by
  match k, hk with
  | 0, _ | 1, _ | 2, _ | 3, _ | 4, _ | 5, _ | 6, _ | 7, _ | 8, _ => exact ⟨rfl, rfl⟩

/-- Line `i`, the last one being line 0; there are empty ones after the first. -/
def lineAt (lines : List Line) (i : Nat) : Line := lines.getD i (fun _ => 0, 0)

/-- The rows of the history are the last nine lines. -/
def Remembers (lines : List Line) (s : Terminal) : Prop :=
  ∀ i, i < 9 → (s.commandBuf (i + 1), s.commandIdx (i + 1)) = lineAt lines i

namespace Remembers

variable {lines : List Line} {s s' : Terminal}

theorem rows (h : Remembers lines s)
    (hrows : ∀ k, 0 < k → s'.commandBuf k = s.commandBuf k ∧ s'.commandIdx k = s.commandIdx k) :
    Remembers lines s' := by
  intro i hi
  obtain ⟨hbuf, hidx⟩ := hrows (i + 1) (Nat.succ_pos i)
  rw [hbuf, hidx]
  exact h i hi

theorem finishRead (h : Remembers lines s) (shell : Bool) :
    Remembers (if shell then s.line :: lines else lines) (s.finishRead shell) := by
  cases shell with
  | false => exact h
  | true =>
    intro i hi
    obtain ⟨hbuf, hidx⟩ := s.pushHistory_row hi
    show (s.pushHistory.commandBuf (i + 1), s.pushHistory.commandIdx (i + 1)) = _
    rw [hbuf, hidx]
    cases i with
    | zero => rfl
    | succ i => exact h i (by omega)

theorem sameLine (h : Remembers lines s) (hs : SameLine s s') : Remembers lines s' :=
  h.rows fun k _ => ⟨congrFun hs.commandBuf k, congrFun hs.commandIdx k⟩

/-- Editing changes no row but the draft. -/
theorem lineEdit (h : Remembers lines s) {typing : Bool} {ch : UInt8} {code : Nat}
    (he : Console.LineEdit typing ch code s s') : Remembers lines s' := by
  have hdraft : ∀ (buf : Nat → UInt8) (n k : Nat), 0 < k →
      Function.update s.commandBuf 0 buf k = s.commandBuf k ∧
        Function.update s.commandIdx 0 n k = s.commandIdx k := by
    intro buf n k hk
    have hne : k ≠ 0 := by omega
    exact ⟨Function.update_of_ne hne .., Function.update_of_ne hne ..⟩
  cases he with
  | kept => exact h
  | typed => exact h
  | erased => exact h.rows (hdraft _ _)
  | oldest => exact h
  | older =>
    refine h.rows ?_
    simp only [Terminal.older]
    split
    · exact hdraft _ _
    · exact fun _ _ => ⟨rfl, rfl⟩
  | newer => exact h
  | entered => exact h

end Remembers

/-- A line that the shell has read: the bytes that its call got, without the newline, and the
terminal and the call before its last statement. -/
structure ReadLine where
  line : List UInt8
  term : Terminal
  call : Reader

namespace ReadLine

/-- The line that the history gets. -/
def kept (x : ReadLine) : Line := x.term.line

/-- What the shell got, and what the history got. -/
def texts (x : ReadLine) : List UInt8 × List UInt8 := (x.line, x.kept.text)

/-- The history gets the line that the shell got exactly when the call had copied the line as it
was. -/
def KeptIff (x : ReadLine) : Prop := x.kept.text = x.line ↔ LineCurrent x.term x.call

end ReadLine

theorem map_range_eq_iff {f g : Nat → UInt8} {n n' : Nat} :
    (List.range n).map f = (List.range n').map g ↔ n = n' ∧ ∀ k < n, f k = g k := by
  constructor
  · intro h
    have hlen : n = n' := by simpa using congrArg List.length h
    subst hlen
    exact ⟨rfl, fun k hk => List.map_inj_left.mp h k (List.mem_range.mpr hk)⟩
  · rintro ⟨rfl, h⟩
    exact List.map_congr_left fun k hk => h k (List.mem_range.mp hk)

theorem Reader.done_keptIff {s : Terminal} {r : Reader} {buf : Nat → UInt8} {ret : Nat}
    (h : r.step s = .done buf ret) : (⟨((List.range ret).map buf).dropLast, s, r⟩ : ReadLine).KeptIff := by
  have hf : s.enterFlag = true := by
    by_contra hf
    simp only [step] at h
    split at h
    · rw [if_neg hf] at h
      cases h
    · cases h
    · split at h <;> cases h
    · split at h <;> cases h
  have hcase := step_cases hf r
  rw [h] at hcase
  cases hcase with
  | @leave i hpc hi =>
    have hcopied : ∀ k < i, Function.update r.buf i 10 k = r.buf k := fun k hk =>
      Function.update_of_ne (by omega) ..
    simp only [ReadLine.KeptIff, ReadLine.kept, Line.text, Terminal.line, List.range_succ,
      List.map_append, List.map_cons, List.map_nil, List.dropLast_concat, map_range_eq_iff,
      LineCurrent, hpc, hi, Option.some.injEq, exists_eq_left']
    constructor
    · rintro ⟨rfl, hall⟩
      exact ⟨le_refl _, fun k hk => (hcopied k hk).symm.trans (hall k hk).symm, rfl⟩
    · rintro ⟨_, hall, rfl⟩
      exact ⟨rfl, fun k hk => ((hcopied k hk).trans (hall k hk)).symm⟩

/-- The arrow up stops before an empty line. None of the `k - 1` last lines is empty and the call that
read `x`, the one before them, had copied the line as it was; or the row where the arrow stops holds
the bytes of `x`. -/
def Recalled (lines : List ReadLine) (k : Nat) (x : ReadLine) : Prop :=
  let kept := lineAt (lines.map ReadLine.kept)
  (∀ i, i + 1 < k → (kept i).2 ≠ 0) ∧ LineCurrent x.term x.call ∨
    ∃ p, 0 < p ∧ p < k ∧ (∀ i, i < p → (kept i).2 ≠ 0) ∧ (kept p).2 = 0 ∧
      (kept (p - 1)).text = x.line

namespace Remembers

variable {lines : List Line} {s : Terminal}

theorem row (h : Remembers lines s) {k : Nat} (hk : 0 < k) (hk9 : k ≤ 9) :
    s.row k = lineAt lines (k - 1) := by
  have hrow := h (k - 1) (by omega)
  rw [Nat.sub_add_cancel hk] at hrow
  rw [Terminal.row, if_neg (by omega)]
  exact hrow

theorem idx (h : Remembers lines s) {i : Nat} (hi : i < 9) :
    s.commandIdx (i + 1) = (lineAt lines i).2 := congrArg Prod.snd (h i hi)

/-- Where `k` arrows up from an empty draft lead. -/
theorem climb_iff {lines : List ReadLine} (h : Remembers (lines.map ReadLine.kept) s)
    (hdraft : s.keyboardIdx = 0) {k : Nat} (hk : 0 < k) (hk9 : k ≤ 9) {x : ReadLine}
    (hx : lines[k - 1]? = some x) (hkept : x.KeptIff) (hne : x.line ≠ []) :
    (s.row (s.climb k)).text = x.line ↔ Recalled lines k x := by
  have hlast : lineAt (lines.map ReadLine.kept) (k - 1) = x.kept := by
    rw [lineAt, List.getD_eq_getElem?_getD, List.getElem?_map, hx]
    rfl
  obtain ⟨hrows, hstop⟩ := s.climb_rows k
  have hle := s.climb_le k
  generalize s.climb k = p at hrows hstop hle ⊢
  have hpast : ∀ i, i < p → (lineAt (lines.map ReadLine.kept) i).2 ≠ 0 := by
    intro i hi
    rw [← h.idx (by omega)]
    exact hrows (i + 1) (Nat.succ_pos i) hi
  have hcurrent : LineCurrent x.term x.call → x.kept.2 ≠ 0 := by
    intro hcur h0
    refine hne (List.length_eq_zero_iff.mp ?_)
    rw [← hkept.mpr hcur, Line.text_length, h0]
  by_cases hpk : p = k
  · subst hpk
    rw [h.row hk hk9, hlast]
    constructor
    · exact fun htext => Or.inl ⟨fun i hi => hpast i (by omega), hkept.mp htext⟩
    · rintro (⟨_, hcur⟩ | ⟨p', _, hlt, _, hempty', _⟩)
      · exact hkept.mpr hcur
      · exact absurd hempty' (hpast p' hlt)
  · have hempty : (lineAt (lines.map ReadLine.kept) p).2 = 0 := by
      rw [← h.idx (by omega)]
      exact hstop (by omega) (by omega)
    constructor
    · intro hrow
      by_cases hp : p = 0
      · -- the draft is empty
        subst hp
        have hlen := (s.row 0).text_length
        rw [hrow] at hlen
        exact absurd (List.length_eq_zero_iff.mp (hlen.trans hdraft)) hne
      · have hpos := Nat.pos_of_ne_zero hp
        rw [h.row hpos (by omega)] at hrow
        exact Or.inr ⟨p, hpos, by omega, hpast, hempty, hrow⟩
    · rintro (⟨hall, hcur⟩ | ⟨p', hpos, _, hpast', hempty', hsame⟩)
      · by_cases hp1 : p + 1 < k
        · exact absurd hempty (hall p hp1)
        · have hkp : p = k - 1 := by omega
          rw [hkp, hlast] at hempty
          exact absurd hempty (hcurrent hcur)
      · -- the arrow stops before the first empty line
        have hp : p' = p := by
          rcases Nat.lt_trichotomy p' p with hlt | heq | hlt
          · exact absurd hempty' (hpast p' hlt)
          · exact heq
          · exact absurd hempty (hpast' p hlt)
        subst hp
        rw [h.row hpos (by omega)]
        exact hsame

end Remembers

namespace Machine

variable {img : Image} {m m' : Machine} {e : Event} {t : Term}

/-- The lines that the shell has read on each terminal, the last one first. -/
abbrev Histories := Term → List ReadLine

/-- The line is what the call hands back, without the newline. -/
def recordLine (img : Image) (m : Machine) (e : Event) (w : Histories) : Histories :=
  match e, m.ctl with
  | .go, .reading _ r =>
    match r.step (m.kern.con.terminalStruct r.term), m.kern.currPid with
    | .done _ _, some q =>
      if m.kern.proc.shellMask q then
        Function.update w r.term
          (⟨(call img m e).bytes.dropLast, m.kern.con.terminalStruct r.term, r⟩ :: w r.term)
      else w
    | _, _ => w
  | _, _ => w

/-- The machine with the lines that its shells have read. -/
def historyStep (img : Image) : Machine × Histories → Event → Option (Machine × Histories) :=
  withHistory (step img) (recordLine img)

def HistoryBoot (s : Machine × Histories) : Prop := Boot s.1 ∧ ∀ t, s.2 t = []

/-- The processor runs a shell that reads from terminal `t`, and the next statement returns. -/
def ShellReads (m : Machine) (e : Event) (t : Term) : Prop :=
  Completes m e t ∧ ∃ q, m.kern.currPid = some q ∧ m.kern.proc.shellMask q = true

theorem recordLine_of_not {w : Histories} (h : ¬ Completes m e t) :
    recordLine img m e w t = w t := by
  cases e with
  | go =>
    cases hc : m.ctl with
    | reading p r =>
      cases hs : r.step (m.kern.con.terminalStruct r.term) with
      | done buf ret =>
        cases hq : m.kern.currPid with
        | none => simp only [recordLine, hc, hs, hq]
        | some q =>
          have ht : t ≠ r.term := by
            rintro rfl
            exact h ⟨rfl, p, r, buf, ret, hc, rfl, hs⟩
          simp only [recordLine, hc, hs, hq]
          split
          · exact Function.update_of_ne ht ..
          · rfl
      | _ => simp only [recordLine, hc, hs]
    | _ => simp only [recordLine, hc]
  | _ => rfl

theorem step_completes (h : step img m e = some m') (hc : Completes m e t) :
    ∃ q, m.kern.currPid = some q ∧ m'.kern.proc = m.kern.proc ∧
      m'.kern.con = m.kern.con.setTerm t
        ((m.kern.con.terminalStruct t).finishRead (m.kern.proc.shellMask q)) ∧
      ∃ x : ReadLine, x.term = m.kern.con.terminalStruct t ∧ x.KeptIff ∧
        ∀ w, recordLine img m e w t = if m.kern.proc.shellMask q then x :: w t else w t := by
  obtain ⟨rfl, p, r, buf, ret, hr, rfl, hdone⟩ := hc
  cases hq : m.kern.currPid with
  | none =>
    simp [step, call, go, hr, Kernel.readStep, hdone, hq] at h
  | some q =>
    simp only [step, call, go, hr, Kernel.readStep, hdone, hq, Option.map_some,
      Option.some.injEq] at h
    subst h
    refine ⟨q, rfl, rfl, rfl, _, rfl, Reader.done_keptIff hdone, fun w => ?_⟩
    simp only [recordLine, hr, hdone, hq, call, go, Kernel.readStep, Option.map_some, Outcome.bytes]
    split
    · exact Function.update_self ..
    · rfl

/-- The rows of the history are the lines kept of those that the shell has read. -/
structure HistoryOk (lines : List ReadLine) (s : Terminal) : Prop where
  remembers : Remembers (lines.map ReadLine.kept) s
  keptIff : ∀ x ∈ lines, x.KeptIff

theorem step_historyOk {w : Histories} (h : step img m e = some m') (t : Term)
    (hw : HistoryOk (w t) (m.kern.con.terminalStruct t)) :
    HistoryOk (recordLine img m e w t) (m'.kern.con.terminalStruct t) := by
  obtain ⟨hrows, hkept⟩ := hw
  by_cases hc : Completes m e t
  · obtain ⟨q, _, _, hcon, x, hterm, hx, hrec⟩ := step_completes h hc
    have hfin := hrows.finishRead (m.kern.proc.shellMask q)
    rw [hcon, Console.setTerm_self, hrec]
    split
    · rename_i hshell
      rw [if_pos hshell, ← hterm] at hfin
      refine ⟨by rwa [← hterm, List.map_cons], fun y hy => ?_⟩
      rcases List.mem_cons.mp hy with rfl | hy
      · exact hx
      · exact hkept y hy
    · rename_i hshell
      rw [if_neg hshell] at hfin
      exact ⟨hfin, hkept⟩
  · rw [recordLine_of_not hc]
    refine ⟨?_, hkept⟩
    have hkind := step_line h t
    generalize m'.kern.con.terminalStruct t = s' at hkind
    cases hkind with
    | same hsame => exact hrows.sameLine hsame
    | edited _ _ hedit hsame => exact (hrows.lineEdit hedit).sameLine hsame
    | clicked hsame =>
      have hflag : Remembers ((w t).map ReadLine.kept)
          { m.kern.con.terminalStruct t with enterFlag := true } := hrows
      exact hflag.sameLine hsame
    | taken => exact absurd ‹_› hc

theorem reach_historyOk {s : Machine × Histories}
    (h : Reach (historyStep img) HistoryBoot (fun _ _ => True) s) (t : Term) :
    HistoryOk (s.2 t) (s.1.kern.con.terminalStruct t) := by
  refine h.inv (I := fun s => ∀ t, HistoryOk (s.2 t) (s.1.kern.con.terminalStruct t)) ?_ ?_ t
  · rintro s ⟨hb, hw⟩ t
    rw [hb.terminals t, hw t]
    exact ⟨fun i _ => rfl, fun x hx => absurd hx List.not_mem_nil⟩
  · rintro ⟨m, w⟩ e ⟨m', w'⟩ hi _ hs t
    obtain ⟨hs, rfl⟩ := EventSystem.withHistory_eq_some.mp hs
    exact step_historyOk hs t (hi t)

/-- Right after a shell has read a line, `k` arrows up bring back the last line but `k - 1` as the
shell got it, if it is not empty, exactly when `Recalled` holds. -/
theorem recall_iff (img : Image) (s s' : Machine × Histories) (e : Event) (t : Term) (k : Nat)
    (keys : List (UInt8 × UInt8))
    (h : Reach (historyStep img) HistoryBoot (fun _ _ => True) s)
    (hread : ShellReads s.1 e t) (hs : historyStep img s e = some s')
    (hcur : s'.1.kern.con.curTerminal = t) (hty : s'.1.kern.proc.typingMask t = true)
    (hk : 0 < k) (hk9 : k ≤ 9) (x : ReadLine) (hx : (s'.2 t)[k - 1]? = some x) (hne : x.line ≠ [])
    (hkeys : Console.Presses 0x48 k keys) :
    ((Console.pressKeys s'.1.kern.proc.typingMask s'.1.kern.proc.terminalProcessIndex keys
      s'.1.kern.con).terminalStruct t).line.text = x.line ↔ Recalled (s'.2 t) k x := by
  obtain ⟨hlines, hkept⟩ := reach_historyOk (h.step trivial hs) t
  obtain ⟨hstep, _⟩ := EventSystem.withHistory_eq_some.mp hs
  obtain ⟨hc, q, hq, hshell⟩ := hread
  obtain ⟨q', hq', _, hcon, _⟩ := step_completes hstep hc
  rw [hq] at hq'
  cases hq'
  -- the call that returned has emptied the line
  have hnew : s'.1.kern.con.terminalStruct t =
      (s.1.kern.con.terminalStruct t).finishRead true := by
    rw [hcon, Console.setTerm_self, hshell]
  have hpos : (s'.1.kern.con.terminalStruct t).commandPos = 0 := by rw [hnew]; rfl
  have hdraft : (s'.1.kern.con.terminalStruct t).keyboardIdx = 0 := by rw [hnew]; rfl
  rw [← hlines.climb_iff hdraft hk hk9 hx (hkept x (List.mem_of_getElem? hx)) hne]
  subst hcur
  have hb := (Console.presses_up s'.1.kern.proc.typingMask s'.1.kern.proc.terminalProcessIndex hty
    hpos hkeys).2
  rw [hb.line]

/-- A line that is added to the history is one that a shell has read. -/
theorem shellReads_of_record {w : Histories} (hs : step img m e = some m')
    (h : recordLine img m e w t ≠ w t) : ShellReads m e t := by
  have hc : Completes m e t := by
    by_contra hc
    exact h (recordLine_of_not hc)
  obtain ⟨q, hq, _, _, _, _, _, hrec⟩ := step_completes hs hc
  refine ⟨hc, q, hq, ?_⟩
  by_contra hshell
  rw [hrec, if_neg hshell] at h
  exact h rfl

/-- The shell reads a line, up to the statement that returns: the keys, a whole pass of the loop
over them, and Enter. -/
def typeLine (keys : List UInt8) : List Event :=
  .read 0 (some fun _ => 0) 128 :: List.replicate 3 .go ++ keys.map (.key 1) ++
    List.replicate (3 + 2 * keys.length) .go ++ [.key 1 0x1C]

/-- The shell reads two lines, up to the statement that returns the second. -/
def twoLines (keys1 keys2 : List UInt8) : List Event :=
  .tick 0 0 :: typeLine keys1 ++ [.go] ++ typeLine keys2

/-- `s'` is the machine right after. -/
theorem twoLines_read {keys1 keys2 : List UInt8} {l1 l2 : List UInt8 × List UInt8}
    (hrun : (run (historyStep disk) (booted, fun _ => []) (twoLines keys1 keys2)).map
      (fun s => (s.2 0).map ReadLine.texts) = some [l1])
    (hlast : (run (historyStep disk) (booted, fun _ => []) (twoLines keys1 keys2 ++ [.go])).map
      (fun s => ((s.2 0).map ReadLine.texts, s.1.kern.con.curTerminal,
        s.1.kern.proc.typingMask 0)) = some ([l2, l1], 0, true)) :
    ∃ (s s' : Machine × Histories) (x y : ReadLine),
      Reach (historyStep disk) HistoryBoot (fun _ _ => True) s ∧
      run (historyStep disk) (booted, fun _ => []) (twoLines keys1 keys2 ++ [.go]) = some s' ∧
      historyStep disk s .go = some s' ∧ ShellReads s.1 .go 0 ∧ s'.1.kern.con.curTerminal = 0 ∧
      s'.1.kern.proc.typingMask 0 = true ∧ s'.2 0 = [y, x] ∧ x.texts = l1 ∧ y.texts = l2 := by
  obtain ⟨s, hs, hlen⟩ := Option.map_eq_some_iff.mp hrun
  obtain ⟨s', hs', hout⟩ := Option.map_eq_some_iff.mp hlast
  obtain ⟨s1, hs1, hgo⟩ := EventSystem.run_append.mp hs'
  rw [hs] at hs1
  cases hs1
  obtain ⟨s2, hgo, hnil⟩ := EventSystem.run_cons.mp hgo
  cases hnil
  simp only [Prod.mk.injEq] at hout
  obtain ⟨hlines, hcur, hty⟩ := hout
  obtain ⟨hstep, hrec⟩ := EventSystem.withHistory_eq_some.mp hgo
  have hread : ShellReads s.1 .go 0 := by
    refine shellReads_of_record (w := s.2) hstep fun heq => ?_
    rw [← hrec] at heq
    rw [heq, hlen] at hlines
    cases hlines
  have hreach : Reach (historyStep disk) HistoryBoot (fun _ _ => True) s :=
    Reach.of_any (.init ⟨boot_booted, fun _ => rfl⟩) hs
  obtain ⟨y, rest, hw, hy, hrest⟩ := List.map_eq_cons_iff.mp hlines
  obtain ⟨x, rest, rfl, hx, hrest⟩ := List.map_eq_cons_iff.mp hrest
  rw [List.map_eq_nil_iff.mp hrest] at hw
  exact ⟨s, s', x, y, hreach, hs', hgo, hread, hcur, hty, hw, hx, hy⟩

/-- Two arrows up. -/
def twoUps : List (UInt8 × UInt8) := [(1, 0x48), (1, 0xC8), (1, 0x48)]

theorem presses_twoUps : Console.Presses 0x48 2 twoUps :=
  .press (by decide) (.release (by decide) (.press (by decide) .nil))

/-- `a` and `b` are read. -/
theorem recall_iff_two : ∃ (s' : Machine × Histories) (x : ReadLine), (s'.2 0)[1]? = some x ∧
    x.line = [97] ∧
    ((Console.pressKeys s'.1.kern.proc.typingMask s'.1.kern.proc.terminalProcessIndex twoUps
      s'.1.kern.con).terminalStruct 0).line.text = x.line := by
  obtain ⟨s, s', x, y, hreach, _, hgo, hread, hcur, hty, hlines, hx, hy⟩ :=
    @twoLines_read [0x1E] [0x30] ([97], [97]) ([98], [98]) (by decide +kernel) (by decide +kernel)
  obtain ⟨hline, htext⟩ := Prod.mk.injEq .. ▸ hx
  have hsome : (s'.2 0)[1]? = some x := by rw [hlines]; rfl
  refine ⟨s', x, hsome, hline, (recall_iff disk s s' .go 0 2 twoUps hreach hread hgo hcur hty
    (by decide) (by decide) x hsome (by rw [hline]; decide) presses_twoUps).mpr
      (Or.inl ⟨fun i hi => ?_, ?_⟩)⟩
  · have h0 : i = 0 := by omega
    subst h0
    rw [hlines]
    have hlen := congrArg (fun l => l.2.length) hy
    simp only [ReadLine.texts, Line.text_length] at hlen
    exact Nat.ne_of_gt (hlen ▸ Nat.one_pos)
  · have hok := reach_historyOk (hreach.step trivial hgo) 0
    exact (hok.keptIff x (List.mem_of_getElem? hsome)).mp (htext.trans hline.symm)

/-- `a` and an empty line are read: the arrow up stops at once. -/
theorem empty_line_ends_history :
    ¬ ∀ (img : Image) (s s' : Machine × Histories) (e : Event) (t : Term) (k : Nat)
      (keys : List (UInt8 × UInt8)) (x : ReadLine),
      Reach (historyStep img) HistoryBoot (fun _ _ => True) s → ShellReads s.1 e t →
      historyStep img s e = some s' → s'.1.kern.con.curTerminal = t →
      s'.1.kern.proc.typingMask t = true → 0 < k → k ≤ 9 → (s'.2 t)[k - 1]? = some x →
      x.line ≠ [] → Console.Presses 0x48 k keys →
      ((Console.pressKeys s'.1.kern.proc.typingMask s'.1.kern.proc.terminalProcessIndex keys
        s'.1.kern.con).terminalStruct t).line.text = x.line := by
  intro h
  obtain ⟨s, s', x, y, hreach, hs', hgo, hread, hcur, hty, hlines, hx, _⟩ :=
    @twoLines_read [0x1E] [] ([97], [97]) ([], []) (by decide +kernel) (by decide +kernel)
  obtain ⟨hline, _⟩ := Prod.mk.injEq .. ▸ hx
  have hclaim := h disk s s' .go 0 2 twoUps x hreach hread hgo hcur hty (by decide) (by decide)
    (by rw [hlines]; rfl) (by rw [hline]; decide) presses_twoUps
  have htext : (run (historyStep disk) (booted, fun _ => []) (twoLines [0x1E] [] ++ [.go])).map
      (fun s => ((Console.pressKeys s.1.kern.proc.typingMask s.1.kern.proc.terminalProcessIndex
        twoUps s.1.kern.con).terminalStruct 0).line.text) = some [] := by
    decide +kernel
  rw [hs', Option.map_some, Option.some.injEq, hclaim, hline] at htext
  cases htext

end Machine
end DeviceOS
