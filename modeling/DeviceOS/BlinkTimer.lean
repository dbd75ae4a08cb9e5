import DeviceOS.BlinkList
import Mathlib.Algebra.Group.Nat.Defs
import Mathlib.Logic.Function.Iterate

/-!
# DeviceOS.BlinkTimer

When a character blinks. A structure that is alone at its location shows its first character for
`on_length` ticks, then its second one for `off_length` ticks, and so on, whatever happens at other
locations meanwhile.

* `Phase e r b`: the structure `e`, `r` ticks into its period. `Phase.tick`: one tick.
* `Shown l v e b`: the list holds `b` and nothing else at the location of `e`, and the screen shows
  what belongs there. `Shown.after`: the calls that leave this location alone.
* `character_blinks`: every sequence of calls after `add`.
-/

namespace DeviceOS

open BlinkStruct (At)
open EventSystem (run run_cons)

namespace BlinkStruct

/-! ## The period -/

def period (e : BlinkStruct) : Nat := e.onLength.toNat + e.offLength.toNat

/-- Both lengths are positive as `int16_t`. -/
structure Timed (e : BlinkStruct) : Prop where
  on_pos : 0 < e.onLength.toNat
  on_lt : e.onLength.toNat < 2 ^ 15
  off_pos : 0 < e.offLength.toNat
  off_lt : e.offLength.toNat < 2 ^ 15

/-- `r` ticks after it was switched on. -/
def inPhase (e : BlinkStruct) (r : Nat) : BlinkStruct :=
  if r < e.onLength.toNat then
    { e with status := 1, countdown := BitVec.ofNat 16 (e.onLength.toNat - r) }
  else { e with status := 0, countdown := BitVec.ofNat 16 (e.period - r) }

@[simp] theorem inPhase_location (e : BlinkStruct) (r : Nat) :
    (e.inPhase r).location = e.location := by
  unfold inPhase
  split <;> rfl

theorem started_eq_inPhase {e : BlinkStruct} (h : e.Timed) : e.started = e.inPhase 0 := by
  rw [inPhase, if_pos h.on_pos, Nat.sub_zero, BitVec.ofNat_toNat, BitVec.setWidth_eq]
  rfl

theorem inPhase_char (e : BlinkStruct) (r : Nat) :
    (e.inPhase r).char = if r < e.onLength.toNat then e.onChar else e.offChar := by
  unfold inPhase
  by_cases hr : r < e.onLength.toNat
  · rw [if_pos hr, if_pos hr]
    simp [char, on]
  · rw [if_neg hr, if_neg hr]
    simp [char, on]

theorem ofNat_succ_sub_one (k : Nat) : BitVec.ofNat 16 (k + 1) - 1 = BitVec.ofNat 16 k := by
  rw [BitVec.ofNat_add]
  exact BitVec.add_sub_cancel ..

/-- A countdown that has `k` to go is decremented. -/
theorem countdown_toInt {k : Nat} (h0 : 0 < k) (h15 : k < 2 ^ 15) :
    (BitVec.ofNat 16 k - 1).toInt = k - 1 := by
  obtain ⟨j, rfl⟩ : ∃ j, k = j + 1 := ⟨k - 1, by omega⟩
  rw [ofNat_succ_sub_one, BitVec.toInt_eq_toNat_of_lt (by rw [BitVec.toNat_ofNat]; omega),
    BitVec.toNat_ofNat]
  omega

/-- One tick moves on in the period. -/
theorem Timed.tick {e : BlinkStruct} (h : e.Timed) {r : Nat} (hr : r < e.period) :
    (e.inPhase r).tick = e.inPhase ((r + 1) % e.period) := by
  have hon := h.on_lt
  have hoff := h.off_lt
  have hpos := h.off_pos
  have hperiod : e.period = e.onLength.toNat + e.offLength.toNat := rfl
  by_cases hphase : r < e.onLength.toNat
  · have hmod : (r + 1) % e.period = r + 1 := Nat.mod_eq_of_lt (by omega)
    have hcount := countdown_toInt (k := e.onLength.toNat - r) (by omega) (by omega)
    rw [hmod, inPhase, if_pos hphase]
    by_cases hlast : r + 1 < e.onLength.toNat
    · rw [tick_of_not_toggles (by rw [Toggles, hcount]; omega), inPhase, if_pos hlast]
      have hnext : e.onLength.toNat - r = e.onLength.toNat - (r + 1) + 1 := by omega
      rw [hnext, ofNat_succ_sub_one]
    · -- the last tick of the first character
      rw [tick_of_toggles (by rw [Toggles, hcount]; omega), inPhase, if_neg hlast]
      have hleft : e.period - (r + 1) = e.offLength.toNat := by omega
      rw [hleft, BitVec.ofNat_toNat, BitVec.setWidth_eq]
      simp [on]
  · have hcount := countdown_toInt (k := e.period - r) (by omega) (by omega)
    rw [inPhase, if_neg hphase]
    by_cases hlast : r + 1 < e.period
    · rw [Nat.mod_eq_of_lt hlast, tick_of_not_toggles (by rw [Toggles, hcount]; omega), inPhase,
        if_neg (by omega)]
      have hnext : e.period - r = e.period - (r + 1) + 1 := by omega
      rw [hnext, ofNat_succ_sub_one]
    · -- the last tick of the second character
      have hmod : (r + 1) % e.period = 0 := by
        rw [show r + 1 = e.period by omega, Nat.mod_self]
      rw [hmod, tick_of_toggles (by rw [Toggles, hcount]; omega), ← started_eq_inPhase h]
      simp [on, started]

/-- A character that stays as it is needs no redrawing. -/
theorem tick_char_of_not_toggles {b : BlinkStruct} (h : ¬ b.Toggles) : b.tick.char = b.char := by
  rw [tick_of_not_toggles h]
  rfl

theorem offset_inj {b e : BlinkStruct} : b.offset = e.offset ↔ b.location = e.location := by
  constructor
  · intro h
    apply BitVec.eq_of_toNat_eq
    simp only [offset] at h
    omega
  · intro h
    rw [offset, offset, h]

end BlinkStruct

/-! ## One location -/

/-- The call leaves the location alone. -/
def BlinkCall.Keeps (location : BitVec 16) : BlinkCall → Prop
  | .tasklet | .find _ => True
  | .add arg => arg.location ≠ location
  | .remove arg => arg.setWidth 16 ≠ location
  | .sync arg => (arg &&& 0xFFFF).setWidth 16 ≠ location

def BlinkCall.isTasklet : BlinkCall → Bool
  | .tasklet => true
  | _ => false

namespace Blinks

variable {a : Blinks} {e b : BlinkStruct} {l : List BlinkStruct}

/-- `b` is alone at the location of `e`, and its character is on the screen. -/
structure Shown (a : Blinks) (e b : BlinkStruct) : Prop where
  alone : a.list.filter (At e.location) = [b]
  screen : a.vmem e.offset = b.char

theorem redraw_other (h : l.filter (At e.location) = []) (v : Nat → UInt8) :
    redraw l v e.offset = v e.offset := by
  induction l generalizing v with
  | nil => rfl
  | cons b l ih =>
    rw [List.filter_eq_nil_iff] at h
    have hb : ¬ b.location = e.location := by
      simpa [At] using h b (by simp)
    have hne : e.offset ≠ b.offset := fun heq => hb (BlinkStruct.offset_inj.mp heq.symm)
    have hl : l.filter (At e.location) = [] :=
      List.filter_eq_nil_iff.mpr fun c hc => h c (List.mem_cons_of_mem _ hc)
    rw [redraw, List.foldl_cons]
    refine (ih hl _).trans ?_
    split
    · exact Function.update_of_ne hne ..
    · rfl

/-- The tick redraws the one character at a location. -/
theorem redraw_alone (h : l.filter (At e.location) = [b]) {v : Nat → UInt8}
    (hv : v e.offset = b.char) : redraw l v e.offset = b.tick.char := by
  induction l generalizing v with
  | nil => cases h
  | cons c l ih =>
    rw [redraw, List.foldl_cons]
    by_cases hc : c.location = e.location
    · rw [List.filter_cons_of_pos (by simpa [At] using hc)] at h
      obtain ⟨rfl, hl⟩ := List.cons.inj h
      refine (redraw_other hl _).trans ?_
      split
      · rw [BlinkStruct.offset_inj.mpr hc, Function.update_self]
      · rename_i ht
        rw [BlinkStruct.tick_char_of_not_toggles ht]
        exact hv
    · rw [List.filter_cons_of_neg (by simpa [At] using hc)] at h
      have hne : e.offset ≠ c.offset := fun heq => hc (BlinkStruct.offset_inj.mp heq.symm)
      refine ih h ?_
      split
      · rw [Function.update_of_ne hne]
        exact hv
      · exact hv

theorem filter_tick (l : List BlinkStruct) (location : BitVec 16) :
    (l.map BlinkStruct.tick).filter (At location) =
      (l.filter (At location)).map BlinkStruct.tick := by
  rw [List.filter_map]
  congr 1
  apply List.filter_congr
  intro b _
  simp [At]

theorem filter_erase {target location : BitVec 16} (h : target ≠ location) :
    (l.eraseP (At target)).filter (At location) = l.filter (At location) := by
  induction l with
  | nil => rfl
  | cons b l ih =>
    by_cases hb : b.location = target
    · rw [List.eraseP_cons_of_pos (by simpa [At] using hb),
        List.filter_cons_of_neg (by simp [At, hb, h])]
    · rw [List.eraseP_cons_of_neg (by simpa [At] using hb), List.filter_cons, List.filter_cons, ih]

theorem filter_updateFirst {target location : BitVec 16} (h : target ≠ location)
    {f : BlinkStruct → BlinkStruct} (hf : ∀ b, (f b).location = b.location) :
    (updateFirst (At target) f l).filter (At location) = l.filter (At location) := by
  induction l with
  | nil => rfl
  | cons b l ih =>
    rw [updateFirst]
    by_cases hb : b.location = target
    · rw [if_pos (by simpa [At] using hb), List.filter_cons_of_neg (by simp [At, hf, hb, h]),
        List.filter_cons_of_neg (by simp [At, hb, h])]
    · rw [if_neg (by simpa [At] using hb), List.filter_cons, List.filter_cons, ih]

/-- A tick moves the structure on, and any other call on another location leaves it. -/
theorem Shown.after (h : a.Shown e b) {c : BlinkCall} (hc : c.Keeps e.location) :
    (a.call c).2.Shown e (if c.isTasklet then b.tick else b) := by
  have hsame : ∀ {a' : Blinks}, a'.list.filter (At e.location) = a.list.filter (At e.location) →
      a'.vmem e.offset = a.vmem e.offset → a'.Shown e b := fun h1 h2 =>
    ⟨h1.trans h.alone, h2.trans h.screen⟩
  cases c with
  | tasklet => exact ⟨by rw [call, filter_tick, h.alone]; rfl, redraw_alone h.alone h.screen⟩
  | add arg =>
    have hne : arg.location ≠ e.location := hc
    simp only [call, BlinkCall.isTasklet]
    split
    · exact h
    · refine hsame (List.filter_cons_of_neg ?_) (Function.update_of_ne ?_ ..)
      · simp [At, BlinkStruct.started, hne]
      · exact fun heq => hne (BlinkStruct.offset_inj.mp heq.symm)
  | remove arg =>
    simp only [call, BlinkCall.isTasklet]
    split
    · exact hsame (filter_erase hc) rfl
    · exact h
  | find location =>
    simp only [call, BlinkCall.isTasklet]
    split
    · exact h
    · exact h
  | sync arg =>
    simp only [call, BlinkCall.isTasklet]
    split
    · rename_i source target _ htarget
      refine hsame (filter_updateFirst hc fun _ => rfl) (Function.update_of_ne ?_ ..)
      have hat : target.location = (arg &&& 0xFFFF).setWidth 16 := by
        simpa [At] using List.find?_some htarget
      intro heq
      have hloc := BlinkStruct.offset_inj.mp heq.symm
      exact hc (hat.symm.trans hloc)
    · exact h

end Blinks

namespace Blinker

variable {n : Nat} {a : Blinks} {e : BlinkStruct}

/-- A run of calls that leave a location alone. -/
theorem Represents.run (hn : 2000 < n) (he : e.Timed) : ∀ {cs : List BlinkCall} {s : Blinker}
    {a : Blinks} {r : Nat}, s.Represents a → a.Shown e (e.inPhase (r % e.period)) →
      (∀ c ∈ cs, c.Keeps e.location ∧ c.Placed) →
        ∃ s' a', EventSystem.run (step n) s cs = some s' ∧ s'.Represents a' ∧
          a'.Shown e (e.inPhase ((r + cs.countP BlinkCall.isTasklet) % e.period)) := by
  have hperiod : 0 < e.period := Nat.add_pos_left he.on_pos _
  intro cs
  induction cs with
  | nil =>
    intro s a r hs ha _
    exact ⟨s, a, rfl, hs, ha⟩
  | cons c cs ih =>
    intro s a r hs ha hcs
    obtain ⟨hkeeps, hplaced⟩ := hcs c (by simp)
    obtain ⟨s1, hcall, hs1⟩ := hs.call hn hplaced
    have ha1 := ha.after hkeeps
    have hmod : (r % e.period + 1) % e.period = (r + 1) % e.period := Nat.mod_add_mod ..
    rw [he.tick (Nat.mod_lt _ hperiod), hmod] at ha1
    have hnext : (a.call c).2.Shown e
        (e.inPhase ((r + if c.isTasklet then 1 else 0) % e.period)) := by
      cases ht : c.isTasklet <;> simpa [ht] using ha1
    obtain ⟨s', a', hrun, hs', ha'⟩ := ih hs1 hnext fun d hd => hcs d (List.mem_cons_of_mem _ hd)
    refine ⟨s', a', run_cons.mpr ⟨s1, by rw [step, hcall]; rfl, hrun⟩, hs', ?_⟩
    rwa [List.countP_cons, Nat.add_comm (cs.countP _), ← Nat.add_assoc]

/-- A character that is added at a location of its own blinks: after any calls that leave the
location alone, `t` of them ticks, the screen shows the first character if `t` is less than
`on_length` modulo the period, and the second one otherwise. -/
theorem character_blinks (n : Nat) (hn : 2000 < n) (s : Blinker) (a : Blinks) (h : s.Represents a)
    (hroom : a.list.length < 2000) (e : BlinkStruct) (he : e.Timed) (h0 : e.location ≠ 0)
    (hloc : e.location.toNat < 2000) (hnew : ∀ b ∈ a.list, b.location ≠ e.location)
    (cs : List BlinkCall) (hcs : ∀ c ∈ cs, c.Keeps e.location ∧ c.Placed) :
    ∃ s', run (step n) s (.add e :: cs) = some s' ∧
      s'.vmem e.offset =
        if cs.countP BlinkCall.isTasklet % (e.onLength.toNat + e.offLength.toNat) < e.onLength.toNat
        then e.onChar else e.offChar := by
  obtain ⟨s1, hcall, hs1⟩ := h.call (c := .add e) hn h0
  have hadd : (a.call (.add e)).2 =
      ⟨e.started :: a.list, Function.update a.vmem e.offset e.onChar⟩ := by
    rw [Blinks.call, if_neg (by omega)]
  have hnone : a.list.filter (At e.location) = [] :=
    List.filter_eq_nil_iff.mpr fun b hb => by simpa [At] using hnew b hb
  have hshown : (a.call (.add e)).2.Shown e (e.inPhase (0 % e.period)) := by
    have hchar : (e.inPhase 0).char = e.onChar := by
      rw [BlinkStruct.inPhase_char, if_pos he.on_pos]
    rw [hadd, Nat.zero_mod]
    refine ⟨?_, (Function.update_self ..).trans hchar.symm⟩
    rw [← BlinkStruct.started_eq_inPhase he]
    rw [List.filter_cons_of_pos (by simp [At, BlinkStruct.started]), hnone]
  obtain ⟨s', a', hrun, ⟨qs, _, rfl⟩, ha'⟩ := hs1.run hn he hshown hcs
  refine ⟨s', run_cons.mpr ⟨s1, by rw [step, hcall]; rfl, hrun⟩, ?_⟩
  rw [Nat.zero_add] at ha'
  have hscreen : s'.vmem e.offset = _ := ha'.screen
  rw [hscreen, BlinkStruct.inPhase_char]
  rfl

/-- On for three ticks; after the fourth, with another character added meanwhile, it is off. -/
theorem character_blinks_fourth : ∃ s', run (step 2001) still
    (.add (blinkAt 40 65) :: [.tasklet, .tasklet, .add (blinkAt 41 66), .tasklet, .tasklet]) =
      some s' ∧ s'.vmem 80 = 32 := by
  refine character_blinks 2001 (by decide) still _ listStart_still.represents (by decide)
    (blinkAt 40 65) ⟨by decide, by decide, by decide, by decide⟩ (by decide) (by decide) (by simp)
    _ fun c hc => ?_
  simp only [List.mem_cons, List.not_mem_nil, or_false] at hc
  rcases hc with rfl | rfl | rfl | rfl | rfl
  · exact ⟨trivial, trivial⟩
  · exact ⟨trivial, trivial⟩
  · exact ⟨show ¬ (41 : BitVec 16) = 40 by decide, show ¬ (41 : BitVec 16) = 0 by decide⟩
  · exact ⟨trivial, trivial⟩
  · exact ⟨trivial, trivial⟩

end Blinker
end DeviceOS
