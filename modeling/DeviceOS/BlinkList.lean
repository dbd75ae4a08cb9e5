import DeviceOS.Blink
import DeviceOS.Lib.Chains
import DeviceOS.Lib.EventSystem
import Mathlib.Data.Fintype.Card

/-!
# DeviceOS.BlinkList

The list of blinking characters as a list. The nodes in `blink_array` and the pointers between them
represent it as long as no structure is added at location 0: such an element would look free to
`mp1_malloc`.

* `Blinks`: the list itself and the video memory; `Blinks.call`: what each call means there.
* `Blinker.Nodes s qs`: the pointers lead through the elements `qs`, and these are the ones in use.
* `findHelper_eq`, `removeFindPrev_eq`, `taskletLoop_eq`, `mp1Malloc_eq`: the loops.
* `Nodes.call`: each call ends, and does to the nodes what `Blinks.call` does to the list.
* `blinker_refines_list`: every run. `location_zero_hangs`: the case that is left out.
-/

namespace DeviceOS

open EventSystem (Reach run withHistory withHistory_eq_some)

/-! ## The list -/

/-- The list and the screen. -/
structure Blinks where
  list : List BlinkStruct
  vmem : Nat → UInt8

namespace BlinkStruct

def At (location : BitVec 16) (b : BlinkStruct) : Bool := b.location = location

/-- The character that belongs on the screen. -/
def char (b : BlinkStruct) : UInt8 := if b.on then b.onChar else b.offChar

/-- The next tick changes the character. -/
def Toggles (b : BlinkStruct) : Prop := ¬ 0 < (b.countdown - 1).toInt

instance : DecidablePred Toggles := fun b =>
  inferInstanceAs (Decidable (¬ 0 < (b.countdown - 1).toInt))

def started (b : BlinkStruct) : BlinkStruct := { b with status := 1, countdown := b.onLength }

/-- Brought into step with `source`. -/
def synced (source b : BlinkStruct) : BlinkStruct := { b with
  onLength := source.onLength
  offLength := source.offLength
  countdown := source.countdown
  status := source.status }

@[simp] theorem tick_location (b : BlinkStruct) : b.tick.location = b.location := by
  unfold tick
  dsimp only
  split <;> rfl

@[simp] theorem tick_offset (b : BlinkStruct) : b.tick.offset = b.offset := by
  simp [offset]

theorem xor_one_and_one (x : BitVec 16) : (x ^^^ 1) &&& 1 ≠ 0 ↔ ¬ x &&& 1 ≠ 0 := by
  have hx : x &&& 1 = 0 ∨ x &&& 1 = 1 := by
    rcases Nat.mod_two_eq_zero_or_one x.toNat with h | h
    · left
      apply BitVec.eq_of_toNat_eq
      simp [BitVec.toNat_and, h]
    · right
      apply BitVec.eq_of_toNat_eq
      simp [BitVec.toNat_and, h]
  have hxor : (x ^^^ 1) &&& 1 = (x &&& 1) ^^^ 1 := by
    ext i hi
    rw [BitVec.getElem_and, BitVec.getElem_xor, BitVec.getElem_xor, BitVec.getElem_and]
    cases x[i] <;> cases (1 : BitVec 16)[i] <;> rfl
  rw [hxor]
  rcases hx with h | h <;> rw [h] <;> decide

theorem tick_of_not_toggles {b : BlinkStruct} (h : ¬ b.Toggles) :
    b.tick = { b with countdown := b.countdown - 1 } := by
  unfold tick
  exact if_pos (not_not.mp h)

theorem tick_of_toggles {b : BlinkStruct} (h : b.Toggles) :
    b.tick = { b with
      countdown := if b.on then b.offLength else b.onLength
      status := b.status ^^^ 1 } := by
  unfold tick
  exact if_neg h

theorem tick_on {b : BlinkStruct} (h : b.Toggles) : b.tick.on = !b.on := by
  rw [tick_of_toggles h]
  unfold on
  by_cases hb : b.status &&& 1 ≠ 0
  · have hoff : ¬ (b.status ^^^ 1) &&& 1 ≠ 0 := fun h => (xor_one_and_one _).mp h hb
    rw [decide_eq_true hb, decide_eq_false hoff]
    rfl
  · rw [decide_eq_false hb, decide_eq_true ((xor_one_and_one _).mpr hb)]
    rfl

/-- The character after a change. -/
theorem tick_char {b : BlinkStruct} (h : b.Toggles) :
    b.tick.char = if b.on then b.offChar else b.onChar := by
  have hchars : b.tick.onChar = b.onChar ∧ b.tick.offChar = b.offChar := by
    rw [tick_of_toggles h]
    exact ⟨rfl, rfl⟩
  unfold char
  rw [tick_on h, hchars.1, hchars.2]
  cases b.on <;> rfl

end BlinkStruct

open BlinkStruct (At)

/-- The first element that satisfies `p` is changed. -/
def updateFirst {α : Type} (p : α → Bool) (f : α → α) : List α → List α
  | [] => []
  | a :: l => if p a then f a :: l else a :: updateFirst p f l

namespace Blinks

/-- The characters that a tick changes, one element after the other. -/
def redraw (l : List BlinkStruct) (vmem : Nat → UInt8) : Nat → UInt8 :=
  l.foldl (fun v b => if b.Toggles then Function.update v b.offset b.tick.char else v) vmem

/-- A call on the list. At most 2000 characters blink. -/
def call (s : Blinks) : BlinkCall → BlinkReply × Blinks
  | .tasklet => (⟨0, none⟩, ⟨s.list.map BlinkStruct.tick, redraw s.list s.vmem⟩)
  | .add arg =>
    if 2000 ≤ arg.location.toNat ∨ s.list.length = 2000 then (⟨-1, none⟩, s)
    else (⟨0, none⟩,
      ⟨arg.started :: s.list, Function.update s.vmem arg.offset arg.onChar⟩)
  | .remove arg =>
    if s.list.any (At (arg.setWidth 16)) then
      (⟨0, none⟩, { s with list := s.list.eraseP (At (arg.setWidth 16)) })
    else (⟨-1, none⟩, s)
  | .find location =>
    match s.list.find? (At location) with
    | none => (⟨-1, none⟩, s)
    | some b => (⟨0, some b⟩, s)
  | .sync arg =>
    let target := At ((arg &&& 0xFFFF).setWidth 16)
    match s.list.find? (At ((arg >>> 16).setWidth 16)), s.list.find? target with
    | some source, some b => (⟨0, none⟩,
      ⟨updateFirst target source.synced s.list, Function.update s.vmem b.offset b.offChar⟩)
    | _, _ => (⟨-1, none⟩, s)

end Blinks

namespace Blinker

/-- The pointers lead through the elements `qs`, and these are the ones in use. -/
structure Nodes (s : Blinker) (qs : List Slot) : Prop where
  chain : Chain (fun q => (s.blinkArray q).next) s.mp1ListHead qs
  nodup : qs.Nodup
  used : ∀ q, q ∈ qs ↔ (s.blinkArray q).data.location ≠ 0

/-- The structures in the elements `qs`. -/
def datas (s : Blinker) (qs : List Slot) : List BlinkStruct :=
  qs.map fun q => (s.blinkArray q).data

/-- What the nodes of the blinker stand for. -/
def Represents (s : Blinker) (a : Blinks) : Prop :=
  ∃ qs, s.Nodes qs ∧ a = ⟨s.datas qs, s.vmem⟩

variable {s : Blinker} {qs : List Slot}

theorem Nodes.length_le (h : s.Nodes qs) : qs.length ≤ 2000 := by
  simpa using h.nodup.length_le_card

/-! ## The loops -/

theorem findHelper_eq (location : BitVec 16) : ∀ {qs : List Slot} {h : Option Slot} {n : Nat},
    Chain (fun q => (s.blinkArray q).next) h qs → qs.length < n →
      s.findHelper location n h = some (qs.find? fun q => At location (s.blinkArray q).data) := by
  intro qs
  induction qs with
  | nil =>
    intro h n hc hn
    obtain ⟨m, rfl⟩ : ∃ m, n = m + 1 := ⟨n - 1, by omega⟩
    cases hc
    rfl
  | cons q qs ih =>
    intro h n hc hn
    obtain ⟨m, rfl⟩ : ∃ m, n = m + 1 := ⟨n - 1, by omega⟩
    obtain ⟨rfl, hc⟩ := hc
    rw [findHelper, List.find?_cons]
    by_cases hq : (s.blinkArray q).data.location = location
    · simp [At, hq]
    · rw [if_neg hq, ih hc (by simpa using hn)]
      simp [At, hq]

/-- The link that leads to the node `q`: the one in the node before it. -/
theorem removeFindPrev_eq {q : Slot} {m : List Slot} :
    ∀ {l : List Slot} {edx : Option Slot} {n : Nat},
    Chain (fun q => (s.blinkArray q).next) (s.link edx) (l ++ q :: m) → q ∉ l → l.length < n →
      s.removeFindPrev q n edx = some (l.getLast?.or edx) := by
  intro l
  induction l with
  | nil =>
    intro edx n hc _ hn
    obtain ⟨k, rfl⟩ : ∃ k, n = k + 1 := ⟨n - 1, by omega⟩
    rw [removeFindPrev, if_pos hc.1]
    simp
  | cons p l ih =>
    intro edx n hc hq hn
    obtain ⟨k, rfl⟩ : ∃ k, n = k + 1 := ⟨n - 1, by omega⟩
    obtain ⟨hlink, hc⟩ := hc
    rw [List.mem_cons, not_or] at hq
    have hne : ¬ some p = some q := fun h => hq.1 (Option.some.inj h).symm
    rw [removeFindPrev, hlink, if_neg hne]
    dsimp only
    rw [@ih (some p) k hc hq.2 (by simpa using hn), List.getLast?_cons]
    cases l.getLast? <;> rfl

theorem mp1Malloc_eq (h : s.Nodes qs) :
    (qs.length = 2000 ∧ s.mp1Malloc = none) ∨
      ∃ q, qs.length < 2000 ∧ s.mp1Malloc = some q ∧ q ∉ qs := by
  cases hm : s.mp1Malloc with
  | none =>
    left
    refine ⟨?_, rfl⟩
    have hall : ∀ q, q ∈ qs := fun q => by
      have := List.find?_eq_none.mp hm q (List.mem_finRange q)
      rw [h.used]
      simpa using this
    have hcard := List.toFinset_card_of_nodup h.nodup
    have huniv : qs.toFinset = Finset.univ := by
      ext q
      simp [hall q]
    rw [← hcard, huniv]
    simp
  | some q =>
    right
    have hfree : (s.blinkArray q).data.location = 0 := by
      simpa using List.find?_some hm
    have hq : q ∉ qs := fun hmem => (h.used q).mp hmem hfree
    refine ⟨q, ?_, rfl, hq⟩
    have hcons : (q :: qs).Nodup := List.nodup_cons.mpr ⟨hq, h.nodup⟩
    have hcard := hcons.length_le_card
    rw [List.length_cons, Fintype.card_fin] at hcard
    omega

/-- The nodes `qs` have ticked, and the rest is as it was. -/
structure Ticked (s : Blinker) (qs : List Slot) (s' : Blinker) : Prop where
  ticked : ∀ q ∈ qs, s'.blinkArray q = ⟨(s.blinkArray q).data.tick, (s.blinkArray q).next⟩
  others : ∀ q, q ∉ qs → s'.blinkArray q = s.blinkArray q
  mp1ListHead : s'.mp1ListHead = s.mp1ListHead
  vmem : s'.vmem = Blinks.redraw (s.datas qs) s.vmem

theorem taskletBody_eq (s : Blinker) (q : Slot) :
    s.taskletBody q =
      { s with
        blinkArray := Function.update s.blinkArray q
          ⟨(s.blinkArray q).data.tick, (s.blinkArray q).next⟩
        vmem := if (s.blinkArray q).data.Toggles then
            Function.update s.vmem (s.blinkArray q).data.offset (s.blinkArray q).data.tick.char
          else s.vmem } := by
  unfold taskletBody
  by_cases ht : (s.blinkArray q).data.Toggles
  · have hchar := BlinkStruct.tick_char ht
    rw [if_pos ht, hchar]
    simp only [if_neg (show ¬ 0 < ((s.blinkArray q).data.countdown - 1).toInt from ht)]
    rfl
  · rw [if_neg ht]
    simp only [if_pos (not_not.mp ht)]
    rfl

theorem taskletLoop_eq : ∀ {qs : List Slot} {h : Option Slot} {n : Nat} {s : Blinker},
    Chain (fun q => (s.blinkArray q).next) h qs → qs.Nodup → qs.length < n →
      ∃ s', taskletLoop n h s = some s' ∧ s.Ticked qs s' := by
  intro qs
  induction qs with
  | nil =>
    intro h n s hc _ hn
    obtain ⟨m, rfl⟩ : ∃ m, n = m + 1 := ⟨n - 1, by omega⟩
    cases hc
    exact ⟨s, rfl, fun q hq => (List.not_mem_nil hq).elim, fun _ _ => rfl, rfl, rfl⟩
  | cons q qs ih =>
    intro h n s hc hnd hn
    obtain ⟨m, rfl⟩ : ∃ m, n = m + 1 := ⟨n - 1, by omega⟩
    obtain ⟨rfl, hc⟩ := hc
    obtain ⟨hq, hnd⟩ := List.nodup_cons.mp hnd
    have hbody := taskletBody_eq s q
    have hself : (s.taskletBody q).blinkArray q =
        ⟨(s.blinkArray q).data.tick, (s.blinkArray q).next⟩ := by
      rw [hbody]
      exact Function.update_self ..
    have hother : ∀ r, r ≠ q → (s.taskletBody q).blinkArray r = s.blinkArray r := by
      intro r hr
      rw [hbody]
      exact Function.update_of_ne hr ..
    have hne : ∀ r ∈ qs, r ≠ q := by
      rintro r hr rfl
      exact hq hr
    have hlinks : ∀ r ∈ qs, ((s.taskletBody q).blinkArray r).next = (s.blinkArray r).next :=
      fun r hr => by rw [hother r (hne r hr)]
    have hdatas : (s.taskletBody q).datas qs = s.datas qs :=
      List.map_congr_left fun r hr => by rw [hother r (hne r hr)]
    rw [taskletLoop]
    simp only [hself]
    obtain ⟨s', hloop, hs'⟩ := ih (hc.congr hlinks) hnd (by simpa using hn)
    refine ⟨s', hloop, fun r hr => ?_, fun r hr => ?_, ?_, ?_⟩
    · rcases List.mem_cons.mp hr with rfl | hr
      · rw [hs'.others r hq, hself]
      · rw [hs'.ticked r hr, hother r (hne r hr)]
    · rw [List.mem_cons, not_or] at hr
      rw [hs'.others r hr.2, hother r hr.1]
    · rw [hs'.mp1ListHead, hbody]
    · rw [hs'.vmem, hdatas, hbody]
      rfl

/-! ## The calls -/

variable {n : Nat} {a : Blinks}

theorem datas_congr {s s' : Blinker}
    (h : ∀ q ∈ qs, (s'.blinkArray q).data = (s.blinkArray q).data) : s'.datas qs = s.datas qs :=
  List.map_congr_left h

/-- What a call leaves represents what the call means on the list. -/
def Refines (n : Nat) (s : Blinker) (qs : List Slot) (c : BlinkCall) : Prop :=
  ∃ s', s.call n c = some (((⟨s.datas qs, s.vmem⟩ : Blinks).call c).1, s') ∧
    s'.Represents ((⟨s.datas qs, s.vmem⟩ : Blinks).call c).2

theorem Nodes.tasklet (h : s.Nodes qs) (hn : 2000 < n) : Refines n s qs .tasklet := by
  obtain ⟨s', hloop, hs'⟩ := taskletLoop_eq h.chain h.nodup (n := n) (by
    have := h.length_le
    omega)
  refine ⟨s', ?_, qs, ⟨?_, h.nodup, fun q => ?_⟩, ?_⟩
  · simp only [call, mp1RtcTasklet, hloop]
    rfl
  · rw [hs'.mp1ListHead]
    refine h.chain.congr fun q hq => ?_
    rw [hs'.ticked q hq]
  · rw [h.used]
    by_cases hq : q ∈ qs
    · rw [hs'.ticked q hq]
      simp
    · rw [hs'.others q hq]
  · have hmap : s'.datas qs = (s.datas qs).map BlinkStruct.tick := by
      unfold datas
      rw [List.map_map]
      exact List.map_congr_left fun q hq => by rw [hs'.ticked q hq]; rfl
    rw [hmap, hs'.vmem]
    rfl

theorem Nodes.add (h : s.Nodes qs) (n : Nat) {arg : BlinkStruct} (h0 : arg.location ≠ 0) :
    Refines n s qs (.add arg) := by
  have hlen : (s.datas qs).length = qs.length := List.length_map _
  simp only [Refines, call, mp1IoctlAdd, Blinks.call, hlen]
  by_cases hloc : 2000 ≤ arg.location.toNat
  · rw [if_pos hloc, if_pos (Or.inl hloc)]
    exact ⟨s, rfl, qs, h, rfl⟩
  · rw [if_neg hloc]
    rcases mp1Malloc_eq h with ⟨hfull, hm⟩ | ⟨q, hroom, hm, hq⟩
    · rw [if_pos (Or.inr hfull), hm]
      exact ⟨s, rfl, qs, h, rfl⟩
    · rw [if_neg (by omega), hm]
      let s' := { s.setNode q ⟨arg.started, s.mp1ListHead⟩ with mp1ListHead := some q }.mp1Poke
        arg.offset arg.onChar
      refine ⟨s', rfl, q :: qs, ⟨?_, List.nodup_cons.mpr ⟨hq, h.nodup⟩, fun r => ?_⟩, ?_⟩
      · have hlinks : (fun r => (s'.blinkArray r).next) =
            Function.update (fun r => (s.blinkArray r).next) q s.mp1ListHead := by
          funext r
          by_cases hr : r = q
          · subst hr
            simp [s', setNode, mp1Poke]
          · simp [s', setNode, mp1Poke, hr]
        rw [hlinks]
        exact h.chain.push hq
      · by_cases hr : r = q
        · subst hr
          simpa [s', setNode, mp1Poke, BlinkStruct.started] using h0
        · simp [s', setNode, mp1Poke, hr, h.used]
      · have hrest : ∀ r ∈ qs, r ≠ q := by
          rintro r hr rfl
          exact hq hr
        simp only [s', datas, List.map_cons, mp1Poke, setNode, Function.update_self,
          Blinks.mk.injEq, List.cons.injEq]
        refine ⟨⟨trivial, ?_⟩, trivial⟩
        exact List.map_congr_left fun r hr => by rw [Function.update_of_ne (hrest r hr)]

/-- `mp1_find_helper` finds the first node with the location. -/
theorem Nodes.find (h : s.Nodes qs) (hn : 2000 < n) (location : BitVec 16) :
    ((s.datas qs).find? (At location) = none ∧
      s.findHelper location n s.mp1ListHead = some none) ∨
    ∃ l q m, qs = l ++ q :: m ∧ (∀ r ∈ l, At location (s.blinkArray r).data = false) ∧
      At location (s.blinkArray q).data = true ∧
      (s.datas qs).find? (At location) = some (s.blinkArray q).data ∧
      s.findHelper location n s.mp1ListHead = some (some q) := by
  have hloop := findHelper_eq location h.chain (n := n) (by
    have := h.length_le
    omega)
  have hmap : (s.datas qs).find? (At location) =
      (qs.find? fun q => At location (s.blinkArray q).data).map fun q => (s.blinkArray q).data :=
    List.find?_map ..
  rw [hloop, hmap]
  cases hf : qs.find? fun q => At location (s.blinkArray q).data with
  | none => exact Or.inl ⟨rfl, rfl⟩
  | some q =>
    obtain ⟨hq, l, m, hl, hfirst⟩ := List.find?_eq_some_iff_append.mp hf
    exact Or.inr ⟨l, q, m, hl, fun r hr => by simpa using hfirst r hr, hq, rfl, rfl⟩

theorem Nodes.findCall (h : s.Nodes qs) (hn : 2000 < n) (location : BitVec 16) :
    Refines n s qs (.find location) := by
  rcases h.find hn location with ⟨hnone, hhelper⟩ | ⟨l, q, m, _, _, _, hsome, hhelper⟩
  · simp only [Refines, call, mp1IoctlFind, hhelper, Blinks.call, hnone]
    exact ⟨s, rfl, qs, h, rfl⟩
  · simp only [Refines, call, mp1IoctlFind, hhelper, Blinks.call, hsome]
    exact ⟨s, rfl, qs, h, rfl⟩

theorem Nodes.remove (h : s.Nodes qs) (hn : 2000 < n) (arg : BitVec 32) :
    Refines n s qs (.remove arg) := by
  have hlen := h.length_le
  rcases h.find hn (arg.setWidth 16) with
    ⟨hnone, hhelper⟩ | ⟨l, q, m, hqs, hbefore, hq, hsome, hhelper⟩
  · have hany : (s.datas qs).any (At (arg.setWidth 16)) = false := by
      rw [List.any_eq_false]
      exact List.find?_eq_none.mp hnone
    simp only [Refines, call, mp1IoctlRemove, hhelper, Blinks.call, hany]
    exact ⟨s, rfl, qs, h, rfl⟩
  · subst hqs
    have hany : (s.datas (l ++ q :: m)).any (At (arg.setWidth 16)) = true := by
      rw [List.any_eq_true]
      exact ⟨_, List.mem_of_find?_eq_some hsome, List.find?_some hsome⟩
    have herase : (s.datas (l ++ q :: m)).eraseP (At (arg.setWidth 16)) = s.datas (l ++ m) := by
      unfold datas
      rw [List.map_append, List.eraseP_append_right _ (by simpa using hbefore), List.map_cons,
        List.eraseP_cons_of_pos hq, List.map_append]
    have hnodup := h.nodup
    have hql : q ∉ l := by
      intro hmem
      exact List.disjoint_of_nodup_append hnodup hmem (by simp)
    have hqm : q ∉ m := (List.nodup_cons.mp (List.nodup_append.mp hnodup).2.1).1
    have hsub : (l ++ m).Nodup := hnodup.sublist (by simp)
    have hprev : s.removeFindPrev q n none = some (l.getLast?.or none) :=
      removeFindPrev_eq h.chain hql (by
        rw [List.length_append] at hlen
        omega)
    rw [Option.or_none] at hprev
    -- it is enough to look at the links; the structures of the other nodes are kept
    have hdone : ∀ s' : Blinker, s.setLink (s.blinkArray q).next l.getLast? = s' →
        (∀ r, (s'.blinkArray r).data = (s.blinkArray r).data) → s'.vmem = s.vmem →
        Chain (fun r => (s'.blinkArray r).next) s'.mp1ListHead (l ++ m) →
          Refines n s (l ++ q :: m) (.remove arg) := by
      intro s' hs' hdata hvmem hchain
      have hqlm : q ∉ l ++ m := by simp [hql, hqm]
      simp only [Refines, call, mp1IoctlRemove, hhelper, Blinks.call, hany, if_true, herase,
        Option.bind_some, hprev, Option.map_some, hs']
      refine ⟨_, rfl, l ++ m, ⟨?_, hsub, fun r => ?_⟩, ?_⟩
      · refine hchain.congr fun r hr => ?_
        have hne : r ≠ q := by
          rintro rfl
          exact hqlm hr
        simp [mp1Free, setNode, hne]
      · by_cases hr : r = q
        · subst hr
          simp [mp1Free, setNode, BlinkStruct.zero, hql, hqm]
        · have hused := h.used r
          simp only [List.mem_append, List.mem_cons, hr, false_or] at hused
          simp [mp1Free, setNode, hr, hdata, hused]
      · have hdatas : (s'.mp1Free q).datas (l ++ m) = s.datas (l ++ m) := by
          refine datas_congr fun r hr => ?_
          have hne : r ≠ q := by
            rintro rfl
            exact hqlm hr
          simp [mp1Free, setNode, hne, hdata]
        rw [hdatas]
        simp [mp1Free, setNode, hvmem]
    rcases List.eq_nil_or_concat l with rfl | ⟨l', p, rfl⟩
    · exact hdone _ rfl (fun _ => rfl) rfl h.chain.2
    · rw [List.concat_eq_append] at hql hnodup hdone h ⊢
      have hpq : p ≠ q := by
        rintro rfl
        exact hql (by simp)
      have hchain := h.chain
      rw [List.append_assoc, List.singleton_append] at hchain hnodup
      have hunlink := hchain.unlink hnodup
      refine hdone _ rfl (fun r => ?_) ?_ ?_
      · by_cases hr : r = p
        · subst hr
          simp [setLink, setNode]
        · simp [setLink, setNode, hr]
      · simp [setLink, setNode]
      · have hlinks : (fun r => ((s.setLink (s.blinkArray q).next
            (l' ++ [p]).getLast?).blinkArray r).next) =
            Function.update (fun r => (s.blinkArray r).next) p (s.blinkArray q).next := by
          funext r
          by_cases hr : r = p
          · subst hr
            simp [setLink, setNode]
          · simp [setLink, setNode, hr]
        rw [hlinks, List.append_assoc, List.singleton_append]
        simpa [setLink, setNode] using hunlink

theorem updateFirst_append {α : Type} {p : α → Bool} {f : α → α} {l m : List α} {a : α}
    (hl : ∀ b ∈ l, p b = false) (ha : p a = true) :
    updateFirst p f (l ++ a :: m) = l ++ f a :: m := by
  induction l with
  | nil => simp [updateFirst, ha]
  | cons b l ih =>
    rw [List.cons_append, updateFirst, hl b (by simp)]
    simp only [Bool.false_eq_true, if_false, List.cons_append]
    rw [ih fun c hc => hl c (List.mem_cons_of_mem _ hc)]

theorem Nodes.sync (h : s.Nodes qs) (hn : 2000 < n) (arg : BitVec 32) :
    Refines n s qs (.sync arg) := by
  rcases h.find hn ((arg >>> 16).setWidth 16) with
    ⟨hnone, hhelper⟩ | ⟨_, esi, _, _, _, _, hsource, hesi⟩
  · simp only [Refines, call, mp1IoctlSync, hhelper, Blinks.call, hnone]
    exact ⟨s, rfl, qs, h, rfl⟩
  rcases h.find hn ((arg &&& 0xFFFF).setWidth 16) with
    ⟨hnone, hhelper⟩ | ⟨l, edi, m, hqs, hbefore, hedi, htarget, hhelper⟩
  · simp only [Refines, call, mp1IoctlSync, hesi, hhelper, Blinks.call, hsource, hnone]
    exact ⟨s, rfl, qs, h, rfl⟩
  simp only [Refines, call, mp1IoctlSync, hesi, hhelper, Blinks.call, hsource, htarget,
    Option.bind_some, Option.map_some]
  let b := (s.blinkArray esi).data.synced (s.blinkArray edi).data
  let s' := (s.setData edi b).mp1Poke b.offset b.offChar
  have hnext : ∀ r, (s'.blinkArray r).next = (s.blinkArray r).next := by
    intro r
    by_cases hr : r = edi
    · subst hr
      simp [s', mp1Poke, setData, setNode]
    · simp [s', mp1Poke, setData, setNode, hr]
  have hother : ∀ r, r ≠ edi → (s'.blinkArray r).data = (s.blinkArray r).data := by
    intro r hr
    simp [s', mp1Poke, setData, setNode, hr]
  have hself : (s'.blinkArray edi).data = b := by
    simp [s', mp1Poke, setData, setNode]
  refine ⟨s', rfl, qs, ⟨?_, h.nodup, fun r => ?_⟩, ?_⟩
  · exact h.chain.congr fun r _ => hnext r
  · rw [h.used]
    by_cases hr : r = edi
    · subst hr
      rw [hself]
      rfl
    · rw [hother r hr]
  · subst hqs
    have hnodup := h.nodup
    have hl : edi ∉ l := by
      intro hmem
      exact List.disjoint_of_nodup_append hnodup hmem (by simp)
    have hm : edi ∉ m := (List.nodup_cons.mp (List.nodup_append.mp hnodup).2.1).1
    have hdl : s'.datas l = s.datas l := datas_congr fun r hr => hother r (by
      rintro rfl
      exact hl hr)
    have hdm : s'.datas m = s.datas m := datas_congr fun r hr => hother r (by
      rintro rfl
      exact hm hr)
    have hsplit : ∀ t : Blinker, t.datas (l ++ edi :: m) =
        t.datas l ++ (t.blinkArray edi).data :: t.datas m := fun t => by
      simp [datas]
    rw [hsplit, hsplit, updateFirst_append (by simpa [datas] using hbefore) hedi, hdl, hdm, hself]
    rfl

end Blinker

/-! ## Every run -/

/-- A structure is not added at location 0. -/
def BlinkCall.Placed : BlinkCall → Prop
  | .add arg => arg.location ≠ 0
  | _ => True

namespace Blinker

variable {s : Blinker} {n : Nat} {a : Blinks} {c : BlinkCall}

theorem Represents.call (h : s.Represents a) (hn : 2000 < n) (hc : c.Placed) :
    ∃ s', s.call n c = some ((a.call c).1, s') ∧ s'.Represents (a.call c).2 := by
  obtain ⟨qs, hqs, rfl⟩ := h
  cases c with
  | tasklet => exact hqs.tasklet hn
  | add arg => exact hqs.add n hc
  | remove arg => exact hqs.remove hn arg
  | find location => exact hqs.findCall hn location
  | sync arg => exact hqs.sync hn arg

def step (n : Nat) (s : Blinker) (c : BlinkCall) : Option Blinker := (s.call n c).map Prod.snd

/-- The blinker together with the list. -/
def listStep (n : Nat) : Blinker × Blinks → BlinkCall → Option (Blinker × Blinks) :=
  withHistory (step n) fun _ c a => (a.call c).2

/-- The list is empty. -/
def ListStart (s : Blinker × Blinks) : Prop := s.1.Start ∧ s.2 = ⟨[], s.1.vmem⟩

theorem ListStart.represents {s : Blinker × Blinks} (h : ListStart s) : s.1.Represents s.2 := by
  obtain ⟨hstart, ha⟩ := h
  refine ⟨[], ⟨hstart.mp1ListHead, List.nodup_nil, fun q => ?_⟩, ha⟩
  rw [hstart.blinkArray]
  simp [BlinkStruct.zero]

/-- In every run of calls that add nothing at location 0, the nodes represent the list: each call
ends, returns what it returns on the list, and changes list and screen alike. -/
theorem blinker_refines_list (n : Nat) (hn : 2000 < n) (s : Blinker × Blinks)
    (h : Reach (listStep n) ListStart (fun _ c => c.Placed) s) :
    s.1.Represents s.2 ∧ ∀ c, c.Placed → ∃ s', s.1.call n c = some ((s.2.call c).1, s') ∧
      s'.Represents (s.2.call c).2 := by
  have hrep : s.1.Represents s.2 := by
    refine h.inv (I := fun s => s.1.Represents s.2) (fun s hs => hs.represents) ?_
    rintro ⟨s, a⟩ c ⟨s', a'⟩ hi hc hs
    obtain ⟨hstep, rfl⟩ := withHistory_eq_some.mp hs
    obtain ⟨t, hcall, ht⟩ := Represents.call hi hn hc
    rw [step, hcall] at hstep
    cases hstep
    exact ht
  exact ⟨hrep, fun c hc => hrep.call hn hc⟩

/-- Nothing blinks. -/
def still : Blinker := ⟨fun _ => ⟨.zero, none⟩, none, fun _ => 0⟩

theorem listStart_still : ListStart (still, ⟨[], still.vmem⟩) := ⟨⟨fun _ => rfl, rfl⟩, rfl⟩

/-- `c` at the given location, on for three ticks and off for two. -/
def blinkAt (location : BitVec 16) (c : UInt8) : BlinkStruct := ⟨location, c, 32, 3, 2, 0, 0⟩

/-- Two characters are added and the first one is removed; one is left. -/
theorem blinker_refines_list_two : ∃ s : Blinker × Blinks, s.2.list.length = 1 ∧
    s.1.Represents s.2 := by
  have hrun : (run (listStep 2001) (still, ⟨[], still.vmem⟩)
      [.add (blinkAt 40 65), .add (blinkAt 41 66), .tasklet, .remove 40]).map
        (fun s => s.2.list.length) = some 1 := by
    decide +kernel
  obtain ⟨s, hs, hlen⟩ := Option.map_eq_some_iff.mp hrun
  refine ⟨s, hlen, (blinker_refines_list 2001 (by decide) s
    (Reach.of_run (.init listStart_still) ?_ hs)).1⟩
  refine EventSystem.Allowed.of_forall (fun c hc s => ?_) _
  simp only [List.mem_cons, List.not_mem_nil, or_false] at hc
  rcases hc with rfl | rfl | rfl | rfl
  · exact show ¬ (40 : BitVec 16) = 0 by decide
  · exact show ¬ (41 : BitVec 16) = 0 by decide
  · trivial
  · trivial

/-! ## Location 0 -/

theorem mp1Malloc_again {q : Slot} {b : BlinkNode} (h : s.mp1Malloc = some q)
    (hb : b.data.location = 0) {s' : Blinker}
    (hs : s'.blinkArray = Function.update s.blinkArray q b) : s'.mp1Malloc = some q := by
  obtain ⟨_, l, m, hl, hbefore⟩ := List.find?_eq_some_iff_append.mp h
  refine List.find?_eq_some_iff_append.mpr ⟨?_, l, m, hl, fun r hr => ?_⟩
  · rw [hs, Function.update_self]
    simpa using hb
  · have hne : r ≠ q := by
      rintro rfl
      have hnodup := List.nodup_finRange 2000
      rw [hl] at hnodup
      exact List.disjoint_of_nodup_append hnodup hr (by simp)
    rw [hs, Function.update_of_ne hne]
    exact hbefore r hr

/-- A node that links to itself. -/
theorem taskletLoop_cycle {q : Slot} : ∀ {n : Nat} {s : Blinker},
    (s.blinkArray q).next = some q → taskletLoop n (some q) s = none := by
  intro n
  induction n with
  | zero => intro s _; rfl
  | succ n ih =>
    intro s h
    have hnext : ((s.taskletBody q).blinkArray q).next = some q := by
      rw [taskletBody_eq]
      simpa using h
    rw [taskletLoop]
    simp only [hnext]
    exact ih hnext

theorem findHelper_cycle {q : Slot} {location : BitVec 16} (h : (s.blinkArray q).next = some q)
    (hne : (s.blinkArray q).data.location ≠ location) : ∀ n,
      s.findHelper location n (some q) = none := by
  intro n
  induction n with
  | zero => rfl
  | succ n ih => rw [findHelper, if_neg hne, h, ih]

/-- A structure is added at location 0, and then another one. Both calls succeed, but the second one
gets the slot of the first, stores over it and links it to itself. A tick then never ends, and neither
does a search for any other location. -/
theorem location_zero_hangs (s : Blinker) (a : Blinks) (h : s.Represents a)
    (hroom : a.list.length < 2000) (arg₀ arg : BlinkStruct) (h0 : arg₀.location = 0)
    (hloc : arg.location.toNat < 2000) :
    let s₁ := (s.mp1IoctlAdd arg₀).2
    let s₂ := (s₁.mp1IoctlAdd arg).2
    (s.mp1IoctlAdd arg₀).1 = 0 ∧ (s₁.mp1IoctlAdd arg).1 = 0 ∧
      (∃ q, s₁.mp1ListHead = some q ∧ (s₁.blinkArray q).data = arg₀.started ∧
        s₂.mp1ListHead = some q ∧ s₂.blinkArray q = ⟨arg.started, some q⟩) ∧
      ∀ n, s₂.call n .tasklet = none ∧
        ∀ location, location ≠ arg.location → s₂.call n (.find location) = none := by
  intro s₁ s₂
  obtain ⟨qs, hqs, rfl⟩ := h
  have hlen : qs.length < 2000 := by
    simpa [datas] using hroom
  obtain ⟨q, hm⟩ : ∃ q, s.mp1Malloc = some q := by
    rcases mp1Malloc_eq hqs with ⟨hfull, _⟩ | ⟨q, _, hm, _⟩
    · omega
    · exact ⟨q, hm⟩
  have hzero : ¬ 80 * 25 ≤ arg₀.location.toNat := by
    rw [h0]
    decide
  obtain ⟨harray₁, hhead₁, hret₁⟩ :
      s₁.blinkArray = Function.update s.blinkArray q ⟨arg₀.started, s.mp1ListHead⟩ ∧
        s₁.mp1ListHead = some q ∧ (s.mp1IoctlAdd arg₀).1 = 0 := by
    simp only [s₁, mp1IoctlAdd, if_neg hzero, hm]
    exact ⟨rfl, rfl, trivial⟩
  have hm₁ : s₁.mp1Malloc = some q := mp1Malloc_again hm h0 harray₁
  obtain ⟨hnode₂, hhead₂, hret₂⟩ : s₂.blinkArray q = ⟨arg.started, some q⟩ ∧
      s₂.mp1ListHead = some q ∧ (s₁.mp1IoctlAdd arg).1 = 0 := by
    simp only [s₂, mp1IoctlAdd, if_neg (show ¬ 80 * 25 ≤ arg.location.toNat by omega), hm₁, hhead₁]
    exact ⟨by simp [mp1Poke, setNode, BlinkStruct.started], rfl, trivial⟩
  have hnext : (s₂.blinkArray q).next = some q := by rw [hnode₂]
  refine ⟨hret₁, hret₂, ⟨q, hhead₁, by rw [harray₁, Function.update_self], hhead₂, hnode₂⟩,
    fun n => ⟨?_, fun location hne => ?_⟩⟩
  · simp only [call, mp1RtcTasklet, hhead₂, taskletLoop_cycle hnext, Option.map_none]
  · have hother : (s₂.blinkArray q).data.location ≠ location := by
      rw [hnode₂]
      exact fun heq => hne heq.symm
    simp only [call, mp1IoctlFind, hhead₂, findHelper_cycle hnext hother, Option.map_none]

theorem location_zero_hangs_still : (still.mp1IoctlAdd (blinkAt 0 65)).1 = 0 ∧ ∀ n,
    ((still.mp1IoctlAdd (blinkAt 0 65)).2.mp1IoctlAdd (blinkAt 40 66)).2.call n .tasklet = none := by
  obtain ⟨hfirst, _, _, hhangs⟩ := location_zero_hangs still ⟨[], still.vmem⟩
    listStart_still.represents (by decide) (blinkAt 0 65) (blinkAt 40 66) rfl (by decide)
  exact ⟨hfirst, fun n => (hhangs n).1⟩

end Blinker
end DeviceOS
