import Mathlib.Data.List.Nodup
import Mathlib.Logic.Function.Basic

/-!
# Lib.Chains

Singly linked lists in a table of links. `next q` is the link stored in node `q`, and a link is a
node or the end.

* `Chain next h l`: following the links from `h` on meets the nodes `l`, and then the end.
* `Chain.update`: a change of the link of a node outside of the list is not seen. `Chain.push`: a
  node in front. `Chain.unlink`: a node behind another one taken out. `Chain.rest`: the list from a
  node on.
* `Chain.unique`: the links determine the list.
-/

variable {π : Type*}

def Chain (next : π → Option π) : Option π → List π → Prop
  | h, [] => h = none
  | h, q :: l => h = some q ∧ Chain next (next q) l

namespace Chain

variable {next next' : π → Option π} {h : Option π} {q r : π} {l m : List π}

@[simp] theorem nil_iff : Chain next h [] ↔ h = none := Iff.rfl

@[simp] theorem cons_iff : Chain next h (q :: l) ↔ h = some q ∧ Chain next (next q) l := Iff.rfl

/-- Only the links of the nodes on the list matter. -/
theorem congr (hc : Chain next h l) (heq : ∀ q ∈ l, next' q = next q) : Chain next' h l := by
  induction l generalizing h with
  | nil => exact hc
  | cons q l ih =>
    obtain ⟨rfl, hc⟩ := hc
    refine ⟨rfl, ?_⟩
    rw [heq q (by simp)]
    exact ih hc fun r hr => heq r (List.mem_cons_of_mem _ hr)

theorem update [DecidableEq π] (hc : Chain next h l) (hq : q ∉ l) (v : Option π) :
    Chain (Function.update next q v) h l := by
  refine hc.congr fun r hr => Function.update_of_ne ?_ ..
  rintro rfl
  exact hq hr

theorem push [DecidableEq π] (hc : Chain next h l) (hq : q ∉ l) :
    Chain (Function.update next q h) (some q) (q :: l) := by
  refine ⟨rfl, ?_⟩
  rw [Function.update_self]
  exact hc.update hq h

theorem unique (hl : Chain next h l) (hm : Chain next h m) : l = m := by
  induction l generalizing h m with
  | nil =>
    cases hl
    cases m with
    | nil => rfl
    | cons r m => cases hm.1
  | cons q l ih =>
    obtain ⟨rfl, hl⟩ := hl
    cases m with
    | nil => cases hm
    | cons r m =>
      obtain ⟨hr, hm⟩ := hm
      cases hr
      rw [ih hl hm]

theorem rest (hc : Chain next h (l ++ q :: m)) : Chain next (next q) m := by
  induction l generalizing h with
  | nil => exact hc.2
  | cons r l ih => exact ih hc.2

/-- The node `r` behind `q` is taken out. -/
theorem unlink [DecidableEq π] (hc : Chain next h (l ++ q :: r :: m))
    (hn : (l ++ q :: r :: m).Nodup) :
    Chain (Function.update next q (next r)) h (l ++ q :: m) := by
  induction l generalizing h with
  | nil =>
    obtain ⟨rfl, _, hm⟩ := hc
    refine ⟨rfl, ?_⟩
    rw [Function.update_self]
    have hq := (List.nodup_cons.mp hn).1
    exact hm.update (fun hmem => hq (List.mem_cons_of_mem _ hmem)) _
  | cons p l ih =>
    obtain ⟨rfl, hc⟩ := hc
    obtain ⟨hp, hn⟩ := List.nodup_cons.mp hn
    refine ⟨rfl, ?_⟩
    have hne : p ≠ q := by
      rintro rfl
      exact hp (by simp)
    rw [Function.update_of_ne hne]
    exact ih hc hn

end Chain
