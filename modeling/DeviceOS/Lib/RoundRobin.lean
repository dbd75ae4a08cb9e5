import Mathlib.Data.Fin.Basic
import Mathlib.Algebra.Group.Fin.Basic
import Mathlib.Algebra.GroupWithZero.Nat
import Mathlib.Order.Fin.Basic

/-!
# Lib.RoundRobin

Round robin on `n + 1` places, some of which are skipped.

* `dist s t`: the number of turns from `s` on to `t`.
* `search skip start`: from a place on, the first one that is not skipped; it gives up at `start`.
* `search_none`, `search_closer`: a place that is not skipped stops the search, and the place found
  is not past it.
* `next_found`, `next_closer`: the same for a search that starts after the place it gives up at. So
  the distance to a place that is never skipped falls with every selection until it is selected.
-/

namespace RoundRobin

variable {n : Nat}

def dist (s t : Fin (n + 1)) : Nat := if s ≤ t then t.val - s.val else n + 1 + t.val - s.val

@[simp] theorem dist_self (s : Fin (n + 1)) : dist s s = 0 := by simp [dist]

theorem dist_lt (s t : Fin (n + 1)) : dist s t < n + 1 := by
  have := s.isLt
  have := t.isLt
  simp only [dist, Fin.le_def]
  split <;> omega

theorem val_succ (s : Fin (n + 1)) : (s + 1).val = if s.val = n then 0 else s.val + 1 := by
  rw [Fin.val_add_one]
  by_cases hl : s = Fin.last n
  · have hv : s.val = n := by rw [hl]; rfl
    rw [if_pos hl, if_pos hv]
  · have hv : s.val ≠ n := fun hv => hl (Fin.ext hv)
    rw [if_neg hl, if_neg hv]

/-- One turn brings every other place closer. -/
theorem dist_succ {s t : Fin (n + 1)} (h : s ≠ t) : dist (s + 1) t + 1 = dist s t := by
  have hne : s.val ≠ t.val := fun hv => h (Fin.ext hv)
  have hs := s.isLt
  have ht := t.isLt
  simp only [dist, Fin.le_def, val_succ]
  split
  · split <;> split <;> omega
  · split <;> split <;> omega

/-- The place before is the last one that a round comes to. -/
theorem dist_succ_self (s : Fin (n + 1)) : dist (s + 1) s = n := by
  have hs := s.isLt
  simp only [dist, Fin.le_def, val_succ]
  split
  · split <;> omega
  · split <;> omega

/-- With at most `fuel` turns. -/
def search [NeZero n] (skip : Fin n → Bool) (start : Option (Fin n)) : Nat → Fin n → Option (Fin n)
  | 0, _ => none
  | fuel + 1, t =>
    if some t = start then none
    else if skip t then search skip start fuel (t + 1)
    else some t

variable {skip : Fin (n + 1) → Bool} {start : Option (Fin (n + 1))} {fuel : Nat}
  {s t v : Fin (n + 1)}

theorem search_some (h : search skip start fuel s = some v) : skip v = false ∧ start ≠ some v := by
  induction fuel generalizing s with
  | zero => cases h
  | succ fuel ih =>
    rw [search] at h
    split at h
    · cases h
    · rename_i hstart
      split at h
      · exact ih h
      · rename_i hskip
        cases h
        exact ⟨by simpa using hskip, fun heq => hstart heq.symm⟩

/-- The search does not pass a place that is not skipped. -/
theorem search_closer (h : search skip start fuel s = some v) (ht : skip t = false) :
    dist v t ≤ dist s t := by
  induction fuel generalizing s with
  | zero => cases h
  | succ fuel ih =>
    rw [search] at h
    split at h
    · cases h
    · split at h
      · rename_i hskip
        have hst : s ≠ t := by
          rintro rfl
          rw [ht] at hskip
          cases hskip
        have hle := ih h
        have := dist_succ hst
        omega
      · cases h
        exact le_refl _

/-- A search that gives up has come to `start` before a place that is not skipped. -/
theorem search_none (h : search skip start fuel s = none) (ht : skip t = false)
    (hfuel : dist s t < fuel) : ∃ u, start = some u ∧ dist s u ≤ dist s t := by
  induction fuel generalizing s with
  | zero => omega
  | succ fuel ih =>
    rw [search] at h
    split at h
    · rename_i hstart
      exact ⟨s, hstart.symm, by simp⟩
    · split at h
      · rename_i hskip
        have hst : s ≠ t := by
          rintro rfl
          rw [ht] at hskip
          cases hskip
        have hdist := dist_succ hst
        obtain ⟨u, hu, hle⟩ := ih h (by omega)
        refine ⟨u, hu, ?_⟩
        by_cases hsu : s = u
        · subst hsu
          simp
        · have := dist_succ hsu
          omega
      · cases h

/-! ## From one selection to the next -/

theorem next_found (hst : s ≠ t) (ht : skip t = false) :
    search skip (some s) (n + 1) (s + 1) ≠ none := by
  intro h
  have hdist := dist_succ hst
  have hlt := dist_lt s t
  obtain ⟨u, hu, hle⟩ := search_none h ht (dist_lt _ _)
  cases hu
  rw [dist_succ_self] at hle
  omega

theorem next_closer (hst : s ≠ t) (ht : skip t = false)
    (h : search skip (some s) (n + 1) (s + 1) = some v) : dist v t < dist s t := by
  have hle := search_closer h ht
  have hdist := dist_succ hst
  omega

end RoundRobin
