import Mathlib.Tactic.Common

/-!
# Lib.AccessLog

Computations that keep a log of the places they access.

* `Logged A R`: the accesses, in the order in which they are made, and the result. `access a x`
  makes one access and goes on with `x`; `bind` runs one computation after the other, `foldl` one
  for each element of a list. `bindSome` is for computations that may fail.
* `Within P x`: every access satisfies `P`. `within_access`, `within_bind`: one access at a time,
  and one computation after the other. `Within.mono`: into a larger set of places.
-/

namespace AccessLog

variable {A R S : Type*} {P Q : A → Prop}

structure Logged (A R : Type*) where
  log : List A
  result : R

namespace Logged

/-- A result without any access. -/
def done (r : R) : Logged A R := ⟨[], r⟩

def access (a : A) (x : Logged A R) : Logged A R := ⟨a :: x.log, x.result⟩

def map (f : R → S) (x : Logged A R) : Logged A S := ⟨x.log, f x.result⟩

def bind (x : Logged A R) (f : R → Logged A S) : Logged A S :=
  ⟨x.log ++ (f x.result).log, (f x.result).result⟩

def foldl (f : R → S → Logged A R) : R → List S → Logged A R
  | r, [] => done r
  | r, s :: ss => (f r s).bind fun r' => foldl f r' ss

def bindSome (x : Logged A (Option R)) (f : R → Logged A (Option S)) : Logged A (Option S) :=
  x.bind fun
    | none => done none
    | some r => f r

def Within (P : A → Prop) (x : Logged A R) : Prop := ∀ a ∈ x.log, P a

@[simp] theorem result_done (r : R) : (done r : Logged A R).result = r := rfl

@[simp] theorem result_access (a : A) (x : Logged A R) : (access a x).result = x.result := rfl

@[simp] theorem result_map (f : R → S) (x : Logged A R) : (x.map f).result = f x.result := rfl

@[simp] theorem result_bind (x : Logged A R) (f : R → Logged A S) :
    (x.bind f).result = (f x.result).result := rfl

@[simp] theorem within_done (r : R) : (done r : Logged A R).Within P := by
  intro a ha
  cases ha

@[simp] theorem within_access (a : A) (x : Logged A R) :
    (access a x).Within P ↔ P a ∧ x.Within P := by
  simp [Within, access]

@[simp] theorem within_map (f : R → S) (x : Logged A R) : (x.map f).Within P ↔ x.Within P :=
  Iff.rfl

@[simp] theorem within_bind (x : Logged A R) (f : R → Logged A S) :
    (x.bind f).Within P ↔ x.Within P ∧ (f x.result).Within P := by
  constructor
  · intro h
    exact ⟨fun a ha => h a (List.mem_append_left _ ha),
      fun a ha => h a (List.mem_append_right _ ha)⟩
  · rintro ⟨hx, hf⟩ a ha
    rcases List.mem_append.1 ha with h | h
    · exact hx a h
    · exact hf a h

theorem result_foldl {f : R → S → Logged A R} {g : R → S → R} (h : ∀ r s, (f r s).result = g r s)
    (ss : List S) (r : R) : (foldl f r ss).result = ss.foldl g r := by
  induction ss generalizing r with
  | nil => rfl
  | cons s ss ih => rw [foldl, result_bind, ih, h, List.foldl_cons]

theorem within_foldl {f : R → S → Logged A R} {ss : List S}
    (h : ∀ r, ∀ s ∈ ss, (f r s).Within P) (r : R) : (foldl f r ss).Within P := by
  induction ss generalizing r with
  | nil => exact within_done r
  | cons s ss ih =>
    rw [foldl, within_bind]
    exact ⟨h r s (List.mem_cons_self ..),
      ih (fun r' s' hs' => h r' s' (List.mem_cons_of_mem _ hs')) _⟩

theorem result_bindSome {x : Logged A (Option R)} {r : R} (h : x.result = some r)
    (f : R → Logged A (Option S)) : (x.bindSome f).result = (f r).result := by
  rw [bindSome, result_bind, h]

theorem within_bindSome {x : Logged A (Option R)} {r : R} (h : x.result = some r)
    (f : R → Logged A (Option S)) :
    (x.bindSome f).Within P ↔ x.Within P ∧ (f r).Within P := by
  rw [bindSome, within_bind, h]

theorem Within.mono {x : Logged A R} (h : x.Within P) (hPQ : ∀ a, P a → Q a) : x.Within Q := by
  intro a ha
  exact hPQ a (h a ha)

end Logged
end AccessLog
