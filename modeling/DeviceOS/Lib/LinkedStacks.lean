import Mathlib.Data.Fintype.Card
import Mathlib.Logic.Function.Basic

/-!
# Lib.LinkedStacks

Families of stacks that are stored as parent links. Every index `t` has a stack of nodes; a table
`top` names its first node, and a table `parent` names, for each node, the one below it. The last
node of stack `t` is `root t`, and a root is its own parent.

* `Linked parent root l`: the list `l` follows the parent links down to `root`.
* `LinkedStacks parent root top A`: the tables store the family `A` of pairwise disjoint stacks.
* `parentChain parent n q`: the list read back from the links, at most `n` nodes.
* `LinkedStacks.cons`: a fresh node on top of a stack. `push`, `start`, `pop`: the updates of the two
  tables that push a node, start an empty stack and pop a node; every other stack is unchanged.
* `LinkedStacks.parentChain_eq`: reading the links back gives the stack.
-/

variable {τ π : Type*}

def Linked (parent : π → Option π) (root : π) : List π → Prop
  | [] => True
  | [b] => b = root ∧ parent b = some b
  | c :: d :: l => parent c = some d ∧ Linked parent root (d :: l)

theorem Linked.congr {parent parent' : π → Option π} {root : π} :
    ∀ {l : List π}, (∀ q ∈ l, parent' q = parent q) → Linked parent root l → Linked parent' root l
  | [], _, _ => trivial
  | [b], hp, h => ⟨h.1, by rw [hp b (by simp)]; exact h.2⟩
  | c :: d :: l, hp, h =>
    ⟨by rw [hp c (by simp)]; exact h.1,
      Linked.congr (fun q hq => hp q (List.mem_cons_of_mem _ hq)) h.2⟩

/-- The last node of a linked list is its root. -/
theorem Linked.root_mem {parent : π → Option π} {root : π} :
    ∀ {l : List π}, l ≠ [] → Linked parent root l → root ∈ l
  | [], hl, _ => absurd rfl hl
  | [b], _, h => by simp [h.1]
  | c :: d :: l, _, h => List.mem_cons_of_mem _ (Linked.root_mem (by simp) h.2)

/-- The nodes met by following at most `n` parent links from `q`; a node that is its own parent
ends the list. -/
def parentChain [DecidableEq π] (parent : π → Option π) : Nat → π → List π
  | 0, _ => []
  | n + 1, q =>
    match parent q with
    | none => [q]
    | some r => if r = q then [q] else q :: parentChain parent n r

theorem Linked.parentChain_eq [DecidableEq π] {parent : π → Option π} {root : π} :
    ∀ {n : Nat} {c : π} {l : List π}, Linked parent root (c :: l) → (c :: l).Nodup →
      (c :: l).length ≤ n → parentChain parent n c = c :: l := by
  intro n
  induction n with
  | zero => intro c l _ _ hn; simp at hn
  | succ n ih =>
    intro c l h hnd hn
    cases l with
    | nil => simp [parentChain, h.2]
    | cons d l =>
      have hne : d ≠ c := by
        rintro rfl
        simp at hnd
      simp only [parentChain, h.1, if_neg hne]
      rw [ih h.2 (List.nodup_cons.mp hnd).2 (by simpa using hn)]

structure LinkedStacks (parent : π → Option π) (root : τ → π) (top : τ → Option π)
    (A : τ → List π) : Prop where
  top_eq : ∀ t, (A t).head? = top t
  linked : ∀ t, Linked parent (root t) (A t)
  nodup : ∀ t, (A t).Nodup
  disjoint : ∀ t u q, q ∈ A t → q ∈ A u → t = u

namespace LinkedStacks

variable {parent parent' : π → Option π} {root : τ → π} {top : τ → Option π} {A : τ → List π}

theorem top_mem (h : LinkedStacks parent root top A) {t : τ} {c : π} (ht : top t = some c) :
    c ∈ A t := by
  rw [← h.top_eq] at ht
  exact List.mem_of_mem_head? ht

theorem top_inj (h : LinkedStacks parent root top A) {t u : τ} {c : π} (ht : top t = some c)
    (hu : top u = some c) : t = u :=
  h.disjoint t u c (h.top_mem ht) (h.top_mem hu)

theorem eq_cons (h : LinkedStacks parent root top A) {t : τ} {c : π} (ht : top t = some c) :
    ∃ l, A t = c :: l := by
  rw [← h.top_eq] at ht
  exact List.head?_eq_some_iff.mp ht

theorem eq_nil (h : LinkedStacks parent root top A) {t : τ} (ht : top t = none) : A t = [] := by
  rw [← h.top_eq] at ht
  exact List.head?_eq_none_iff.mp ht

/-- The top of a stack is its root, or its parent is the next node. -/
theorem top_cases (h : LinkedStacks parent root top A) {t : τ} {c : π} (ht : top t = some c) :
    (c = root t ∧ parent c = some c ∧ A t = [c]) ∨
      ∃ d l, parent c = some d ∧ d ≠ c ∧ A t = c :: d :: l := by
  obtain ⟨l, hl⟩ := h.eq_cons ht
  have hlk := h.linked t
  rw [hl] at hlk
  cases l with
  | nil => exact Or.inl ⟨hlk.1, hlk.2, hl⟩
  | cons d l =>
    refine Or.inr ⟨d, l, hlk.1, ?_, hl⟩
    rintro rfl
    have := h.nodup t
    simp [hl] at this

/-- Only the links of nodes on a stack matter. -/
theorem congr (h : LinkedStacks parent root top A)
    (hp : ∀ t, ∀ q ∈ A t, parent' q = parent q) : LinkedStacks parent' root top A :=
  ⟨h.top_eq, fun t => (h.linked t).congr (hp t), h.nodup, h.disjoint⟩

variable [DecidableEq τ]

/-- The nodes after `x` is put on the stack of `t`. -/
theorem mem_push {t u : τ} {x q : π} :
    q ∈ Function.update A t (x :: A t) u ↔ (u = t ∧ q = x) ∨ q ∈ A u := by
  by_cases hu : u = t
  · subst hu
    simp
  · simp [hu]

/-- No other nodes are on a stack after a top is removed. -/
theorem mem_of_pop {t u : τ} {q : π} (hq : q ∈ Function.update A t (A t).tail u) : q ∈ A u := by
  by_cases hu : u = t
  · subst hu
    rw [Function.update_self] at hq
    exact List.mem_of_mem_tail hq
  · rwa [Function.update_of_ne hu] at hq

/-- The top that is removed is on no stack any more. -/
theorem mem_pop_iff (h : LinkedStacks parent root top A) {t u : τ} {c q : π} {l : List π}
    (ht : A t = c :: l) : q ∈ Function.update A t (A t).tail u ↔ q ∈ A u ∧ q ≠ c := by
  have hnd := h.nodup t
  rw [ht] at hnd
  by_cases hu : u = t
  · subst hu
    rw [Function.update_self, ht, List.tail_cons]
    refine ⟨fun hq => ⟨List.mem_cons_of_mem c hq, ?_⟩, fun hq => ?_⟩
    · rintro rfl
      exact (List.nodup_cons.mp hnd).1 hq
    · exact (List.mem_cons.mp hq.1).resolve_left hq.2
  · rw [Function.update_of_ne hu]
    refine (and_iff_left_of_imp fun hq => ?_).symm
    rintro rfl
    exact hu (h.disjoint u t q hq (ht ▸ List.mem_cons_self))

/-- A fresh node `x` on the stack of `t`, linked to what is below it. -/
theorem cons (h : LinkedStacks parent root top A) {t : τ} {x : π} (hx : ∀ u, x ∉ A u)
    (hp : ∀ u, ∀ q ∈ A u, parent' q = parent q) (hlink : Linked parent' (root t) (x :: A t)) :
    LinkedStacks parent' root (Function.update top t (some x))
      (Function.update A t (x :: A t)) := by
  have h' := h.congr hp
  refine ⟨fun u => ?_, fun u => ?_, fun u => ?_, fun u v q hu hv => ?_⟩
  · by_cases hu : u = t
    · subst hu; simp
    · simp [hu, h'.top_eq]
  · by_cases hu : u = t
    · subst hu; rw [Function.update_self]; exact hlink
    · rw [Function.update_of_ne hu]; exact h'.linked u
  · by_cases hu : u = t
    · subst hu
      rw [Function.update_self]
      exact List.nodup_cons.mpr ⟨hx u, h.nodup u⟩
    · rw [Function.update_of_ne hu]; exact h.nodup u
  · rcases mem_push.mp hu with ⟨hut, hq⟩ | hu'
    · rcases mem_push.mp hv with ⟨hvt, _⟩ | hv'
      · rw [hut, hvt]
      · exact absurd (hq ▸ hv') (hx v)
    · rcases mem_push.mp hv with ⟨_, hq⟩ | hv'
      · exact absurd (hq ▸ hu') (hx u)
      · exact h.disjoint _ _ _ hu' hv'

/-- Pushing a fresh node `x` on the stack of `t`. -/
theorem push (h : LinkedStacks parent root top A) {t : τ} {c x : π} (ht : top t = some c)
    (hx : ∀ u, x ∉ A u) (hp : ∀ u, ∀ q ∈ A u, parent' q = parent q) (hpx : parent' x = some c) :
    LinkedStacks parent' root (Function.update top t (some x))
      (Function.update A t (x :: A t)) := by
  refine h.cons hx hp ?_
  obtain ⟨l, hl⟩ := h.eq_cons ht
  have hlinked := (h.congr hp).linked t
  rw [hl] at hlinked ⊢
  exact ⟨hpx, hlinked⟩

/-- Starting the empty stack of `t` with its root. -/
theorem start (h : LinkedStacks parent root top A) {t : τ} (ht : top t = none)
    (hx : ∀ u, root t ∉ A u) (hp : ∀ u, ∀ q ∈ A u, parent' q = parent q)
    (hpx : parent' (root t) = some (root t)) :
    LinkedStacks parent' root (Function.update top t (some (root t)))
      (Function.update A t (root t :: A t)) := by
  refine h.cons hx hp ?_
  rw [h.eq_nil ht]
  exact ⟨rfl, hpx⟩

/-- Popping the top of the stack of `t`. -/
theorem pop (h : LinkedStacks parent root top A) {t : τ} {c d : π} {l : List π}
    (ht : A t = c :: d :: l) :
    LinkedStacks parent root (Function.update top t (some d))
      (Function.update A t (A t).tail) := by
  have hlk := h.linked t
  have hnd := h.nodup t
  rw [ht] at hlk hnd
  refine ⟨fun u => ?_, fun u => ?_, fun u => ?_, fun u v q hu hv => ?_⟩
  · by_cases hu : u = t
    · subst hu; simp [ht]
    · simp [hu, h.top_eq]
  · by_cases hu : u = t
    · subst hu; rw [Function.update_self, ht]; exact hlk.2
    · rw [Function.update_of_ne hu]; exact h.linked u
  · by_cases hu : u = t
    · subst hu; rw [Function.update_self, ht]; exact (List.nodup_cons.mp hnd).2
    · rw [Function.update_of_ne hu]; exact h.nodup u
  · exact h.disjoint _ _ _ (mem_of_pop hu) (mem_of_pop hv)

omit [DecidableEq τ] in
/-- Reading the links back from the top gives the stack. -/
theorem parentChain_eq [DecidableEq π] [Fintype π] (h : LinkedStacks parent root top A) {t : τ}
    {c : π} (ht : top t = some c) {n : Nat} (hn : Fintype.card π ≤ n) :
    parentChain parent n c = A t := by
  obtain ⟨l, hl⟩ := h.eq_cons ht
  have hlk := h.linked t
  have hnd := h.nodup t
  rw [hl] at hlk hnd ⊢
  exact hlk.parentChain_eq hnd (le_trans (List.Nodup.length_le_card hnd) hn)

end LinkedStacks
