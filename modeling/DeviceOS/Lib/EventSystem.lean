import Mathlib.Logic.Relation

/-!
# Lib.EventSystem

Deterministic systems driven by events: `step : σ → ε → Option σ`, where `none` means that the
event cannot happen in that state (or that what it does has no meaning).

* `run step s es` executes a list of events.
* `Reach step init ok s`: `s` is reached from an initial state by events that all satisfy the
  condition `ok` in the state before them. `ok := fun _ _ => True` gives all reachable states.
* `Reach.inv`: the invariant rule. `Reach.of_run`: runs lead from reached states to reached states.
* `withHistory step record`: the same system with a variable that records its past.
-/

namespace EventSystem

variable {σ ε : Type*}

def run (step : σ → ε → Option σ) : σ → List ε → Option σ
  | s, [] => some s
  | s, e :: es => (step s e).bind fun s' => run step s' es

/-- Every event of the list satisfies `ok` in the state before it. -/
def Allowed (step : σ → ε → Option σ) (ok : σ → ε → Prop) : σ → List ε → Prop
  | _, [] => True
  | s, e :: es => ok s e ∧ ∀ s', step s e = some s' → Allowed step ok s' es

theorem Allowed.of_forall {step : σ → ε → Option σ} {ok : σ → ε → Prop} {es : List ε}
    (h : ∀ e ∈ es, ∀ s, ok s e) : ∀ s, Allowed step ok s es := by
  induction es with
  | nil => intro s; trivial
  | cons e es ih =>
    intro s
    exact ⟨h e (by simp) s, fun s' _ => ih (fun f hf => h f (List.mem_cons_of_mem _ hf)) s'⟩

inductive Reach (step : σ → ε → Option σ) (init : σ → Prop) (ok : σ → ε → Prop) : σ → Prop
  | init {s : σ} : init s → Reach step init ok s
  | step {s s' : σ} {e : ε} :
      Reach step init ok s → ok s e → step s e = some s' → Reach step init ok s'

theorem run_cons {step : σ → ε → Option σ} {s s' : σ} {e : ε} {es : List ε} :
    run step s (e :: es) = some s' ↔ ∃ s1, step s e = some s1 ∧ run step s1 es = some s' := by
  simp [run, Option.bind_eq_some_iff]

theorem run_append {step : σ → ε → Option σ} {es fs : List ε} {s s' : σ} :
    run step s (es ++ fs) = some s' ↔ ∃ s1, run step s es = some s1 ∧ run step s1 fs = some s' := by
  induction es generalizing s with
  | nil => simp [run]
  | cons e es ih =>
    simp only [List.cons_append, run_cons, ih]
    constructor
    · rintro ⟨s1, h1, s2, h2, h3⟩; exact ⟨s2, ⟨s1, h1, h2⟩, h3⟩
    · rintro ⟨s2, ⟨s1, h1, h2⟩, h3⟩; exact ⟨s1, h1, s2, h2, h3⟩

/-- In a run in which `check` accepts every event, every event is allowed. -/
theorem Allowed.of_checked {step : σ → ε → Option σ} {ok : σ → ε → Prop} {check : σ → ε → Bool}
    (hok : ∀ s e, check s e = true → ok s e) {es : List ε} : ∀ {s s' : σ},
      run (fun s e => if check s e then step s e else none) s es = some s' →
      Allowed step ok s es ∧ run step s es = some s' := by
  induction es with
  | nil => intro s s' hr; exact ⟨trivial, hr⟩
  | cons e es ih =>
    intro s s' hr
    obtain ⟨s1, hs, hr⟩ := run_cons.mp hr
    split at hs
    · rename_i hc
      obtain ⟨ha, hr⟩ := ih hr
      refine ⟨⟨hok s e hc, fun s2 hs2 => ?_⟩, run_cons.mpr ⟨s1, hs, hr⟩⟩
      rw [hs] at hs2
      cases hs2
      exact ha
    · cases hs

namespace Reach

variable {step : σ → ε → Option σ} {init : σ → Prop} {ok ok' : σ → ε → Prop}

/-- The invariant rule: what holds initially and is kept by every allowed step holds of every
state reached. -/
theorem inv {I : σ → Prop} (hinit : ∀ s, init s → I s)
    (hstep : ∀ s e s', I s → ok s e → step s e = some s' → I s') {s : σ}
    (h : Reach step init ok s) : I s := by
  induction h with
  | init h => exact hinit _ h
  | step _ hok hs ih => exact hstep _ _ _ ih hok hs

theorem mono (hok : ∀ s e, ok s e → ok' s e) {s : σ} (h : Reach step init ok s) :
    Reach step init ok' s := by
  induction h with
  | init h => exact .init h
  | step _ h hs ih => exact .step ih (hok _ _ h) hs

/-- A run whose events are all allowed leads from a reached state to a reached state. -/
theorem of_run {es : List ε} : ∀ {s s' : σ}, Reach step init ok s → Allowed step ok s es →
    run step s es = some s' → Reach step init ok s' := by
  induction es with
  | nil => intro s s' h _ hr; cases hr; exact h
  | cons e es ih =>
    intro s s' h ha hr
    obtain ⟨s1, hs, hr⟩ := run_cons.mp hr
    exact ih (.step h ha.1 hs) (ha.2 _ hs) hr

/-- When every event is allowed, so is every run. -/
theorem of_any {s s' : σ} {es : List ε} (h : Reach step init (fun _ _ => True) s)
    (hr : run step s es = some s') : Reach step init (fun _ _ => True) s' :=
  h.of_run (Allowed.of_forall (fun _ _ _ => trivial) s) hr

/-- A run in which `check` accepts every event leads from a reached state to a reached state. -/
theorem of_checked {check : σ → ε → Bool} (hok : ∀ s e, check s e = true → ok s e) {es : List ε}
    {s s' : σ} (h : Reach step init ok s)
    (hr : run (fun s e => if check s e then step s e else none) s es = some s') :
    Reach step init ok s' := by
  obtain ⟨ha, hr⟩ := Allowed.of_checked hok hr
  exact h.of_run ha hr

end Reach

/-- The system with a history variable: `record` notes what each event adds to it. -/
def withHistory {η : Type*} (step : σ → ε → Option σ) (record : σ → ε → η → η) (s : σ × η) (e : ε) :
    Option (σ × η) :=
  (step s.1 e).map fun s' => (s', record s.1 e s.2)

theorem withHistory_eq_some {η : Type*} {step : σ → ε → Option σ} {record : σ → ε → η → η}
    {s s' : σ × η} {e : ε} :
    withHistory step record s e = some s' ↔ step s.1 e = some s'.1 ∧ s'.2 = record s.1 e s.2 := by
  obtain ⟨a, x⟩ := s'
  simp only [withHistory, Option.map_eq_some_iff, Prod.mk.injEq]
  constructor
  · rintro ⟨b, hb, rfl, rfl⟩
    exact ⟨hb, rfl⟩
  · rintro ⟨hb, rfl⟩
    exact ⟨a, hb, rfl, rfl⟩

/-- A run of allowed steps keeps an invariant that every allowed step keeps. -/
theorem run_inv {step : σ → ε → Option σ} {ok : σ → ε → Prop} {I : σ → Prop}
    (hstep : ∀ s e s', I s → ok s e → step s e = some s' → I s') {es : List ε} :
    ∀ {s s' : σ}, I s → Allowed step ok s es → run step s es = some s' → I s' := by
  induction es with
  | nil => intro s s' hi _ hr; cases hr; exact hi
  | cons e es ih =>
    intro s s' hi ha hr
    obtain ⟨s1, hs, hr⟩ := run_cons.mp hr
    exact ih (hstep _ _ _ hi ha.1 hs) (ha.2 _ hs) hr

end EventSystem
