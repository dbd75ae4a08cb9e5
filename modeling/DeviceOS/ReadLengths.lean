import DeviceOS.LineBounds
import DeviceOS.LineRead

/-!
# DeviceOS.ReadLengths

`terminal_read` and the length of its buffer. The newline goes to `buf[i]`, where `i` is what the
last pass of the loop left: the place of a NUL, `nbytes` when there was none, or nothing at all.

* `Reader.after`: the call as its statements find the terminal, one state for each statement.
* `Passes`: when the call tests `enter_flag`, and whether the pass before found a NUL.
* `respects_length_iff`: no store and no count beyond `nbytes` exactly when the pass before the
  test that ends the loop has found one.
-/

namespace DeviceOS

open EventSystem (Reach run)

namespace Reader

/-- The call after `n` statements; statement `k` finds the terminal as `env k`. -/
def after (env : Nat → Terminal) (r : Reader) : Nat → ReadStep
  | 0 => .more r
  | n + 1 =>
    match r.after env n with
    | .more r' => r'.step (env n)
    | x => x

/-- The byte of the user's buffer that the next statement stores. -/
def store (s : Terminal) (r : Reader) : Option Nat :=
  match r.pc with
  | .test => if s.enterFlag then r.i else none
  | .copy => r.i
  | .check => none

/-- All stores are below `nbytes`, and so is the count. -/
structure RespectsLength (env : Nat → Terminal) (r : Reader) : Prop where
  defined : ∀ n, r.after env n ≠ .wild
  stores : ∀ n r', r.after env n = .more r' → ∀ j, r'.store (env n) = some j → j < r.nbytes
  returns : ∀ n buf ret, r.after env n = .done buf ret → ret ≤ r.nbytes
  rest : ∀ n buf ret, r.after env n = .done buf ret → ∀ j, r.nbytes ≤ j → buf j = r.buf j

variable {env : Nat → Terminal} {s : Terminal} {r r' : Reader}

theorem after_succ {n : Nat} (h : r.after env n = .more r') :
    r.after env (n + 1) = r'.step (env n) := by
  rw [after, h]

theorem more_of_succ {n : Nat} (h : r.after env (n + 1) = .more r') :
    ∃ r1, r.after env n = .more r1 ∧ r1.step (env n) = .more r' := by
  rw [after] at h
  split at h
  · exact ⟨_, by assumption, h⟩
  · rename_i hno
    exact absurd h (hno r')

/-- A call that has ended did so at some statement. -/
theorem ended {x : ReadStep} (hx : ∀ r', x ≠ .more r') {n : Nat} (h : r.after env n = x) :
    ∃ k r', r.after env k = .more r' ∧ r'.step (env k) = x := by
  induction n with
  | zero => exact absurd h.symm (hx r)
  | succ n ih =>
    rw [after] at h
    split at h
    · exact ⟨n, _, by assumption, h⟩
    · exact ih h

theorem step_nbytes (h : r.step s = .more r') : r'.nbytes = r.nbytes := by
  simp only [step] at h
  split at h
  · split at h
    · split at h <;> cases h
    · cases h; rfl
  · cases h
  · split at h <;> cases h; rfl
  · split at h <;> cases h <;> rfl

/-- A byte is copied. -/
theorem copy_check {r0 : Reader} {n i : Nat} (h : r0.after env n = .more r) (hpc : r.pc = .copy)
    (hi : r.i = some i) (h128 : i < maxBufSize) :
    ∃ r', r0.after env (n + 1) = .more r' ∧ r'.i = some i ∧ r'.pc = .check ∧
      r'.nbytes = r.nbytes := by
  refine ⟨{ r with pc := .check, buf := Function.update r.buf i ((env n).keyboardBuf i) }, ?_, hi,
    rfl, rfl⟩
  rw [after_succ h]
  simp only [step, hpc, hi, if_pos h128]

/-- Only the byte that a statement stores changes. -/
theorem step_frame {j : Nat} (hj : r.store s ≠ some j) :
    (∀ r', r.step s = .more r' → r'.buf j = r.buf j) ∧
      ∀ buf ret, r.step s = .done buf ret → buf j = r.buf j := by
  cases hpc : r.pc with
  | test =>
    simp only [step, store, hpc] at hj ⊢
    split
    · rename_i hf
      rw [if_pos hf] at hj
      split
      · exact ⟨fun _ h => (by cases h), fun _ _ h => (by cases h)⟩
      · rename_i i hi
        refine ⟨fun _ h => (by cases h), fun buf ret h => ?_⟩
        cases h
        refine Function.update_of_ne ?_ ..
        rintro rfl
        exact hj hi
    · exact ⟨fun r' h => (by cases h; rfl), fun _ _ h => (by cases h)⟩
  | copy =>
    simp only [step, store, hpc] at hj ⊢
    cases hi : r.i with
    | none => exact ⟨fun _ h => (by cases h), fun _ _ h => (by cases h)⟩
    | some i =>
      rw [hi] at hj
      dsimp only
      split
      · refine ⟨fun r' h => ?_, fun _ _ h => (by cases h)⟩
        cases h
        refine Function.update_of_ne ?_ ..
        rintro rfl
        exact hj rfl
      · exact ⟨fun _ h => (by cases h), fun _ _ h => (by cases h)⟩
  | check =>
    simp only [step, hpc]
    cases hi : r.i with
    | none => exact ⟨fun _ h => (by cases h), fun _ _ h => (by cases h)⟩
    | some i =>
      dsimp only
      split
      · exact ⟨fun r' h => (by cases h; rfl), fun _ _ h => (by cases h)⟩
      · exact ⟨fun r' h => (by cases h; rfl), fun _ _ h => (by cases h)⟩

end Reader

/-- A pass that begins at time `T` finds a character in each of the first `j` bytes. -/
def Chars (env : Nat → Terminal) (T j : Nat) : Prop :=
  ∀ i, i < j → (env (T + 2 * i + 2)).keyboardBuf i ≠ 0

/-- `Passes env nbytes T b`: the call tests `enter_flag` at time `T`, and `b` says whether the pass
before has found a NUL. A pass takes two statements for each byte. -/
inductive Passes (env : Nat → Terminal) (nbytes : Nat) : Nat → Bool → Prop
  | first : Passes env nbytes 0 false
  | nul {T j : Nat} {b : Bool} : Passes env nbytes T b → (env T).enterFlag = false → j < nbytes →
      Chars env T j → (env (T + 2 * j + 2)).keyboardBuf j = 0 →
      Passes env nbytes (T + 2 * j + 3) true
  | full {T : Nat} {b : Bool} : Passes env nbytes T b → (env T).enterFlag = false →
      Chars env T nbytes → Passes env nbytes (T + 2 * nbytes + 1) false

/-- Where the call is before statement `n`. -/
inductive Stands (env : Nat → Terminal) (nbytes n : Nat) (r : Reader) : Prop
  | test {b : Bool} : Passes env nbytes n b → r.pc = .test →
      (b = true → ∃ i, r.i = some i ∧ i < nbytes) → Stands env nbytes n r
  | copy {T j : Nat} {b : Bool} : Passes env nbytes T b → (env T).enterFlag = false →
      Chars env T j → j < nbytes → n = T + 2 * j + 1 → r.pc = .copy → r.i = some j →
      Stands env nbytes n r
  | check {T j : Nat} {b : Bool} : Passes env nbytes T b → (env T).enterFlag = false →
      Chars env T j → j < nbytes → n = T + 2 * j + 2 → r.pc = .check → r.i = some j →
      Stands env nbytes n r

section Lengths

variable {env : Nat → Terminal} {nbytes n : Nat} {r r' : Reader}

/-- Byte 72 of a line is a NUL. -/
theorem Chars.le {T j : Nat} (h : Chars env T j)
    (hshort : ∀ n, (env n).keyboardBuf 72 = 0) : j ≤ 72 := by
  by_contra hlt
  exact h 72 (by omega) (hshort _)

theorem Stands.atLoop {T j : Nat} {b : Bool} (hp : Passes env nbytes T b)
    (hf : (env T).enterFlag = false) (hc : Chars env T j) (hj : j ≤ nbytes)
    (hn : n = T + 2 * j + 1) (hr : r.nbytes = nbytes) : Stands env nbytes n (r.atLoop j) := by
  subst hn
  by_cases hlt : j < nbytes
  · exact .copy hp hf hc hlt rfl (by simp only [Reader.atLoop, hr, if_pos hlt]) rfl
  · have hfull : j = nbytes := by omega
    subst hfull
    exact .test (.full hp hf hc) (by simp only [Reader.atLoop, hr, if_neg hlt]) (by simp)

theorem Stands.step (h : Stands env nbytes n r) (hr : r.nbytes = nbytes)
    (hs : r.step (env n) = .more r') : Stands env nbytes (n + 1) r' := by
  cases h with
  | @test b hp hpc _ =>
    simp only [Reader.step, hpc] at hs
    split at hs
    · split at hs <;> cases hs
    · rename_i hf
      cases hs
      refine Stands.atLoop hp (by simpa using hf) ?_ (Nat.zero_le _) (by omega) hr
      intro i hi
      exact absurd hi (Nat.not_lt_zero i)
  | @copy T j b hp hf hc hj hn hpc hi =>
    simp only [Reader.step, hpc, hi] at hs
    split at hs
    · cases hs
      exact .check hp hf hc hj (by omega) rfl rfl
    · cases hs
  | @check T j b hp hf hc hj hn hpc hi =>
    subst hn
    simp only [Reader.step, hpc, hi] at hs
    split at hs
    · rename_i h0
      cases hs
      exact .test (.nul hp hf hj hc h0) rfl fun _ => ⟨j, rfl, hj⟩
    · rename_i h0
      cases hs
      refine Stands.atLoop hp hf (fun i hi => ?_) (by omega) (by omega) hr
      rcases Nat.lt_succ_iff_lt_or_eq.mp hi with hlt | rfl
      · exact hc i hlt
      · exact h0

theorem after_stands (t : Term) (buf : Nat → UInt8) : ∀ n r,
    (Reader.start t nbytes buf).after env n = .more r →
      r.nbytes = nbytes ∧ Stands env nbytes n r := by
  intro n
  induction n with
  | zero =>
    intro r h
    cases h
    exact ⟨rfl, .test .first rfl (by simp)⟩
  | succ n ih =>
    intro r' h
    obtain ⟨r1, h1, hs⟩ := Reader.more_of_succ h
    obtain ⟨hn, hstands⟩ := ih r1 h1
    exact ⟨(Reader.step_nbytes hs).trans hn, hstands.step hn hs⟩

/-- What the next statement does when the flag is only seen after a NUL. -/
theorem Stands.next (h : Stands env nbytes n r) (hshort : ∀ n, (env n).keyboardBuf 72 = 0)
    (hnul : ∀ T b, Passes env nbytes T b → (env T).enterFlag = true → b = true) :
    r.step (env n) ≠ .wild ∧ (∀ j, r.store (env n) = some j → j < nbytes) ∧
      ∀ buf ret, r.step (env n) = .done buf ret → ret ≤ nbytes := by
  cases h with
  | @test b hp hpc hi =>
    simp only [Reader.step, Reader.store, hpc]
    split
    · rename_i hf
      obtain ⟨i, hi, hlt⟩ := hi (hnul n b hp hf)
      rw [hi]
      refine ⟨by simp, fun j hj => ?_, fun buf ret h => ?_⟩
      · cases hj
        exact hlt
      · cases h
        exact hlt
    · exact ⟨by simp, by simp, by simp⟩
  | @copy T j b hp hf hc hj hn hpc hi =>
    have h128 : j < maxBufSize := Nat.lt_of_le_of_lt (hc.le hshort) (by decide)
    simp only [Reader.step, Reader.store, hpc, hi, if_pos h128]
    refine ⟨by simp, fun i hi => ?_, by simp⟩
    cases hi
    exact hj
  | check _ _ _ _ _ hpc hi =>
    simp only [Reader.step, Reader.store, hpc, hi]
    split <;> exact ⟨by simp, by simp, by simp⟩

/-- One pass of the loop up to byte `j`. -/
theorem after_pass (hshort : ∀ n, (env n).keyboardBuf 72 = 0) {r0 : Reader} {T : Nat}
    (hr : r0.after env T = .more r) (hpc : r.pc = .test) (hf : (env T).enterFlag = false) {j : Nat}
    (hj : j ≤ r.nbytes) (hc : Chars env T j) :
    ∃ r1 : Reader, r1.nbytes = r.nbytes ∧
      r0.after env (T + 2 * j + 1) = .more (r1.atLoop j) := by
  induction j with
  | zero =>
    refine ⟨r, rfl, ?_⟩
    rw [Nat.mul_zero, Nat.add_zero, Reader.after_succ hr]
    simp [Reader.step, hpc, hf]
  | succ j ih =>
    obtain ⟨r1, hn, h1⟩ := ih (by omega) fun i hi => hc i (by omega)
    have h128 : j < maxBufSize := by
      have := hc.le hshort
      simp only [maxBufSize]
      omega
    have hloop : (r1.atLoop j).pc = .copy := by simp only [Reader.atLoop, hn]; exact if_pos hj
    obtain ⟨r2, h2, hi2, hpc2, hn2⟩ := Reader.copy_check h1 hloop rfl h128
    have h0 := hc j (Nat.lt_succ_self j)
    refine ⟨r2, hn2.trans hn, ?_⟩
    rw [show T + 2 * (j + 1) + 1 = T + 2 * j + 1 + 1 + 1 by omega, Reader.after_succ h2]
    simp only [Reader.step, hpc2, hi2]
    rw [if_neg h0]

/-- The call does test the flag then. -/
theorem Passes.reached (t : Term) (buf : Nat → UInt8) (hshort : ∀ n, (env n).keyboardBuf 72 = 0)
    {T : Nat} {b : Bool} (h : Passes env nbytes T b) :
    ∃ r, (Reader.start t nbytes buf).after env T = .more r ∧ r.pc = .test ∧ r.nbytes = nbytes ∧
      (b = false → r.i = none ∨ r.i = some nbytes) := by
  induction h with
  | first => exact ⟨_, rfl, rfl, rfl, fun _ => Or.inl rfl⟩
  | @nul T j b hp hf hj hc h0 ih =>
    obtain ⟨r, h, hpc, hn, _⟩ := ih
    obtain ⟨r1, hn1, h1⟩ := after_pass hshort h hpc hf (by omega) hc
    have h128 : j < maxBufSize := Nat.lt_of_le_of_lt (hc.le hshort) (by decide)
    have hloop : (r1.atLoop j).pc = .copy := by
      simp only [Reader.atLoop]
      exact if_pos (by omega)
    obtain ⟨r2, h2, hi2, hpc2, hn2⟩ := Reader.copy_check h1 hloop rfl h128
    refine ⟨{ r2 with pc := .test }, ?_, rfl, hn2.trans (hn1.trans hn), by simp⟩
    rw [show T + 2 * j + 3 = T + 2 * j + 1 + 1 + 1 by omega, Reader.after_succ h2]
    simp only [Reader.step, hpc2, hi2]
    rw [if_pos h0]
  | @full T b hp hf hc ih =>
    obtain ⟨r, h, hpc, hn, _⟩ := ih
    obtain ⟨r1, hn1, h1⟩ := after_pass hshort h hpc hf (by omega) hc
    refine ⟨_, h1, ?_, hn1.trans hn, fun _ => Or.inr rfl⟩
    simp only [Reader.atLoop]
    exact if_neg (by omega)

/-- The newline then goes behind the buffer, or nowhere. -/
theorem Passes.overruns (t : Term) (buf : Nat → UInt8) (hshort : ∀ n, (env n).keyboardBuf 72 = 0)
    {T : Nat} (h : Passes env nbytes T false) (hf : (env T).enterFlag = true) :
    ¬ (Reader.start t nbytes buf).RespectsLength env := by
  intro hr
  obtain ⟨r, hafter, hpc, _, hi⟩ := h.reached t buf hshort
  rcases hi rfl with hi | hi
  · refine hr.defined (T + 1) ?_
    rw [Reader.after_succ hafter]
    simp [Reader.step, hpc, hi, hf]
  · have hstore : r.store (env T) = some nbytes := by
      simp only [Reader.store, hpc, hf, if_true]
      exact hi
    exact absurd (hr.stores T r hafter nbytes hstore) (lt_irrefl nbytes)

/-- A buffer of 73 bytes holds every line. -/
theorem Passes.long (hshort : ∀ n, (env n).keyboardBuf 72 = 0) (hlong : 73 ≤ nbytes)
    (hf : (env 0).enterFlag = false) {T : Nat} {b : Bool} (h : Passes env nbytes T b)
    (hflag : (env T).enterFlag = true) : b = true := by
  cases h with
  | first => rw [hf] at hflag; cases hflag
  | nul => rfl
  | full _ _ hc =>
    have := hc.le hshort
    omega

end Lengths

namespace Machine

/-- Every statement of a call finds terminal `t` as it is in some reachable state. -/
def Found (img : Image) (t : Term) (env : Nat → Terminal) : Prop :=
  ∀ n, ∃ m, Reach (step img) Boot (fun _ _ => True) m ∧ env n = m.kern.con.terminalStruct t

theorem Found.short {img : Image} {t : Term} {env : Nat → Terminal} (h : Found img t env)
    (n : Nat) : (env n).keyboardBuf 72 = 0 := by
  obtain ⟨m, hm, heq⟩ := h n
  rw [heq]
  exact (reach_inBounds hm t).line.2 72 (le_refl 72)

/-- For every line, length of the buffer and time of Enter: `terminal_read` keeps to the buffer
exactly when each test that finds the flag comes after a pass that has found a NUL in the first
`nbytes` bytes of the line. -/
theorem respects_length_iff (img : Image) (t : Term) (nbytes : Nat) (buf : Nat → UInt8)
    (env : Nat → Terminal) (h : Found img t env) :
    (Reader.start t nbytes buf).RespectsLength env ↔
      ∀ T b, Passes env nbytes T b → (env T).enterFlag = true → b = true := by
  constructor
  · intro hr T b hp hf
    cases b with
    | true => rfl
    | false => exact absurd hr (hp.overruns t buf h.short hf)
  · intro hnul
    have hnext : ∀ n r, (Reader.start t nbytes buf).after env n = .more r →
        r.step (env n) ≠ .wild ∧ (∀ j, r.store (env n) = some j → j < nbytes) ∧
          ∀ out ret, r.step (env n) = .done out ret → ret ≤ nbytes :=
      fun n r hr => (after_stands t buf n r hr).2.next h.short hnul
    have hrest : ∀ n r, (Reader.start t nbytes buf).after env n = .more r →
        ∀ j, nbytes ≤ j → r.buf j = buf j := by
      intro n
      induction n with
      | zero => intro r hr j _; cases hr; rfl
      | succ n ih =>
        intro r hr j hj
        obtain ⟨r1, h1, hs⟩ := Reader.more_of_succ hr
        have hstore : r1.store (env n) ≠ some j := fun he =>
          absurd ((hnext n r1 h1).2.1 j he) (Nat.not_lt.mpr hj)
        exact ((Reader.step_frame hstore).1 r hs).trans (ih r1 h1 j hj)
    refine ⟨fun n hw => ?_, fun n r hr => (hnext n r hr).2.1, fun n out ret hd => ?_,
      fun n out ret hd j hj => ?_⟩
    · obtain ⟨k, r, hr, hs⟩ := Reader.ended (by simp) hw
      exact (hnext k r hr).1 hs
    · obtain ⟨k, r, hr, hs⟩ := Reader.ended (by simp) hd
      exact (hnext k r hr).2.2 out ret hs
    · obtain ⟨k, r, hr, hs⟩ := Reader.ended (by simp) hd
      have hstore : r.store (env k) ≠ some j := fun he =>
        absurd ((hnext k r hr).2.1 j he) (Nat.not_lt.mpr hj)
      exact ((Reader.step_frame hstore).2 out ret hs).trans (hrest k r hr j hj)

/-- `a` is on the line, and Enter comes before statement `n` of the call. -/
theorem found_enter (n : Nat) : ∃ env, Found disk 0 env ∧
    (∀ k, (env k).enterFlag = decide (n ≤ k)) ∧ ∀ k, (env k).keyboardBuf 0 = 97 := by
  have htyped : (run (step disk) booted [.key 1 0x1E]).map (fun m =>
      ((m.kern.con.terminalStruct 0).enterFlag, (m.kern.con.terminalStruct 0).keyboardBuf 0)) =
        some (false, 97) := by
    decide +kernel
  have hentered : (run (step disk) booted [.key 1 0x1E, .key 1 0x1C]).map (fun m =>
      ((m.kern.con.terminalStruct 0).enterFlag, (m.kern.con.terminalStruct 0).keyboardBuf 0)) =
        some (true, 97) := by
    decide +kernel
  obtain ⟨m1, h1, hp1⟩ := Option.map_eq_some_iff.mp htyped
  obtain ⟨m2, h2, hp2⟩ := Option.map_eq_some_iff.mp hentered
  simp only [Prod.mk.injEq] at hp1 hp2
  refine ⟨fun k => if n ≤ k then m2.kern.con.terminalStruct 0 else m1.kern.con.terminalStruct 0,
    fun k => ?_, fun k => ?_, fun k => ?_⟩
  · by_cases hk : n ≤ k
    · exact ⟨m2, Reach.of_any (.init boot_booted) h2, if_pos hk⟩
    · exact ⟨m1, Reach.of_any (.init boot_booted) h1, if_neg hk⟩
  · by_cases hk : n ≤ k
    · simp [hk, hp2.1]
    · simp [hk, hp1.1]
  · by_cases hk : n ≤ k
    · simp [hk, hp2.2]
    · simp [hk, hp1.2]

theorem respects_length_iff_long : ∃ env, (env 4).enterFlag = true ∧
    (Reader.start 0 128 fun _ => 0).RespectsLength env := by
  obtain ⟨env, hfound, hflag, _⟩ := found_enter 4
  exact ⟨env, hflag 4, (respects_length_iff disk 0 128 (fun _ => 0) env hfound).mpr
    fun _ _ hp hf => hp.long hfound.short (by decide) (hflag 0) hf⟩

/-- One byte is asked for, and one is on the line. -/
theorem full_line_overruns : ¬ ∀ (img : Image) (t : Term) (nbytes : Nat) (buf : Nat → UInt8)
    (env : Nat → Terminal), Found img t env → (Reader.start t nbytes buf).RespectsLength env := by
  intro h
  obtain ⟨env, hfound, hflag, hbyte⟩ := found_enter 1
  have hchars : Chars env 0 1 := by
    intro i hi
    have h0 : i = 0 := by omega
    rw [h0, hbyte]
    decide
  have hpass : Passes env 1 3 false := .full .first (hflag 0) hchars
  exact hpass.overruns 0 (fun _ => 0) hfound.short (hflag 3)
    (h disk 0 1 (fun _ => 0) env hfound)

end Machine
end DeviceOS
