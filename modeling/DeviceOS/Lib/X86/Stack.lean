import DeviceOS.Lib.X86.Machine

/-!
# Lib.X86.Stack

The words on the stack.

* `State.Stack s ws`: the words `ws` stand at the stack pointer, the top first.
* `Stack.push`, `Stack.pop`: what `push` and `pop` do to them. `Room s n`: the `n` bytes below the
  stack pointer are mapped.
* `Apart`: two ranges have no byte in common. `Holds.apart`: what stands in one of them stays when
  the other is written.
-/

namespace X86

/-- Two ranges have no byte in common. -/
def Apart (a : W) (n : Nat) (b : W) (k : Nat) : Prop := n ≤ (b - a).toNat ∧ k ≤ (a - b).toNat

instance (a : W) (n : Nat) (b : W) (k : Nat) : Decidable (Apart a n b k) :=
  inferInstanceAs (Decidable (_ ∧ _))

theorem Apart.symm {a b : W} {n k : Nat} (h : Apart a n b k) : Apart b k a n := ⟨h.2, h.1⟩

theorem Apart.le {a b : W} {n k j : Nat} (h : Apart a n b k) (hj : j ≤ n) : Apart a j b k :=
  ⟨hj.trans h.1, h.2⟩

/-- A byte of the second range is outside of the first. -/
theorem Apart.outside {a b : W} {n k i : Nat} (h : Apart a n b k) (hi : i < k) (hk : k ≤ 2 ^ 32) :
    n ≤ (b + ofN i - a).toNat := by
  obtain ⟨h1, h2⟩ := h
  have hit : (ofN i).toNat = i := toNat_ofN (by omega)
  rw [BitVec.toNat_sub] at h1 h2
  rw [BitVec.toNat_sub, BitVec.toNat_add, hit]
  omega

theorem Mem.Holds.apart {m : Mem} {a b : W} {bs cs : List Byte} (h : m.Holds b cs)
    (hab : Apart a bs.length b cs.length) (hn : cs.length ≤ 2 ^ 32) :
    (m.overwrite a bs).Holds b cs :=
  h.congr fun _ hi => Mem.overwrite_outside m (hab.outside hi hn)

namespace State

def wordBytes (ws : List W) : List Byte := ws.flatMap bytesOf

@[simp] theorem wordBytes_cons (w : W) (ws : List W) :
    wordBytes (w :: ws) = bytesOf w ++ wordBytes ws := List.flatMap_cons ..

theorem wordBytes_length (ws : List W) : (wordBytes ws).length = 4 * ws.length := by
  induction ws with
  | nil => rfl
  | cons w ws ih => rw [wordBytes_cons, List.length_append, ih, bytesOf_length, List.length_cons]; omega

def Stack (s : State) (ws : List W) : Prop := s.mem.Holds (s.regs .esp) (wordBytes ws)

/-- The `n` bytes below the stack pointer are mapped. -/
def Room (s : State) (n : Nat) : Prop := s.mem.Mapped (s.regs .esp - ofN n) n

variable {s s1 : State} {w : W} {ws : List W} {n : Nat}

theorem sub_four (a : W) : a - 4 + ofN 4 = a := by
  have h : ofN 4 = 4 := rfl
  rw [h, BitVec.sub_add_cancel]

/-- The state after a push. -/
def pushed (s : State) (w : W) : State :=
  { s.set .esp (s.regs .esp - 4) with mem := s.mem.overwrite (s.regs .esp - 4) (bytesOf w) }

@[simp] theorem pushed_esp (s : State) (w : W) : (s.pushed w).regs .esp = s.regs .esp - 4 :=
  set_self s .esp _

theorem toNat_four : (4 : W).toNat = 4 := rfl

theorem Room.push (h : s.Room (n + 4)) (w : W) : s.push w = some (s.pushed w) := by
  have hmap : s.mem.Mapped (s.regs .esp - 4) (bytesOf w).length := by
    have hn : s.regs .esp - ofN (n + 4) + ofN n = s.regs .esp - 4 := by
      apply BitVec.eq_of_toNat_eq
      simp only [ofN, BitVec.toNat_sub, BitVec.toNat_add, BitVec.toNat_ofNat, toNat_four]
      omega
    rw [← hn]
    exact Mem.Mapped.shift h
  rw [State.push, hmap.store (by simp)]
  rfl

theorem Room.pushed (h : s.Room (n + 4)) (w : W) : (s.pushed w).Room n := by
  have hn : s.regs .esp - 4 - ofN n = s.regs .esp - ofN (n + 4) := by
    apply BitVec.eq_of_toNat_eq
    simp only [ofN, BitVec.toNat_sub, BitVec.toNat_ofNat, toNat_four]
    omega
  have hadd : s.regs .esp - ofN (n + 4) + ofN n = s.regs .esp - 4 := by
    rw [← hn, BitVec.sub_add_cancel]
  rw [Room, pushed_esp, hn]
  refine (Mem.Mapped.le h (by omega)).overwrite ?_
  rw [← hadd]
  exact Mem.Mapped.shift h

theorem Stack.pushed (h : s.Stack ws) (hn : 4 * (ws.length + 1) ≤ 2 ^ 32) (w : W) :
    (s.pushed w).Stack (w :: ws) := by
  rw [Stack, pushed_esp]
  have hlen := wordBytes_length ws
  have hheld : s.mem.Holds (s.regs .esp - 4 + ofN (bytesOf w).length) (wordBytes ws) := by
    rw [bytesOf_length, sub_four]
    exact h
  intro i hi
  rw [wordBytes_length, List.length_cons] at hi
  by_cases h4 : i < 4
  · rw [wordBytes_cons, List.getElem?_append_left (by rw [bytesOf_length]; exact h4)]
    exact Mem.overwrite_get _ _ (by rw [bytesOf_length]; exact h4) (by simp)
  · rw [wordBytes_cons, List.getElem?_append_right (by rw [bytesOf_length]; omega)]
    have hout : (bytesOf w).length ≤ (s.regs .esp - 4 + ofN i - (s.regs .esp - 4)).toNat := by
      rw [add_ofN_sub _ (by omega), bytesOf_length]
      omega
    have hrest := hheld (i - 4) (by omega)
    rw [BitVec.add_assoc, ofN_add, bytesOf_length, Nat.add_sub_cancel' (by omega)] at hrest
    exact (Mem.overwrite_outside s.mem hout).trans hrest

/-- The state after a pop. -/
def popped (s : State) : State := s.set .esp (s.regs .esp + 4)

theorem Stack.pop (h : s.Stack (w :: ws)) : s.pop = some (w, s.popped) := by
  rw [Stack, wordBytes_cons] at h
  have hload := Mem.Holds.load h.left
  rw [bytesOf_length] at hload
  rw [State.pop, hload, Option.map_some, ofBytes_bytesOf]
  rfl

theorem Stack.popped (h : s.Stack (w :: ws)) : s.popped.Stack ws := by
  rw [Stack, wordBytes_cons] at h
  have hrest := h.shift
  have hsp : s.popped.regs .esp = s.regs .esp + ofN (bytesOf w).length := set_self s .esp _
  rw [Stack, hsp]
  exact hrest

/-- The flags, `pc` and the other registers do not matter. -/
theorem Stack.congr (h : s.Stack ws) (hm : s1.mem = s.mem) (hr : s1.regs .esp = s.regs .esp) :
    s1.Stack ws := by
  rw [Stack, hm, hr]
  exact h

theorem Room.congr (h : s.Room n) (hm : s1.mem = s.mem) (hr : s1.regs .esp = s.regs .esp) :
    s1.Room n := by
  rw [Room, hm, hr]
  exact h

/-- Word `i` of a table. -/
theorem load_word {m : Mem} {a : W} {i : Nat} (h : m.Holds a (wordBytes ws)) (hi : i < ws.length) :
    m.load (a + ofN (4 * i)) 4 = some (bytesOf ws[i]) := by
  have hsplit : ws = ws.take i ++ ws[i] :: ws.drop (i + 1) := by
    rw [← List.drop_eq_getElem_cons hi, List.take_append_drop]
  rw [hsplit, wordBytes, List.flatMap_append] at h
  have htail := h.shift
  have hlen : ((ws.take i).flatMap bytesOf).length = 4 * i := by
    have := wordBytes_length (ws.take i)
    rw [List.length_take, Nat.min_eq_left (by omega)] at this
    exact this
  rw [hlen, List.flatMap_cons] at htail
  exact Mem.Holds.load htail.left

/-- Word `i` of the stack, `4 * i` bytes above its top. -/
theorem Stack.load {i : Nat} (h : s.Stack ws) (hi : i < ws.length) :
    s.mem.load (s.regs .esp + ofN (4 * i)) 4 = some (bytesOf ws[i]) := load_word h hi

/-- Memory outside of the `n` bytes from `a` on is the same. -/
def Keeps (a : W) (n : Nat) (s s' : State) : Prop := ∀ x, n ≤ (x - a).toNat → s'.mem x = s.mem x

theorem Keeps.holds {a b : W} {bs : List Byte} (h : Keeps a n s s1) (hb : s.mem.Holds b bs)
    (hab : Apart a n b bs.length) (hn : bs.length ≤ 2 ^ 32) : s1.mem.Holds b bs :=
  hb.congr fun _ hi => h _ (hab.outside hi hn)

theorem Keeps.trans {a : W} (h : Keeps a n s s1) {s2 : State} (h' : Keeps a n s1 s2) :
    Keeps a n s s2 := fun x hx => (h' x hx).trans (h x hx)

theorem Keeps.le {a : W} {k : Nat} (h : Keeps a n s s1) (hk : n ≤ k) : Keeps a k s s1 :=
  fun x hx => h x (hk.trans hx)

/-- What a row of stack instructions leaves, apart from the stack pointer. -/
structure Moved (s s' : State) (ws : List W) : Prop where
  stack : s'.Stack ws
  flags : s'.flags = s.flags
  seg : s'.seg = s.seg

/-- A pushed word lies in the highest four of the bytes below the stack pointer. -/
theorem pushed_keeps (s : State) (w : W) (n : Nat) :
    Keeps (s.regs .esp - ofN (n + 4)) (n + 4) s (s.pushed w) := by
  intro x hx
  refine Mem.overwrite_outside s.mem ?_
  have hbase : s.regs .esp - 4 = s.regs .esp - ofN (n + 4) + ofN n := by
    apply BitVec.eq_of_toNat_eq
    simp only [ofN, BitVec.toNat_sub, BitVec.toNat_add, BitVec.toNat_ofNat, toNat_four]
    omega
  rw [hbase, sub_add_ofN, toNat_sub_ofN (by omega), bytesOf_length]
  omega

theorem sub_four_sub (a : W) (n : Nat) : a - 4 - ofN n = a - ofN (n + 4) := by
  apply BitVec.eq_of_toNat_eq
  simp only [ofN, BitVec.toNat_sub, BitVec.toNat_ofNat, toNat_four]
  omega

/-- What pushing the words `vs` leaves, the last one on top. -/
structure PushedWords (s s' : State) (vs ws : List W) (n : Nat) : Prop where
  stack : s'.Stack (vs.reverse ++ ws)
  room : s'.Room n
  esp : s'.regs .esp = s.regs .esp - ofN (4 * vs.length)
  other : ∀ r, r ≠ .esp → s'.regs r = s.regs r
  flags : s'.flags = s.flags
  seg : s'.seg = s.seg
  keeps : Keeps (s.regs .esp - ofN (n + 4 * vs.length)) (n + 4 * vs.length) s s'

theorem PushedWords.nil (hst : s.Stack ws) (hroom : s.Room n) : PushedWords s s [] ws n :=
  ⟨hst, hroom, by simp [ofN_zero], fun _ _ => rfl, rfl, rfl, fun _ _ => rfl⟩

/-- One word more. `s'` is the state after that push, and its `pc` does not matter. -/
theorem PushedWords.cons {s' : State} {vs : List W} (hst : s.Stack ws)
    (hroom : s.Room (n + 4 * vs.length + 4)) (hlen : 4 * (ws.length + (vs.length + 1)) ≤ 2 ^ 32)
    (hmem : s1.mem = (s.pushed w).mem) (hregs : s1.regs = (s.pushed w).regs)
    (hflags : s1.flags = s.flags) (hseg : s1.seg = s.seg)
    (ih : s1.Stack (w :: ws) → s1.Room (n + 4 * vs.length) → PushedWords s1 s' vs (w :: ws) n) :
    PushedWords s s' (w :: vs) ws n := by
  have hsp : s1.regs .esp = s.regs .esp - 4 := by rw [hregs, pushed_esp]
  have h := ih ((hst.pushed (by omega) w).congr hmem (congrFun hregs _))
    ((hroom.pushed w).congr hmem (congrFun hregs _))
  refine ⟨?_, h.room, ?_, ?_, h.flags.trans hflags, h.seg.trans hseg, ?_⟩
  · rw [List.reverse_cons, List.append_assoc]
    exact h.stack
  · rw [h.esp, hsp, List.length_cons, Nat.mul_succ, sub_four_sub]
  · intro r hr
    rw [h.other r hr, hregs]
    exact set_of_ne s (s.regs .esp - 4) hr
  · intro x hx
    rw [List.length_cons, Nat.mul_succ, ← Nat.add_assoc] at hx
    have hkeep := h.keeps x
    rw [hsp, sub_four_sub] at hkeep
    rw [hkeep (by omega), hmem]
    exact s.pushed_keeps w _ x hx

/-- A row of words, by induction. -/
theorem pushed_words (vs : List W) : ∀ {s : State} {ws : List W}, s.Stack ws →
    s.Room (n + 4 * vs.length) → 4 * (ws.length + vs.length) ≤ 2 ^ 32 →
    PushedWords s (vs.foldl pushed s) vs ws n := by
  induction vs with
  | nil => exact fun hst hroom _ => .nil hst hroom
  | cons v vs ih =>
    intro s ws hst hroom hlen
    rw [List.length_cons] at hlen
    exact .cons hst hroom hlen rfl rfl rfl rfl fun hst1 hroom1 =>
      ih hst1 hroom1 (by rw [List.length_cons]; omega)

section Rows

variable {L : Type} [DecidableEq L] (env : Env) {code : List (Instr L)}

/-- A row of pushes, by induction on the registers. -/
theorem push_regs (rs : List Reg) : ∀ {s : State} {ws : List W}, .esp ∉ rs →
    CodeAt code s.pc (rs.map fun r => .pushl (.reg r)) → s.Stack ws →
    s.Room (n + 4 * rs.length) → 4 * (ws.length + rs.length) ≤ 2 ^ 32 →
    ∃ s', Steps env code s s' ∧ s'.pc = s.pc + rs.length ∧
      PushedWords s s' (rs.map s.regs) ws n := by
  induction rs with
  | nil => exact fun _ _ hst hroom _ => ⟨_, .refl _, rfl, .nil hst hroom⟩
  | cons r rs ih =>
    intro s ws hsp hcode hst hroom hlen
    rw [List.length_cons] at hlen
    obtain ⟨hr, hrs⟩ : .esp ≠ r ∧ .esp ∉ rs := by simpa using hsp
    let s1 := (s.pushed (s.regs r)).adv
    have hexec : exec env code s (.pushl (.reg r)) = some s1 := by
      rw [exec, State.read, Option.bind_some, Room.push hroom]
      rfl
    have hmap : rs.map s1.regs = rs.map s.regs := by
      refine List.map_congr_left fun q hq => set_of_ne s (s.regs .esp - 4) ?_
      rintro rfl
      exact hrs hq
    have hst1 : s1.Stack (s.regs r :: ws) := (hst.pushed (by omega) (s.regs r)).congr rfl rfl
    have hroom1 : s1.Room (n + 4 * rs.length) := (Room.pushed hroom (s.regs r)).congr rfl rfl
    obtain ⟨s', hs', hpc', h⟩ := ih (s := s1) hrs hcode.tail hst1 hroom1
      (by rw [List.length_cons]; omega)
    rw [hmap] at h
    refine ⟨s', .next hcode.head hexec hs', ?_, ?_⟩
    · rw [hpc', List.length_cons, ← Nat.add_assoc, Nat.add_right_comm]
      rfl
    · refine @PushedWords.cons s s1 (s.regs r) ws n s' (rs.map s.regs) hst ?_ ?_ rfl rfl rfl rfl
        fun _ _ => h
      · rw [List.length_map]
        exact hroom
      · rw [List.length_map]
        exact hlen

/-- A row of pops, by induction on the registers. -/
theorem pop_regs (rs : List Reg) : ∀ {s : State} {vs ws : List W}, .esp ∉ rs → rs.Nodup →
    CodeAt code s.pc (rs.map .popl) → vs.length = rs.length → s.Stack (vs ++ ws) →
    ∃ s', Steps env code s s' ∧ s'.pc = s.pc + rs.length ∧ Moved s s' ws ∧
      s'.mem = s.mem ∧ s'.regs .esp = s.regs .esp + ofN (4 * rs.length) ∧
      rs.map s'.regs = vs ∧ ∀ r, r ≠ .esp → r ∉ rs → s'.regs r = s.regs r := by
  induction rs with
  | nil =>
    intro s vs ws _ _ _ hlen hst
    obtain rfl := List.length_eq_zero_iff.mp hlen
    exact ⟨s, .refl s, rfl, ⟨hst, rfl, rfl⟩, rfl, by simp [ofN_zero], rfl, fun _ _ _ => rfl⟩
  | cons r rs ih =>
    intro s vs ws hsp hnd hcode hlen hst
    obtain ⟨v, vs, rfl⟩ : ∃ v us, vs = v :: us := by
      cases vs with
      | nil => cases hlen
      | cons v us => exact ⟨v, us, rfl⟩
    obtain ⟨hr, hrs⟩ : .esp ≠ r ∧ .esp ∉ rs := by simpa using hsp
    obtain ⟨hnot, hnd⟩ := List.nodup_cons.mp hnd
    let s1 := (s.popped.set r v).adv
    have hexec : exec env code s (.popl r) = some s1 := by
      rw [exec, Stack.pop hst]
      rfl
    have hsp1 : s1.regs .esp = s.regs .esp + 4 :=
      (set_of_ne s.popped v hr).trans (set_self s .esp _)
    obtain ⟨s', hs', hpc', hmoved, hmem, hsp', hmap, hother⟩ := @ih s1 vs ws
      hrs hnd hcode.tail (by simpa using hlen) (hst.popped.congr rfl (set_of_ne s.popped v hr))
    refine ⟨s', .next hcode.head hexec hs', ?_, ⟨hmoved.stack, hmoved.flags, hmoved.seg⟩, hmem, ?_,
      ?_, ?_⟩
    · rw [hpc', List.length_cons, ← Nat.add_assoc, Nat.add_right_comm]
      rfl
    · have hfour : ofN 4 = 4 := rfl
      rw [hsp', hsp1, List.length_cons, Nat.mul_succ, BitVec.add_assoc, ← hfour, ofN_add,
        Nat.add_comm 4]
    · rw [List.map_cons, hmap, hother r hr.symm hnot]
      exact congrArg (· :: vs) (set_self s.popped r v)
    · intro q hq hqr
      obtain ⟨hne, hqs⟩ : q ≠ r ∧ q ∉ rs := by simpa using hqr
      rw [hother q hq hqs]
      exact (set_of_ne s.popped v hne).trans (set_of_ne s _ hq)

end Rows
end State
end X86
