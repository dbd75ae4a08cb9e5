import DeviceOS.Lib.X86.Machine

/-!
# Lib.X86.StringOps

The string instructions with a `rep` prefix, which count ECX down to 0.

* `repStos_run`: `rep stos` upwards fills a range with the lowest bytes of EAX.
* `repMovs_forward`: `rep movs` upwards copies a range, when the copy does not begin inside of it.
* `repMovsb_backward`: `rep movsb` downwards, when the range does not begin inside of the copy.
-/

namespace X86

/-- `s'` is behind a string instruction at which `s` stands. -/
structure StringEnd (s s' : State) (mem : Mem) : Prop where
  pc : s'.pc = s.pc + 1
  flags : s'.flags = s.flags
  seg : s'.seg = s.seg
  mem : s'.mem = mem
  ecx : s'.regs .ecx = 0
  other : ∀ r, r ≠ .ecx → r ≠ .esi → r ≠ .edi → s'.regs r = s.regs r

theorem ofN_succ_ne_zero {k : Nat} (hk : k + 1 < 2 ^ 32) : ofN (k + 1) ≠ 0 := by
  intro h
  have := congrArg BitVec.toNat h
  rw [toNat_ofN hk] at this
  exact absurd this (by simp)

theorem ofN_succ_sub_one (k : Nat) : ofN (k + 1) - 1 = ofN k := by
  rw [ofN_succ, BitVec.add_sub_cancel]

section Rep

variable {L : Type} [DecidableEq L] (env : Env) (code : List (Instr L)) {n : Nat}

/-- `k` times the same bytes. -/
def repeated (k : Nat) (bs : List Byte) : List Byte := (List.replicate k bs).flatten

theorem repeated_succ (k : Nat) (bs : List Byte) :
    repeated (k + 1) bs = bs ++ repeated k bs := by
  simp [repeated, List.replicate_succ]

theorem repeated_length (k : Nat) (bs : List Byte) : (repeated k bs).length = k * bs.length := by
  simp [repeated]

theorem repStos_run {bs : List Byte} : ∀ (k : Nat) {s : State}, code[s.pc]? = some (.repStos n) →
    s.seg .es = s.seg .ds → s.flags.df = false → bs = (bytesOf (s.regs .eax)).take n →
    bs.length = n → s.regs .ecx = ofN k → k < 2 ^ 32 → k * n ≤ 2 ^ 32 →
    s.mem.Mapped (s.regs .edi) (k * n) →
    ∃ s', Steps env code s s' ∧
      StringEnd s s' (s.mem.overwrite (s.regs .edi) (repeated k bs)) ∧
      s'.regs .esi = s.regs .esi ∧ s'.regs .edi = s.regs .edi + ofN (k * n) := by
  intro k
  induction k with
  | zero =>
    intro s hi hes hdf hbs hlen hcx _ _ _
    have hcx : s.regs .ecx = 0 := hcx
    refine ⟨s.adv, .one hi (by rw [exec, if_pos hcx]), ⟨rfl, rfl, rfl, ?_, hcx, fun _ _ _ _ => rfl⟩,
      rfl, ?_⟩
    · simp [repeated]
    · simp [ofN_zero]
  | succ k ih =>
    intro s hi hes hdf hbs hlen hcx hk hn hmap
    rw [Nat.add_mul, Nat.one_mul] at hn hmap
    have hfirst : s.mem.Mapped (s.regs .edi) bs.length := hmap.le (by omega)
    have hstore := hfirst.store (by omega)
    let s1 : State := ({ s with mem := s.mem.overwrite (s.regs .edi) bs }.set .edi
      (s.regs .edi + ofN n)).set .ecx (s.regs .ecx - 1)
    have hstep : exec env code s (.repStos n) = some s1 := by
      have hne : s.regs .ecx ≠ 0 := hcx ▸ ofN_succ_ne_zero hk
      rw [exec, if_neg hne, stringRound, if_pos hes, ← hbs, hstore]
      simp [s1, State.stride, hdf]
    have hdi : s1.regs .edi = s.regs .edi + ofN n := by simp [s1, State.set]
    have hrest : s1.mem.Mapped (s1.regs .edi) (k * n) := by
      rw [hdi]
      exact (Mem.Mapped.shift (by rwa [Nat.add_comm] at hmap)).overwrite hfirst
    have hcx1 : s1.regs .ecx = ofN k := by
      rw [← ofN_succ_sub_one, ← hcx]
      exact State.set_self ..
    obtain ⟨s', hs', hend, hsi', hdi'⟩ := @ih s1 hi hes hdf hbs hlen hcx1 (by omega) (by omega)
      hrest
    refine ⟨s', .next hi hstep hs', ⟨hend.pc, hend.flags, hend.seg, ?_, hend.ecx, ?_⟩, hsi', ?_⟩
    · rw [hend.mem, hdi, repeated_succ]
      have happ := @Mem.overwrite_append bs (repeated k bs) s.mem (s.regs .edi)
        (by rw [List.length_append, repeated_length, hlen]; omega)
      rw [hlen] at happ
      exact happ
    · intro r h1 h2 h3
      rw [hend.other r h1 h2 h3]
      simp [s1, State.set, h1, h3]
    · rw [hdi', hdi, BitVec.add_assoc, ofN_add, Nat.add_mul, Nat.one_mul, Nat.add_comm n]

/-- A copy upwards does not reach a byte of its source before that byte is copied. -/
def UpSafe (src dst : W) (n : Nat) : Prop := dst = src ∨ n ≤ (dst - src).toNat

theorem sub_sub_swap (x y : W) (j : Nat) : y + ofN j - x = ofN j - (x - y) := by
  apply BitVec.eq_of_toNat_eq
  simp only [BitVec.toNat_sub, BitVec.toNat_add]
  omega

theorem UpSafe.outside {src dst : W} {n i j : Nat} (h : UpSafe src dst n) (hij : i ≤ j) (hj : j < n)
    (hn : n ≤ 2 ^ 32) : i ≤ (src + ofN j - dst).toNat := by
  have hjt : (ofN j).toNat = j := toNat_ofN (by omega)
  rcases h with rfl | h
  · rw [add_ofN_sub dst (by omega)]
    exact hij
  · have hd := (dst - src).isLt
    rw [sub_sub_swap, BitVec.toNat_sub, hjt]
    omega

theorem UpSafe.shift {src dst : W} {n k : Nat} (h : UpSafe src dst (n + k)) :
    UpSafe (src + ofN n) (dst + ofN n) k := by
  rcases h with rfl | h
  · exact Or.inl rfl
  · refine Or.inr ?_
    have heq : dst + ofN n - (src + ofN n) = dst - src := by
      apply BitVec.eq_of_toNat_eq
      simp only [BitVec.toNat_sub, BitVec.toNat_add]
      omega
    rw [heq]
    omega

theorem repMovs_forward : ∀ (k : Nat) {s : State} {bs : List Byte},
    code[s.pc]? = some (.repMovs n) → s.seg .es = s.seg .ds → s.flags.df = false →
    bs.length = k * n → s.regs .ecx = ofN k → k < 2 ^ 32 → k * n ≤ 2 ^ 32 →
    s.mem.Holds (s.regs .esi) bs → s.mem.Mapped (s.regs .edi) (k * n) →
    UpSafe (s.regs .esi) (s.regs .edi) (k * n) →
    ∃ s', Steps env code s s' ∧ StringEnd s s' (s.mem.overwrite (s.regs .edi) bs) ∧
      s'.regs .esi = s.regs .esi + ofN (k * n) ∧ s'.regs .edi = s.regs .edi + ofN (k * n) := by
  intro k
  induction k with
  | zero =>
    intro s bs hi hes hdf hlen hcx _ _ _ _ _
    have hcx : s.regs .ecx = 0 := hcx
    have hnil : bs = [] := List.length_eq_zero_iff.mp (by omega)
    subst hnil
    refine ⟨s.adv, .one hi (by rw [exec, if_pos hcx]), ⟨rfl, rfl, rfl, ?_, hcx, fun _ _ _ _ => rfl⟩,
      ?_, ?_⟩
    · simp
    · simp [ofN_zero]
    · simp [ofN_zero]
  | succ k ih =>
    intro s bs hi hes hdf hlen hcx hk hn hsrc hmap hsafe
    rw [Nat.add_mul, Nat.one_mul, Nat.add_comm] at hlen hn hmap hsafe ⊢
    obtain ⟨xs, ys, rfl, hxs⟩ : ∃ xs ys, bs = xs ++ ys ∧ xs.length = n :=
      ⟨bs.take n, bs.drop n, (List.take_append_drop n bs).symm, by rw [List.length_take]; omega⟩
    rw [List.length_append] at hlen
    have hfirst : s.mem.Mapped (s.regs .edi) xs.length := hmap.le (by omega)
    have hload : s.mem.load (s.regs .esi) n = some xs := hxs ▸ hsrc.left.load
    have hstore := hfirst.store (by omega)
    let s1 : State := (({ s with mem := s.mem.overwrite (s.regs .edi) xs }.set .edi
      (s.regs .edi + ofN n)).set .ecx (s.regs .ecx - 1)).set .esi (s.regs .esi + ofN n)
    have hstep : exec env code s (.repMovs n) = some s1 := by
      have hne : s.regs .ecx ≠ 0 := hcx ▸ ofN_succ_ne_zero hk
      rw [exec, if_neg hne, hload, Option.bind_some, stringRound, if_pos hes, hstore]
      simp [s1, State.stride, hdf]
    have hcx1 : s1.regs .ecx = ofN k := by
      rw [← ofN_succ_sub_one, ← hcx]
      simp [s1, State.set]
    have hdi : s1.regs .edi = s.regs .edi + ofN n := by simp [s1, State.set]
    have hsi : s1.regs .esi = s.regs .esi + ofN n := by simp [s1, State.set]
    have hmem : s1.mem = s.mem.overwrite (s.regs .edi) xs := rfl
    have hrest : s1.mem.Mapped (s1.regs .edi) (k * n) := by
      rw [hdi, hmem]
      exact hmap.shift.overwrite hfirst
    have hsrc1 : s1.mem.Holds (s1.regs .esi) ys := by
      rw [hsi, hmem]
      have hys := hsrc.shift
      rw [hxs] at hys
      refine hys.congr fun i hi => Mem.overwrite_outside _ ?_
      rw [BitVec.add_assoc, ofN_add]
      exact hsafe.outside (by omega) (by omega) (by omega)
    have hsafe1 : UpSafe (s1.regs .esi) (s1.regs .edi) (k * n) := by
      rw [hsi, hdi]
      exact hsafe.shift
    obtain ⟨s', hs', hend, hsi', hdi'⟩ := @ih s1 ys hi hes hdf (by omega) hcx1 (by omega) (by omega)
      hsrc1 hrest hsafe1
    refine ⟨s', .next hi hstep hs', ⟨hend.pc, hend.flags, hend.seg, ?_, hend.ecx, ?_⟩, ?_, ?_⟩
    · rw [hend.mem, hdi, hmem]
      have happ := @Mem.overwrite_append xs ys s.mem (s.regs .edi)
        (by rw [List.length_append]; omega)
      rw [hxs] at happ
      exact happ
    · intro r h1 h2 h3
      rw [hend.other r h1 h2 h3]
      simp [s1, State.set, h1, h2, h3]
    · rw [hsi', hsi, BitVec.add_assoc, ofN_add]
    · rw [hdi', hdi, BitVec.add_assoc, ofN_add]

/-- A copy of `n` bytes downwards does not reach a byte of its source before that byte is copied. -/
def DownSafe (src dst : W) (n : Nat) : Prop := (dst - src).toNat + n ≤ 2 ^ 32

theorem DownSafe.outside {src dst : W} {n i : Nat} (h : DownSafe src dst (n + 1)) (hi : i < n) :
    1 ≤ (src + ofN i - (dst + ofN n)).toNat := by
  have hd := (dst - src).isLt
  rw [DownSafe] at h
  have hit : (ofN i).toNat = i := toNat_ofN (by omega)
  have hnt : (ofN n).toNat = n := toNat_ofN (by omega)
  rw [sub_add_ofN, sub_sub_swap, BitVec.toNat_sub, BitVec.toNat_sub, hit, hnt]
  omega

/-- ESI and EDI start at the last bytes. -/
theorem repMovsb_backward (bs : List Byte) : ∀ {s : State} {src dst : W},
    code[s.pc]? = some (.repMovs 1) → s.seg .es = s.seg .ds → s.flags.df = true →
    s.regs .ecx = ofN bs.length → bs.length < 2 ^ 32 →
    s.regs .esi = src + ofN bs.length - 1 → s.regs .edi = dst + ofN bs.length - 1 →
    s.mem.Holds src bs → s.mem.Mapped dst bs.length → DownSafe src dst bs.length →
    ∃ s', Steps env code s s' ∧ StringEnd s s' (s.mem.overwrite dst bs) := by
  induction bs using List.reverseRecOn with
  | nil =>
    intro s src dst hi hes hdf hcx _ _ _ _ _ _
    have hcx : s.regs .ecx = 0 := hcx
    exact ⟨s.adv, .one hi (by rw [exec, if_pos hcx]), rfl, rfl, rfl, by simp, hcx, fun _ _ _ _ => rfl⟩
  | append_singleton xs x ih =>
    intro s src dst hi hes hdf hcx hk hsi hdi hsrc hmap hsafe
    rw [List.length_append, List.length_singleton] at hcx hk hsi hdi hmap hsafe
    have hsi : s.regs .esi = src + ofN xs.length := by
      rw [hsi, ofN_succ, ← BitVec.add_assoc, BitVec.add_sub_cancel]
    have hdi : s.regs .edi = dst + ofN xs.length := by
      rw [hdi, ofN_succ, ← BitVec.add_assoc, BitVec.add_sub_cancel]
    have hlast : s.mem.Mapped (dst + ofN xs.length) [x].length := hmap.shift
    have hload : s.mem.load (s.regs .esi) 1 = some [x] := by
      rw [hsi]
      exact hsrc.shift.load
    have hstore := hlast.store (by simp)
    let s1 : State := (({ s with mem := s.mem.overwrite (s.regs .edi) [x] }.set .edi
      (s.regs .edi - ofN 1)).set .ecx (s.regs .ecx - 1)).set .esi (s.regs .esi - ofN 1)
    have hstep : exec env code s (.repMovs 1) = some s1 := by
      have hne : s.regs .ecx ≠ 0 := hcx ▸ ofN_succ_ne_zero hk
      rw [exec, if_neg hne, hload, Option.bind_some, stringRound, if_pos hes, hdi, hstore]
      simp [s1, State.stride, hdf, hdi]
    have hcx1 : s1.regs .ecx = ofN xs.length := by
      rw [← ofN_succ_sub_one, ← hcx]
      simp [s1, State.set]
    have hdi1 : s1.regs .edi = dst + ofN xs.length - 1 := by
      simp [s1, State.set, hdi, ofN]
    have hsi1 : s1.regs .esi = src + ofN xs.length - 1 := by
      simp [s1, State.set, hsi, ofN]
    have hmem : s1.mem = s.mem.overwrite (dst + ofN xs.length) [x] := by rw [← hdi]; rfl
    have hsrc1 : s1.mem.Holds src xs := by
      rw [hmem]
      exact hsrc.left.congr fun i hi => Mem.overwrite_outside _ (hsafe.outside hi)
    have hmap1 : s1.mem.Mapped dst xs.length := by
      rw [hmem]
      exact (hmap.le (by omega)).overwrite hlast
    have hsafe1 : DownSafe src dst xs.length := by
      rw [DownSafe] at hsafe ⊢
      omega
    obtain ⟨s', hs', hend⟩ := @ih s1 src dst hi hes hdf hcx1 (by omega) hsi1 hdi1 hsrc1 hmap1 hsafe1
    refine ⟨s', .next hi hstep hs', hend.pc, hend.flags, hend.seg, ?_, hend.ecx, ?_⟩
    · rw [hend.mem, hmem]
      exact Mem.overwrite_prepend s.mem dst (by rw [List.length_append, List.length_singleton]; omega)
    · intro r h1 h2 h3
      rw [hend.other r h1 h2 h3]
      simp [s1, State.set, h1, h2, h3]

end Rep
end X86
