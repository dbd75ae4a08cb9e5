import DeviceOS.Lib.Numerals
import DeviceOS.RtcSharing

/-!
# DeviceOS.RtcRates

The rate that `rtc_write` programs. The device divides 32768 Hz by a power of two: with the rate `r`
in the low four bits of register A it gives `32768 >> (r - 1)` interrupts a second, and with the
rate 0 none.

* `rateLoop_eq`: the halving loop counts the binary digits of its divider.
* `write_rate`: an accepted frequency is rounded up to a power of two, and 1 becomes the rate 0,
  because 16 does not fit into four bits.
* `Programs`, `write_programs_iff`: the frequencies for which `rtc_write` does what its header says.
-/

namespace DeviceOS
namespace Rtc

open Numerals (size_div_two size_two_pow_div)

theorem rateLoop_eq (n divider rate : Nat) (h : divider < 2 ^ n) :
    rateLoop n divider rate = rate + Nat.size divider := by
  induction n generalizing divider rate with
  | zero =>
    have hzero : divider = 0 := by omega
    subst hzero
    rfl
  | succ n ih =>
    unfold rateLoop
    by_cases hd : 1 ≤ divider
    · have hhalf : divider / 2 < 2 ^ n := by omega
      rw [if_pos hd, ih _ _ hhalf, size_div_two hd]
      omega
    · have hzero : divider = 0 := by omega
      subst hzero
      rfl

/-- The rate of a frequency, before it is cut to four bits. -/
theorem rateLoop_frequency {f : Nat} (h0 : 0 < f) (hmax : f ≤ maxFreq) :
    rateLoop 32 (32768 / f) 0 = 16 - Nat.clog 2 f := by
  have hle : f ≤ 2 ^ 15 := le_trans hmax (by decide)
  have hdiv : 32768 / f < 2 ^ 32 := lt_of_le_of_lt (Nat.div_le_self _ _) (by decide)
  have hsize : Nat.size (2 ^ 15 / f) = 15 + 1 - Nat.clog 2 f := size_two_pow_div h0 hle
  rw [rateLoop_eq 32 _ _ hdiv, Nat.zero_add]
  exact hsize

theorem clog_le_ten {f : Nat} (hmax : f ≤ maxFreq) : Nat.clog 2 f ≤ 10 :=
  Nat.clog_le_of_le_pow hmax

theorem write_accepts {f : Nat} (r : Rtc) (h0 : 0 < f) (hmax : f ≤ maxFreq) :
    r.write f = (0, { r with rtcFrequency := f }.changeRate (16 - Nat.clog 2 f)) := by
  rw [write, if_neg (by omega), rateLoop_frequency h0 hmax]

theorem write_refuses {f : Nat} (r : Rtc) (h : f = 0 ∨ maxFreq < f) : r.write f = (-1, r) := by
  rw [write, if_pos h]

theorem write_rate {f : Nat} (r : Rtc) (h0 : 0 < f) (hmax : f ≤ maxFreq) :
    (r.write f).2.rate.toNat = if f = 1 then 0 else 16 - Nat.clog 2 f := by
  have hten := clog_le_ten hmax
  rw [write_accepts r h0 hmax, changeRate_rate, UInt8.toNat_ofNat']
  split
  · rename_i hone
    subst hone
    rfl
  · have hpos : 0 < Nat.clog 2 f := Nat.clog_pos (by decide) (by omega)
    omega

theorem changeRate_high (r : Rtc) (n : Nat) : (r.changeRate n).regA &&& 0xF0 = r.regA &&& 0xF0 := by
  have hlow : ∀ k : Fin 16, UInt8.ofNat k.val &&& 0xF0 = 0 := by decide
  have hnone : UInt8.ofNat (n % 16) &&& 0xF0 = 0 := hlow ⟨n % 16, Nat.mod_lt n (by decide)⟩
  rw [changeRate_and, hnone, UInt8.and_self, UInt8.or_zero]

theorem shift_rate {c : Nat} (h : c ≤ 15) : 32768 >>> (16 - c - 1) = 2 ^ c := by
  have hexp : 16 - c - 1 = 15 - c := by omega
  rw [hexp, Nat.shiftRight_eq_div_pow]
  calc 32768 / 2 ^ (15 - c) = 2 ^ 15 / 2 ^ (15 - c) := rfl
    _ = 2 ^ (15 - (15 - c)) := Nat.pow_div (by omega) (by decide)
    _ = 2 ^ c := by
      congr 1
      omega

/-- `f` is a power of two from 1 to 1024. -/
def PowerOfTwo (f : Nat) : Prop := ∃ k ≤ 10, f = 2 ^ k

/-- `rtc_write` accepts the powers of two only, and programs the frequency that it accepts. -/
structure Programs (r : Rtc) (f : BitVec 32) : Prop where
  accepts : (r.write f.toNat).1 = 0 ↔ PowerOfTwo f.toNat
  rate : PowerOfTwo f.toNat → 1 ≤ (r.write f.toNat).2.rate.toNat ∧
    32768 >>> ((r.write f.toNat).2.rate.toNat - 1) = f.toNat
  high : PowerOfTwo f.toNat → (r.write f.toNat).2.regA &&& 0xF0 = r.regA &&& 0xF0
  refuses : ¬ PowerOfTwo f.toNat → (r.write f.toNat).1 = -1 ∧
    (r.write f.toNat).2.rtcFrequency = r.rtcFrequency ∧ (r.write f.toNat).2.regA = r.regA

theorem PowerOfTwo.bounds {f : Nat} (h : PowerOfTwo f) : 0 < f ∧ f ≤ maxFreq := by
  obtain ⟨k, hk, rfl⟩ := h
  exact ⟨by positivity, Nat.pow_le_pow_right (by decide) hk⟩

theorem programs_refused {r : Rtc} {f : BitVec 32} (h : f.toNat = 0 ∨ maxFreq < f.toNat) :
    Programs r f := by
  have hnot : ¬ PowerOfTwo f.toNat := fun hpow => by
    have := hpow.bounds
    omega
  have hwrite := write_refuses r h
  refine ⟨?_, fun hpow => absurd hpow hnot, fun hpow => absurd hpow hnot, fun _ => ?_⟩
  · rw [hwrite]
    exact iff_of_false (by simp) hnot
  · rw [hwrite]
    exact ⟨rfl, rfl, rfl⟩

theorem programs_power {r : Rtc} {f : BitVec 32} {k : Nat} (h1 : 1 ≤ k) (h10 : k ≤ 10)
    (hf : f.toNat = 2 ^ k) : Programs r f := by
  have hpow : PowerOfTwo f.toNat := ⟨k, h10, hf⟩
  obtain ⟨h0, hmax⟩ := hpow.bounds
  have hclog : Nat.clog 2 f.toNat = k := by rw [hf, Nat.clog_pow 2 k (by decide)]
  have hone : f.toNat ≠ 1 := by
    intro hone
    rw [hone] at hclog
    have : Nat.clog 2 1 = 0 := Nat.clog_one_right 2
    omega
  have hwrite := write_accepts r h0 hmax
  have hrate := write_rate r h0 hmax
  rw [if_neg hone, hclog] at hrate
  refine ⟨?_, fun _ => ?_, fun _ => ?_, fun hnot => absurd hpow hnot⟩
  · rw [hwrite]
    exact iff_of_true rfl hpow
  · rw [hrate]
    refine ⟨by omega, ?_⟩
    rw [shift_rate (by omega), hf]
  · rw [hwrite]
    exact changeRate_high _ _

/-- `rtc_write` does what its header says for 0, for more than 1024, and for 2, 4, 8, .., 1024. -/
theorem write_programs_iff (r : Rtc) (f : BitVec 32) :
    Programs r f ↔ f.toNat = 0 ∨ maxFreq < f.toNat ∨ ∃ k, 1 ≤ k ∧ k ≤ 10 ∧ f.toNat = 2 ^ k := by
  constructor
  · intro h
    by_cases hout : f.toNat = 0 ∨ maxFreq < f.toNat
    · rcases hout with h0 | hmax
      · exact Or.inl h0
      · exact Or.inr (Or.inl hmax)
    · rw [not_or] at hout
      obtain ⟨h0, hmax⟩ := hout
      have hzero : (r.write f.toNat).1 = 0 := by
        rw [write_accepts r (by omega) (by omega)]
      obtain ⟨k, hk, hf⟩ := h.accepts.1 hzero
      refine Or.inr (Or.inr ⟨k, ?_, hk, hf⟩)
      by_contra hlow
      -- the frequency 1 has the rate 0
      have hone : f.toNat = 1 := by
        have hk0 : k = 0 := by omega
        rw [hf, hk0, Nat.pow_zero]
      have hrate := (h.rate ⟨k, hk, hf⟩).1
      rw [write_rate r (by omega) (by omega), if_pos hone] at hrate
      omega
  · rintro (h0 | hmax | ⟨k, h1, h10, hf⟩)
    · exact programs_refused (Or.inl h0)
    · exact programs_refused (Or.inr hmax)
    · exact programs_power h1 h10 hf

/-- 3 is no power of two; it is accepted, and the device runs at 4 Hz. -/
theorem write_accepts_three : ¬ ∀ (r : Rtc) (f : BitVec 32), Programs r f := by
  intro h
  have hthree := (h ⟨0, 0, false, 0x26⟩ 3).accepts
  have hret : ((⟨0, 0, false, 0x26⟩ : Rtc).write (3 : BitVec 32).toNat).1 = 0 := by decide
  obtain ⟨k, -, hk⟩ := hthree.1 hret
  have hpow : 3 = 2 ^ k := hk
  cases k with
  | zero => omega
  | succ k =>
    rw [Nat.pow_succ] at hpow
    omega

end Rtc
end DeviceOS
