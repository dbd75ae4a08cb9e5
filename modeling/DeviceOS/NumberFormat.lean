import DeviceOS.ImageCopies
import DeviceOS.Lib.AccessLog
import DeviceOS.Lib.Buffers
import DeviceOS.Lib.Numerals

/-!
# DeviceOS.NumberFormat

`itoa`, `strrev` and `printf` of `lib.c`.

A pointer is an index into the memory, and the log of a function is the list of the bytes that it
reads or writes. `none` is a run that divides by zero, reads behind `lookup` or does not end.

* `itoaLoop_eq`, `strrevLoop_eq`: the two loops of `itoa`. The first stores the digits from the
  lowest one on, the second exchanges them from both ends.
* `itoa_eq`: `itoa` stores the numeral of its value (`numeral_isNumeral`) and a NUL.
* `hexAlternate_eq`: `%#x` puts zeros in front of the numeral, in the same buffer. `printf_hex`: the
  conversion inside a format.
* `unsignedPlain_eq`, `signedPlain_eq`: the other conversions of numbers.
* `number_formatting_exact`: both together, with the bytes that they touch.
-/

namespace DeviceOS

open AccessLog (Logged)
open AccessLog.Logged
open Buffers (fill reversed)
open Numerals (format)

namespace LibC

/-- The bytes at each address. -/
abbrev Memory := Nat → UInt8

/-! ## `itoa` -/

/-- `lookup` of `itoa`, with its NUL. -/
def lookup : List UInt8 :=
  [48, 49, 50, 51, 52, 53, 54, 55, 56, 57, 65, 66, 67, 68, 69, 70, 71, 72, 73, 74, 75, 76, 77, 78,
    79, 80, 81, 82, 83, 84, 85, 86, 87, 88, 89, 90, 0]

/-- The loop of `itoa`, with at most `n` tests of its condition: the address behind the last digit,
and the memory. -/
def itoaLoop (radix : BitVec 32) :
    Nat → BitVec 32 → Nat → Memory → Logged Nat (Option (Nat × Memory))
  | 0, _, _, _ => done none
  | n + 1, newval, newbuf, mem =>
    if newval = 0 then done (some (newbuf, mem))
    else if radix = 0 then done none
    else
      match lookup[(newval % radix).toNat]? with
      | none => done none
      | some c =>
        access newbuf <|
          itoaLoop radix n (newval / radix) (newbuf + 1) (Function.update mem newbuf c)

/-- `strlen`, from index `len` on, with at most `n` tests. -/
def strlenLoop (mem : Memory) (s : Nat) : Nat → Nat → Logged Nat (Option Nat)
  | 0, _ => done none
  | n + 1, len =>
    access (s + len) (if mem (s + len) = 0 then done (some len) else strlenLoop mem s n (len + 1))

/-- A string has less than `2 ^ 32` bytes. -/
def strlen (mem : Memory) (s : Nat) : Logged Nat (Option Nat) := strlenLoop mem s (2 ^ 32) 0

/-- The loop of `strrev`, with at most `n` tests of its condition. -/
def strrevLoop (s : Nat) : Nat → Int → Int → Memory → Logged Nat (Option Memory)
  | 0, _, _, _ => done none
  | n + 1, first, last, mem =>
    if first < last then
      let i := s + first.toNat
      let j := s + last.toNat
      -- `tmp = s[end]; s[end] = s[beg]; s[beg] = tmp`
      access j <| access i <| access j <| access i <|
        strrevLoop s n (first + 1) (last - 1)
          (Function.update (Function.update mem j (mem i)) i (mem j))
    else done (some mem)

/-- `end` is an `int32_t`. -/
def strrev (s : Nat) (mem : Memory) : Logged Nat (Option Memory) :=
  (strlen mem s).bindSome fun len =>
    strrevLoop s (len + 1) 0 (Int.bmod (len - 1) (2 ^ 32)) mem

def itoa (value : BitVec 32) (buf : Nat) (radix : BitVec 32) (mem : Memory) :
    Logged Nat (Option Memory) :=
  if value = 0 then
    access buf <| access (buf + 1) <|
      done (some (Function.update (Function.update mem buf 48) (buf + 1) 0))
  else
    (itoaLoop radix 33 value buf mem).bindSome fun r =>
      access r.1 (strrev buf (Function.update r.2 r.1 0))

/-! ## `printf` -/

/-- `puts`, from index `i` on, with at most `n` tests: the bytes that it hands to `putc`. -/
def putsLoop (mem : Memory) (s : Nat) : Nat → Nat → Logged Nat (Option (List UInt8))
  | 0, _ => done none
  | n + 1, i =>
    access (s + i) <|
      if mem (s + i) = 0 then done (some [])
      else (putsLoop mem s n (i + 1)).map (Option.map (mem (s + i) :: ·))

def puts (mem : Memory) (s : Nat) : Logged Nat (Option (List UInt8)) := putsLoop mem s (2 ^ 32) 0

/-- The padding loop of `%#x`: `n` is `8 - i`. -/
def padLoop : Nat → Nat → Memory → Logged Nat Memory
  | 0, _, mem => done mem
  | n + 1, i, mem => access i (padLoop n (i + 1) (Function.update mem i 48))

/-- `%#x`, in `conv_buf[64]`. -/
def hexAlternate (value : BitVec 32) (convBuf : Memory) : Logged Nat (Option (List UInt8)) :=
  (itoa value 8 16 convBuf).bindSome fun mem1 =>
    (strlen mem1 8).bindSome fun start =>
      (padLoop (8 - start) start mem1).bind fun mem2 => puts mem2 start

/-- `%x`, in `conv_buf[64]`, and `%u`, in `conv_buf[36]`. -/
def unsignedPlain (radix value : BitVec 32) (convBuf : Memory) : Logged Nat (Option (List UInt8)) :=
  (itoa value 0 radix convBuf).bindSome fun mem1 => puts mem1 0

/-- `%d`, in `conv_buf[36]`. -/
def signedPlain (value : BitVec 32) (convBuf : Memory) : Logged Nat (Option (List UInt8)) :=
  if value.slt 0 then
    access 0 <|
      (itoa (-value) 1 10 (Function.update convBuf 0 45)).bindSome fun mem1 => puts mem1 0
  else unsignedPlain 10 value convBuf

/-- One conversion: the bytes that it prints, and the arguments left. `str` are the strings in the
memory, and `convBuf` is what is in the buffer before. -/
def convert (str : BitVec 32 → CString) (convBuf : Memory) (alternate : Bool) (c : UInt8)
    (args : List (BitVec 32)) : Option (List UInt8 × List (BitVec 32)) :=
  if c = 37 then some ([37], args)
  else if c = 120 ∨ c = 117 ∨ c = 100 ∨ c = 99 ∨ c = 115 then
    match args with
    | [] => none
    | value :: rest =>
      (if c = 120 then
        if alternate then (hexAlternate value convBuf).result
        else (unsignedPlain 16 value convBuf).result
      else if c = 117 then (unsignedPlain 10 value convBuf).result
      else if c = 100 then (signedPlain value convBuf).result
      else if c = 99 then some [value.toNat.toUInt8]
      else some (str value).text).map fun out => (out, rest)
  else some ([], args)

/-- The bytes printed and the number of format characters passed, with one character before them
that printed `out`. -/
def after (out : List UInt8) (r : Option (List UInt8 × Nat)) : Option (List UInt8 × Nat) :=
  r.map fun r => (out ++ r.1, r.2 + 1)

/-- The loop of `printf`, with the bytes that it prints and what it returns. The state is
`some alternate` inside a conversion. A NUL there is not the end: the loop goes on behind it. -/
def printfLoop (str : BitVec 32 → CString) (convBuf : Memory) :
    Option Bool → CString → List (BitVec 32) → Option (List UInt8 × Nat)
  | none, [], _ => some ([], 0)
  | some _, [], _ => none
  | none, c :: fmt, args =>
    if c = 0 then some ([], 0)
    else if c = 37 then after [] (printfLoop str convBuf (some false) fmt args)
    else after [c] (printfLoop str convBuf none fmt args)
  | some alternate, c :: fmt, args =>
    if c = 35 then after [] (printfLoop str convBuf (some true) fmt args)
    else (convert str convBuf alternate c args).bind fun r =>
      after r.1 (printfLoop str convBuf none fmt r.2)

def printf (str : BitVec 32 → CString) (convBuf : Memory) (fmt : CString)
    (args : List (BitVec 32)) : Option (List UInt8 × Nat) :=
  printfLoop str convBuf none fmt args

/-! ## Digits -/

/-- The character of a digit: 0 to 9, then A to Z. -/
def digitChar (d : Nat) : UInt8 := (if d < 10 then 48 + d else 55 + d).toUInt8

/-- The digit that a character stands for. -/
def digitValue (c : UInt8) : Option Nat :=
  if 48 ≤ c.toNat ∧ c.toNat ≤ 57 then some (c.toNat - 48)
  else if 65 ≤ c.toNat ∧ c.toNat ≤ 90 then some (c.toNat - 55)
  else none

theorem lookup_digit {d : Nat} (h : d < 36) : lookup[d]? = some (digitChar d) := by
  have hall : ∀ d : Fin 36, lookup[d.val]? = some (digitChar d.val) := by decide
  exact hall ⟨d, h⟩

theorem digitValue_digitChar {d : Nat} (h : d < 36) : digitValue (digitChar d) = some d := by
  have hall : ∀ d : Fin 36, digitValue (digitChar d.val) = some d.val := by decide
  exact hall ⟨d, h⟩

theorem digitChar_ne_zero {d : Nat} (h : d < 36) : digitChar d ≠ 0 := by
  have hall : ∀ d : Fin 36, digitChar d.val ≠ 0 := by decide
  exact hall ⟨d, h⟩

/-- The digits of a number, lowest first, as the loop of `itoa` stores them. -/
def lowDigits (radix n : Nat) : List UInt8 := (Nat.digits radix n).map digitChar

theorem lowDigits_reverse (radix n : Nat) :
    (lowDigits radix n).reverse = format radix digitChar n := by
  rw [lowDigits, ← List.map_reverse]
  rfl

/-! ## The loops -/

section Loops

variable {radix : BitVec 32}

theorem lowDigits_step (h2 : 2 ≤ radix.toNat) {newval : BitVec 32} (h0 : newval ≠ 0) :
    lowDigits radix.toNat newval.toNat =
      digitChar (newval % radix).toNat :: lowDigits radix.toNat (newval / radix).toNat := by
  have hpos : 0 < newval.toNat := by
    have hne : newval.toNat ≠ 0 := fun h => h0 (BitVec.eq_of_toNat_eq h)
    omega
  rw [lowDigits, Nat.digits_def' h2 hpos, List.map_cons, BitVec.toNat_umod, BitVec.toNat_udiv]
  rfl

/-- The loop of `itoa` ends, and has stored the digits of a number that has at most `n`. -/
theorem itoaLoop_eq (h2 : 2 ≤ radix.toNat) (h36 : radix.toNat ≤ 36) (n : Nat) (newval : BitVec 32)
    (newbuf : Nat) (mem : Memory) (hn : newval.toNat < radix.toNat ^ n) :
    let ds := lowDigits radix.toNat newval.toNat
    (itoaLoop radix (n + 1) newval newbuf mem).result =
        some (newbuf + ds.length, fill mem newbuf ds) ∧
      (itoaLoop radix (n + 1) newval newbuf mem).Within
        fun a => newbuf ≤ a ∧ a < newbuf + ds.length := by
  have hradix : radix ≠ 0 := by
    rintro rfl
    exact absurd h2 (by decide)
  induction n generalizing newval newbuf mem with
  | zero =>
    have hzero : newval = 0 := BitVec.eq_of_toNat_eq (by simpa using hn)
    subst hzero
    unfold itoaLoop
    rw [if_pos rfl]
    exact ⟨by simp [lowDigits], within_done _⟩
  | succ n ih =>
    unfold itoaLoop
    by_cases h0 : newval = 0
    · subst h0
      rw [if_pos rfl]
      exact ⟨by simp [lowDigits], within_done _⟩
    · have hdigit : (newval % radix).toNat < 36 := by
        rw [BitVec.toNat_umod]
        exact lt_of_lt_of_le (Nat.mod_lt _ (by omega)) h36
      have hrest : (newval / radix).toNat < radix.toNat ^ n := by
        rw [BitVec.toNat_udiv]
        exact Nat.div_lt_of_lt_mul (by rwa [← Nat.pow_succ'])
      obtain ⟨hresult, hwithin⟩ := ih (newval / radix) (newbuf + 1)
        (Function.update mem newbuf (digitChar (newval % radix).toNat)) hrest
      rw [if_neg h0, if_neg hradix, lookup_digit hdigit]
      dsimp only at hresult hwithin ⊢
      rw [lowDigits_step h2 h0]
      generalize lowDigits radix.toNat (newval / radix).toNat = ds at hresult hwithin ⊢
      rw [List.length_cons]
      constructor
      · rw [result_access, hresult, Buffers.fill_cons]
        congr 2
        omega
      · rw [within_access]
        exact ⟨by omega, hwithin.mono fun a ha => by omega⟩

variable {mem : Memory} {s len : Nat}

theorem strlenLoop_eq (hne : ∀ i < len, mem (s + i) ≠ 0) (hend : mem (s + len) = 0) (n i : Nat)
    (hi : i ≤ len) (hn : len - i < n) :
    (strlenLoop mem s n i).result = some len ∧
      (strlenLoop mem s n i).Within fun a => s ≤ a ∧ a ≤ s + len := by
  induction n generalizing i with
  | zero => omega
  | succ n ih =>
    unfold strlenLoop
    rw [result_access, within_access]
    rcases Nat.lt_or_eq_of_le hi with hlt | rfl
    · obtain ⟨hresult, hwithin⟩ := ih (i + 1) hlt (by omega)
      rw [if_neg (hne i hlt)]
      exact ⟨hresult, by omega, hwithin⟩
    · rw [if_pos hend]
      exact ⟨rfl, by omega, within_done _⟩

theorem putsLoop_eq (hne : ∀ i < len, mem (s + i) ≠ 0) (hend : mem (s + len) = 0) (n i : Nat)
    (hi : i ≤ len) (hn : len - i < n) :
    (putsLoop mem s n i).result = some ((List.range' i (len - i)).map fun j => mem (s + j)) ∧
      (putsLoop mem s n i).Within fun a => s ≤ a ∧ a ≤ s + len := by
  induction n generalizing i with
  | zero => omega
  | succ n ih =>
    unfold putsLoop
    rw [result_access, within_access]
    rcases Nat.lt_or_eq_of_le hi with hlt | rfl
    · obtain ⟨hresult, hwithin⟩ := ih (i + 1) hlt (by omega)
      have hleft : len - i = len - (i + 1) + 1 := by omega
      rw [if_neg (hne i hlt), result_map, within_map, hresult, hleft, List.range'_succ]
      exact ⟨rfl, by omega, hwithin⟩
    · rw [if_pos hend, Nat.sub_self]
      exact ⟨rfl, by omega, within_done _⟩

/-- The two indices meet after they have exchanged the `n` bytes between them. -/
theorem strrevLoop_eq (fuel first n : Nat) (mem : Memory) (hn : n < fuel) :
    (strrevLoop s fuel first (first + n - 1) mem).result = some (reversed mem (s + first) n) ∧
      (strrevLoop s fuel first (first + n - 1) mem).Within
        fun a => s + first ≤ a ∧ a < s + first + n := by
  induction fuel generalizing first n mem with
  | zero => omega
  | succ fuel ih =>
    unfold strrevLoop
    by_cases hlt : (first : Int) < first + n - 1
    · obtain ⟨m, rfl⟩ : ∃ m, n = m + 2 := ⟨n - 2, by omega⟩
      have hfirst : (first : Int).toNat = first := Int.toNat_natCast first
      have hlast : ((first : Int) + (m + 2 : Nat) - 1).toNat = first + m + 1 := by omega
      have hnext : (first : Int) + 1 = (first + 1 : Nat) := by omega
      have hprev : (first : Int) + (m + 2 : Nat) - 1 - 1 = (first + 1 : Nat) + m - 1 := by omega
      obtain ⟨hresult, hwithin⟩ := ih (first + 1) m (Function.update (Function.update mem
        (s + (first + m + 1)) (mem (s + first))) (s + first) (mem (s + (first + m + 1)))) (by omega)
      rw [if_pos hlt]
      dsimp only
      rw [hfirst, hlast, hnext, hprev]
      constructor
      · simp only [result_access]
        rw [hresult]
        have hswap := Buffers.reversed_swap mem (s + first) m
        simp only [Nat.add_assoc] at hswap ⊢
        rw [hswap]
      · simp only [within_access]
        exact ⟨by omega, by omega, by omega, by omega, hwithin.mono fun a ha => by omega⟩
    · rw [if_neg hlt, Buffers.reversed_of_le_one mem _ (by omega)]
      exact ⟨rfl, within_done _⟩

end Loops

/-! ## Strings in the memory -/

/-- The string `xs` at the address `s`, with its NUL. -/
structure HoldsString (mem : Memory) (s : Nat) (xs : List UInt8) : Prop where
  get : ∀ (i : Nat) (h : i < xs.length), mem (s + i) = xs[i]
  stop : mem (s + xs.length) = 0
  text : ∀ x ∈ xs, x ≠ 0
  short : xs.length < 2 ^ 31

section Strings

variable {mem : Memory} {s : Nat} {xs : List UInt8}

theorem holdsString_fill (mem : Memory) (s : Nat) (htext : ∀ x ∈ xs, x ≠ 0)
    (hshort : xs.length < 2 ^ 31) : HoldsString (fill mem s (xs ++ [0])) s xs := by
  refine ⟨fun i hi => ?_, ?_, htext, hshort⟩
  · rw [Buffers.fill_get _ _ (by rw [List.length_append]; omega), List.getElem_append_left hi]
  · rw [Buffers.fill_get _ _ (by simp), List.getElem_append_right (Nat.le_refl _)]
    simp

theorem HoldsString.ne (h : HoldsString mem s xs) : ∀ i < xs.length, mem (s + i) ≠ 0 := by
  intro i hi
  rw [h.get i hi]
  exact h.text _ (List.getElem_mem hi)

theorem HoldsString.strlen (h : HoldsString mem s xs) :
    (strlen mem s).result = some xs.length ∧
      (strlen mem s).Within fun a => s ≤ a ∧ a ≤ s + xs.length := by
  have hshort := h.short
  exact strlenLoop_eq h.ne h.stop _ 0 (Nat.zero_le _) (by omega)

theorem HoldsString.puts (h : HoldsString mem s xs) :
    (puts mem s).result = some xs ∧ (puts mem s).Within fun a => s ≤ a ∧ a ≤ s + xs.length := by
  have hshort := h.short
  obtain ⟨hresult, hwithin⟩ := putsLoop_eq h.ne h.stop (2 ^ 32) 0 (Nat.zero_le _) (by omega)
  refine ⟨?_, hwithin⟩
  rw [LibC.puts, hresult, Nat.sub_zero, ← List.range_eq_range']
  congr 1
  apply List.ext_getElem
  · simp
  · intro i h1 h2
    simp [h.get i h2]

theorem strrev_eq (mem : Memory) (s : Nat) (htext : ∀ x ∈ xs, x ≠ 0) (hshort : xs.length < 2 ^ 31) :
    (strrev s (fill mem s (xs ++ [0]))).result = some (fill mem s (xs.reverse ++ [0])) ∧
      (strrev s (fill mem s (xs ++ [0]))).Within fun a => s ≤ a ∧ a ≤ s + xs.length := by
  obtain ⟨hlen, htouch⟩ := (holdsString_fill mem s htext hshort).strlen
  have hlast : Int.bmod ((xs.length : Int) - 1) (2 ^ 32) = (0 : Nat) + xs.length - 1 := by
    rw [Int.bmod_eq_of_le_mul_two (by omega) (by omega)]
    omega
  obtain ⟨hresult, hwithin⟩ := strrevLoop_eq (s := s) (xs.length + 1) 0 xs.length
    (fill mem s (xs ++ [0])) (Nat.lt_succ_self _)
  have hs : s + 0 = s := rfl
  rw [hs, Buffers.reversed_fill_append] at hresult
  unfold strrev
  rw [result_bindSome hlen, within_bindSome hlen, hlast]
  exact ⟨hresult, htouch, hwithin.mono fun a ha => by omega⟩

end Strings

/-! ## `itoa` is exact -/

/-- `ds` is the numeral of `value`: digits below the radix, the most significant one first, and no
zero in front of another digit. -/
structure IsNumeral (radix value : Nat) (ds : List UInt8) : Prop where
  digits : ∀ c ∈ ds, ∃ d < radix, digitValue c = some d
  reads : Numerals.read radix digitValue ds = some value
  leading : ds.head? = some 48 → value = 0 ∧ ds = [48]

def numeral (radix value : Nat) : List UInt8 :=
  if value = 0 then [48] else format radix digitChar value

section Numeral

variable {radix value : Nat}

theorem numeral_digits (h2 : 2 ≤ radix) {c : UInt8} (hc : c ∈ numeral radix value) :
    ∃ d < radix, c = digitChar d := by
  unfold numeral at hc
  split at hc
  · rw [List.mem_singleton] at hc
    exact ⟨0, by omega, hc⟩
  · obtain ⟨d, hd, rfl⟩ := List.mem_map.1 hc
    exact ⟨d, Nat.digits_lt_base h2 (List.mem_reverse.1 hd), rfl⟩

theorem numeral_isNumeral (h2 : 2 ≤ radix) (h36 : radix ≤ 36) :
    IsNumeral radix value (numeral radix value) := by
  have hchar : ∀ d < radix, digitValue (digitChar d) = some d := fun d hd =>
    digitValue_digitChar (by omega)
  constructor
  · intro c hc
    obtain ⟨d, hd, rfl⟩ := numeral_digits h2 hc
    exact ⟨d, hd, hchar d hd⟩
  · unfold numeral
    split
    · rename_i hzero
      rw [hzero]
      exact Numerals.read_zeros (by omega) hchar 1
    · exact Numerals.read_format h2 hchar value
  · unfold numeral
    split
    · rename_i hzero
      exact fun _ => ⟨hzero, rfl⟩
    · rename_i hne
      obtain ⟨d, xs, hd, hlt, heq⟩ := Numerals.format_head digitChar h2 hne
      intro hhead
      rw [heq, List.head?_cons, Option.some.injEq] at hhead
      -- only the digit 0 has the character `0`
      have hzero : some d = some 0 := by
        rw [← hchar d hlt, hhead]
        rfl
      exact absurd (Option.some.inj hzero) hd

theorem numeral_text (h2 : 2 ≤ radix) (h36 : radix ≤ 36) {c : UInt8}
    (hc : c ∈ numeral radix value) : c ≠ 0 := by
  obtain ⟨d, hd, rfl⟩ := numeral_digits h2 hc
  exact digitChar_ne_zero (by omega)

theorem numeral_length {k : Nat} (h2 : 2 ≤ radix) (hk : 0 < k) (h : value < radix ^ k) :
    (numeral radix value).length ≤ k := by
  unfold numeral
  split
  · exact hk
  · exact (Numerals.format_length_le_iff h2 value k).2 h

end Numeral

/-- A word has no more digits than bits. -/
theorem wordNumeral_length {radix : BitVec 32} (h2 : 2 ≤ radix.toNat) (value : BitVec 32) :
    (numeral radix.toNat value.toNat).length ≤ 32 :=
  numeral_length h2 (by decide) (lt_of_lt_of_le value.isLt (Nat.pow_le_pow_left h2 32))

theorem itoa_eq {radix : BitVec 32} (h2 : 2 ≤ radix.toNat) (h36 : radix.toNat ≤ 36)
    (value : BitVec 32) (buf : Nat) (mem : Memory) :
    (itoa value buf radix mem).result =
        some (fill mem buf (numeral radix.toNat value.toNat ++ [0])) ∧
      (itoa value buf radix mem).Within
        fun a => buf ≤ a ∧ a ≤ buf + (numeral radix.toNat value.toNat).length := by
  unfold itoa
  by_cases h0 : value = 0
  · subst h0
    rw [if_pos rfl]
    have hds : numeral radix.toNat (0 : BitVec 32).toNat = [48] := rfl
    constructor
    · rw [hds, List.singleton_append, Buffers.fill_cons, Buffers.fill_cons, Buffers.fill_nil]
      rfl
    · rw [hds]
      simp
  · have hne : value.toNat ≠ 0 := fun h => h0 (BitVec.eq_of_toNat_eq h)
    have hds : (lowDigits radix.toNat value.toNat).reverse = numeral radix.toNat value.toNat := by
      rw [lowDigits_reverse, numeral, if_neg hne]
    have hlt : value.toNat < radix.toNat ^ 32 :=
      lt_of_lt_of_le value.isLt (Nat.pow_le_pow_left h2 32)
    have hlen := wordNumeral_length h2 value
    have hloop : (itoaLoop radix 33 value buf mem).result =
        some (buf + (lowDigits radix.toNat value.toNat).length,
          fill mem buf (lowDigits radix.toNat value.toNat)) :=
      (itoaLoop_eq h2 h36 32 value buf mem hlt).1
    have hwithin : (itoaLoop radix 33 value buf mem).Within
        fun a => buf ≤ a ∧ a < buf + (lowDigits radix.toNat value.toNat).length :=
      (itoaLoop_eq h2 h36 32 value buf mem hlt).2
    have htext : ∀ c ∈ lowDigits radix.toNat value.toNat, c ≠ 0 := by
      intro c hc
      have hmem : c ∈ numeral radix.toNat value.toNat := by
        rw [← hds]
        exact List.mem_reverse.2 hc
      exact numeral_text h2 h36 hmem
    rw [if_neg h0, result_bindSome hloop, within_bindSome hloop, result_access, within_access,
      ← hds, List.length_reverse]
    rw [← hds, List.length_reverse] at hlen
    generalize lowDigits radix.toNat value.toNat = ds at hwithin htext hlen ⊢
    -- the terminating NUL goes behind the digits
    have hnul : Function.update (fill mem buf ds) (buf + ds.length) 0 =
        fill mem buf (ds ++ [0]) := by
      rw [← Buffers.fill_append, Buffers.fill_cons, Buffers.fill_nil]
    obtain ⟨hresult, hrev⟩ := strrev_eq mem buf htext (by omega)
    rw [hnul]
    exact ⟨hresult, hwithin.mono fun a ha => by omega, by omega, hrev⟩

/-- What `itoa` has stored is the numeral as a string. -/
theorem itoa_holds {radix : BitVec 32} (h2 : 2 ≤ radix.toNat) (h36 : radix.toNat ≤ 36)
    (value : BitVec 32) (buf : Nat) (mem : Memory) :
    HoldsString (fill mem buf (numeral radix.toNat value.toNat ++ [0])) buf
      (numeral radix.toNat value.toNat) := by
  have hlen := wordNumeral_length h2 value
  have htext : ∀ c ∈ numeral radix.toNat value.toNat, c ≠ 0 := fun c hc => numeral_text h2 h36 hc
  exact holdsString_fill mem buf htext (by omega)

/-! ## `%#x` is exact -/

theorem padLoop_eq (n i : Nat) (mem : Memory) :
    (padLoop n i mem).result = fill mem i (List.replicate n 48) ∧
      (padLoop n i mem).Within fun a => i ≤ a ∧ a < i + n := by
  induction n generalizing i mem with
  | zero => exact ⟨by simp [padLoop], within_done _⟩
  | succ n ih =>
    obtain ⟨hresult, hwithin⟩ := ih (i + 1) (Function.update mem i 48)
    unfold padLoop
    rw [result_access, within_access, hresult, List.replicate_succ, Buffers.fill_cons]
    exact ⟨rfl, by omega, hwithin.mono fun a ha => by omega⟩

/-- The eight digits of `%#x`. -/
def paddedHex (value : Nat) : List UInt8 :=
  List.replicate (8 - (numeral 16 value).length) 48 ++ numeral 16 value

theorem hexNumeral_length (value : BitVec 32) : (numeral 16 value.toNat).length ≤ 8 :=
  numeral_length (by decide) (by decide) value.isLt

theorem paddedHex_length (value : BitVec 32) : (paddedHex value.toNat).length = 8 := by
  have hle := hexNumeral_length value
  rw [paddedHex, List.length_append, List.length_replicate]
  omega

theorem paddedHex_digits {value : Nat} {c : UInt8} (hc : c ∈ paddedHex value) :
    ∃ d < 16, c = digitChar d := by
  rcases List.mem_append.1 hc with hpad | hds
  · exact ⟨0, by decide, List.eq_of_mem_replicate hpad⟩
  · exact numeral_digits (by decide) hds

theorem paddedHex_read (value : Nat) :
    Numerals.read 16 digitValue (paddedHex value) = some value := by
  have hchar : ∀ d < 16, digitValue (digitChar d) = some d := fun d hd =>
    digitValue_digitChar (by omega)
  have hnumeral : IsNumeral 16 value (numeral 16 value) :=
    numeral_isNumeral (by decide) (by decide)
  rw [← hnumeral.reads]
  exact Numerals.read_padded (by decide) hchar _ _

/-- `E` is printed as `0000000E`. -/
example : paddedHex 0xE = [48, 48, 48, 48, 48, 48, 48, 69] := by
  simp [paddedHex, numeral, format, digitChar]

/-- The buffer of `%#x` when it is printed. -/
theorem hexBuffer_eq (value : BitVec 32) (convBuf : Memory) :
    fill (fill convBuf 8 (numeral 16 value.toNat ++ [0])) (numeral 16 value.toNat).length
        (List.replicate (8 - (numeral 16 value.toNat).length) 48) =
      fill convBuf (numeral 16 value.toNat).length (paddedHex value.toNat ++ [0]) := by
  have hle := hexNumeral_length value
  have hprepend := Buffers.fill_prepend convBuf (numeral 16 value.toNat).length
    (List.replicate (8 - (numeral 16 value.toNat).length) 48) (numeral 16 value.toNat ++ [0])
  have height : (numeral 16 value.toNat).length + (8 - (numeral 16 value.toNat).length) = 8 := by
    omega
  rw [List.length_replicate, height] at hprepend
  rw [hprepend, paddedHex, List.append_assoc]

/-- `itoa` in `%#x`, from the byte 8 of the buffer on. -/
theorem itoa_hex (value : BitVec 32) (convBuf : Memory) :
    (itoa value 8 16 convBuf).result = some (fill convBuf 8 (numeral 16 value.toNat ++ [0])) ∧
      ((itoa value 8 16 convBuf).Within
        fun a => 8 ≤ a ∧ a ≤ 8 + (numeral 16 value.toNat).length) ∧
      HoldsString (fill convBuf 8 (numeral 16 value.toNat ++ [0])) 8 (numeral 16 value.toNat) := by
  have h2 : 2 ≤ (16 : BitVec 32).toNat := by decide
  have h36 : (16 : BitVec 32).toNat ≤ 36 := by decide
  obtain ⟨hresult, htouch⟩ := itoa_eq h2 h36 value 8 convBuf
  exact ⟨hresult, htouch, itoa_holds h2 h36 value 8 convBuf⟩

theorem hexAlternate_eq (value : BitVec 32) (convBuf : Memory) :
    (hexAlternate value convBuf).result = some (paddedHex value.toNat) ∧
      (hexAlternate value convBuf).Within (· < 64) := by
  have hle := hexNumeral_length value
  obtain ⟨hitoa, htouch, hheld⟩ := itoa_hex value convBuf
  obtain ⟨hlen, hlentouch⟩ := hheld.strlen
  obtain ⟨hpad, hpadtouch⟩ := padLoop_eq (8 - (numeral 16 value.toNat).length)
    (numeral 16 value.toNat).length (fill convBuf 8 (numeral 16 value.toNat ++ [0]))
  rw [hexBuffer_eq] at hpad
  have htext : ∀ c ∈ paddedHex value.toNat, c ≠ 0 := by
    intro c hc
    obtain ⟨d, hd, rfl⟩ := paddedHex_digits hc
    exact digitChar_ne_zero (by omega)
  have hsize := paddedHex_length value
  obtain ⟨hout, houttouch⟩ := (holdsString_fill convBuf (numeral 16 value.toNat).length htext
    (by omega)).puts
  unfold hexAlternate
  rw [result_bindSome hitoa, within_bindSome hitoa, result_bindSome hlen, within_bindSome hlen,
    result_bind, within_bind, hpad]
  refine ⟨hout, htouch.mono fun a ha => by omega, hlentouch.mono fun a ha => by omega,
    hpadtouch.mono fun a ha => by omega, houttouch.mono fun a ha => by omega⟩

theorem convert_hex (str : BitVec 32 → CString) (convBuf : Memory) (value : BitVec 32)
    (args : List (BitVec 32)) :
    convert str convBuf true 120 (value :: args) = some (paddedHex value.toNat, args) := by
  have hhex := (hexAlternate_eq value convBuf).1
  simp [convert, hhex]

/-- `%#x` prints the eight digits, and the loop goes on behind it. -/
theorem printf_hex (str : BitVec 32 → CString) (convBuf : Memory) (fmt : CString)
    (value : BitVec 32) (args : List (BitVec 32)) :
    printf str convBuf (37 :: 35 :: 120 :: fmt) (value :: args) =
      (printf str convBuf fmt args).map fun r => (paddedHex value.toNat ++ r.1, r.2 + 3) := by
  have hpercent : printfLoop str convBuf none (37 :: 35 :: 120 :: fmt) (value :: args) =
      after [] (printfLoop str convBuf (some false) (35 :: 120 :: fmt) (value :: args)) := rfl
  have hsharp : printfLoop str convBuf (some false) (35 :: 120 :: fmt) (value :: args) =
      after [] (printfLoop str convBuf (some true) (120 :: fmt) (value :: args)) := rfl
  have hconvert : printfLoop str convBuf (some true) (120 :: fmt) (value :: args) =
      after (paddedHex value.toNat) (printfLoop str convBuf none fmt args) := by
    rw [printfLoop, if_neg (by decide), convert_hex]
    rfl
  rw [printf, hpercent, hsharp, hconvert]
  simp [after, printf, Function.comp_def]

/-! ## `%x`, `%u` and `%d` -/

theorem unsignedPlain_eq {radix : BitVec 32} (h2 : 2 ≤ radix.toNat) (h36 : radix.toNat ≤ 36)
    (value : BitVec 32) (convBuf : Memory) :
    (unsignedPlain radix value convBuf).result = some (numeral radix.toNat value.toNat) := by
  rw [unsignedPlain, result_bindSome (itoa_eq h2 h36 value 0 convBuf).1]
  exact (itoa_holds h2 h36 value 0 convBuf).puts.1

/-- A negative number is printed as its absolute value behind a minus sign, the least one too. -/
theorem signedPlain_eq (value : BitVec 32) (convBuf : Memory) :
    (signedPlain value convBuf).result =
      some (if value.toInt < 0 then 45 :: numeral 10 value.toInt.natAbs
        else numeral 10 value.toInt.natAbs) := by
  have hbound := value.isLt
  have hzero : (0 : BitVec 32).toInt = 0 := rfl
  unfold signedPlain
  simp only [BitVec.slt_iff_toInt_lt, hzero]
  by_cases hneg : value.toInt < 0
  · have habs : (-value).toNat = value.toInt.natAbs := by
      rw [BitVec.toInt_eq_toNat_cond] at hneg ⊢
      rw [BitVec.toNat_neg]
      split at hneg
      · omega
      · rw [if_neg ‹_›]
        omega
    have h2 : 2 ≤ (10 : BitVec 32).toNat := by decide
    have hlen := wordNumeral_length h2 (-value)
    have hitoa := (itoa_eq h2 (by decide) (-value) 1 (Function.update convBuf 0 45)).1
    have hten : (10 : BitVec 32).toNat = 10 := rfl
    rw [hten, habs] at hitoa hlen
    have hminus : fill (Function.update convBuf 0 45) 1 (numeral 10 value.toInt.natAbs ++ [0]) =
        fill convBuf 0 ((45 :: numeral 10 value.toInt.natAbs) ++ [0]) := by
      rw [List.cons_append, Buffers.fill_cons]
    rw [hminus] at hitoa
    have htext : ∀ c ∈ 45 :: numeral 10 value.toInt.natAbs, c ≠ 0 := by
      intro c hc
      rcases List.mem_cons.1 hc with rfl | hds
      · decide
      · exact numeral_text (by decide) (by decide) hds
    have hheld := holdsString_fill convBuf 0 htext (by rw [List.length_cons]; omega)
    rw [if_pos hneg, if_pos hneg, result_access, result_bindSome hitoa]
    exact hheld.puts.1
  · have habs : value.toNat = value.toInt.natAbs := by
      rw [BitVec.toInt_eq_toNat_cond] at hneg ⊢
      split at hneg
      · rw [if_pos ‹_›]
        omega
      · omega
    rw [if_neg hneg, if_neg hneg, unsignedPlain_eq (by decide) (by decide), habs]
    rfl

/-! ## Summary -/

/-- `itoa` has stored the numeral of `value` at `buf` with a NUL behind it, and nothing else; it has
touched the bytes from `buf` on only, as many as the numeral needs. -/
structure ItoaExact (value : BitVec 32) (buf : Nat) (radix : BitVec 32) (mem : Memory)
    (ds : List UInt8) : Prop where
  numeral : IsNumeral radix.toNat value.toNat ds
  stored : (itoa value buf radix mem).result = some (fill mem buf (ds ++ [0]))
  touched : (itoa value buf radix mem).Within fun a => buf ≤ a ∧ a < buf + (ds.length + 1)
  bytes : ds.length + 1 ≤ 33

/-- `%#x` prints `out`, which are eight digits of the same value. `mem1` is the buffer after `itoa`
and `start` the length of the numeral in it, from byte 8 on. -/
structure HexExact (value : BitVec 32) (convBuf : Memory) (out : List UInt8) : Prop where
  length : out.length = 8
  digits : ∀ c ∈ out, ∃ d < 16, digitValue c = some d
  reads : Numerals.read 16 digitValue out = some value.toNat
  printed : ∀ (str : BitVec 32 → CString) (fmt : CString) (args : List (BitVec 32)),
    printf str convBuf (37 :: 35 :: 120 :: fmt) (value :: args) =
      (printf str convBuf fmt args).map fun r => (out ++ r.1, r.2 + 3)
  inside : (hexAlternate value convBuf).Within (· < 64)
  padding : ∀ mem1 start, (itoa value 8 16 convBuf).result = some mem1 →
    (strlen mem1 8).result = some start →
      (padLoop (8 - start) start mem1).Within (· < 8) ∧
      ∀ i, 8 ≤ i → (padLoop (8 - start) start mem1).result i = mem1 i

theorem itoa_exact {radix : BitVec 32} (h2 : 2 ≤ radix.toNat) (h36 : radix.toNat ≤ 36)
    (value : BitVec 32) (buf : Nat) (mem : Memory) :
    ItoaExact value buf radix mem (LibC.numeral radix.toNat value.toNat) := by
  obtain ⟨hresult, hwithin⟩ := itoa_eq h2 h36 value buf mem
  exact ⟨numeral_isNumeral h2 h36, hresult, hwithin.mono fun a ha => by omega,
    Nat.succ_le_succ (wordNumeral_length h2 value)⟩

theorem hex_exact (value : BitVec 32) (convBuf : Memory) :
    HexExact value convBuf (paddedHex value.toNat) := by
  refine ⟨paddedHex_length value, fun c hc => ?_, paddedHex_read _,
    fun str fmt args => printf_hex str convBuf fmt value args, (hexAlternate_eq value convBuf).2,
    fun mem1 start hitoa hlen => ?_⟩
  · obtain ⟨d, hd, rfl⟩ := paddedHex_digits hc
    exact ⟨d, hd, digitValue_digitChar (by omega)⟩
  · have hle := hexNumeral_length value
    obtain ⟨hresult, -, hheld⟩ := itoa_hex value convBuf
    rw [hitoa, Option.some.injEq] at hresult
    rw [← hresult] at hheld
    rw [hheld.strlen.1, Option.some.injEq] at hlen
    obtain ⟨hpad, htouch⟩ := padLoop_eq (8 - start) start mem1
    refine ⟨htouch.mono fun a ha => by omega, fun i hi => ?_⟩
    rw [hpad, Buffers.fill_outside _ (Or.inr (by rw [List.length_replicate]; omega))]

/-- Every 32-bit value in every radix from 2 to 36, and `%#x` of every value. -/
theorem number_formatting_exact (value radix : BitVec 32) (buf : Nat) (mem convBuf : Memory)
    (h2 : 2 ≤ radix.toNat) (h36 : radix.toNat ≤ 36) :
    (∃ ds, ItoaExact value buf radix mem ds) ∧ ∃ out, HexExact value convBuf out :=
  ⟨⟨_, itoa_exact h2 h36 value buf mem⟩, ⟨_, hex_exact value convBuf⟩⟩

theorem number_formatting_exact_hex : (∃ ds, ItoaExact 0xE 8 16 (fun _ => 255) ds) ∧
    ∃ out, HexExact 0xE (fun _ => 255) out :=
  number_formatting_exact 0xE 16 8 (fun _ => 255) (fun _ => 255) (by decide) (by decide)

end LibC
end DeviceOS
