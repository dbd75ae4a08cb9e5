import DeviceOS.NumberFormat

/-!
# DeviceOS.PrintfFormats

`printf` on whole formats.

* `Piece`: a character that is printed as it is, or a conversion with the `#` before it. A format is a
  list of pieces (`source`), and what it prints is said for each piece (`render`).
* `printf_source`: the loop of `printf` prints what the pieces print.
* `pieces_or_open`: every format is a list of pieces, or such a list with a conversion that is not
  finished behind it.
* `printf_formats`: both together.
-/

namespace DeviceOS
namespace LibC

/-! ## The pieces of a format -/

/-- `conv n c`: `%`, `n` times `#`, and the conversion `c`. -/
inductive Piece where
  | text (c : UInt8)
  | conv (n : Nat) (c : UInt8)

namespace Piece

def source : Piece → List UInt8
  | text c => [c]
  | conv n c => 37 :: (List.replicate n 35 ++ [c])

/-- It is written as itself. -/
def Valid : Piece → Prop
  | text c => c ≠ 0 ∧ c ≠ 37
  | conv _ c => c ≠ 35

end Piece

/-- The conversions with an argument. -/
def takesArg (c : UInt8) : Bool := c = 120 ∨ c = 117 ∨ c = 100 ∨ c = 99 ∨ c = 115

/-- What a conversion shows of its argument. -/
def shownArg (str : BitVec 32 → CString) (n : Nat) (c : UInt8) (value : BitVec 32) : List UInt8 :=
  if c = 120 then if n = 0 then numeral 16 value.toNat else paddedHex value.toNat
  else if c = 117 then numeral 10 value.toNat
  else if c = 100 then
    if value.toInt < 0 then 45 :: numeral 10 value.toInt.natAbs else numeral 10 value.toInt.natAbs
  else if c = 99 then [value.toNat.toUInt8]
  else (str value).text

def source (ps : List Piece) : List UInt8 := ps.flatMap Piece.source

def Piece.demand : Piece → Nat
  | .text _ => 0
  | .conv _ c => if takesArg c then 1 else 0

/-- The number of arguments. -/
def demand (ps : List Piece) : Nat := (ps.map Piece.demand).sum

theorem demand_cons (p : Piece) (ps : List Piece) : demand (p :: ps) = p.demand + demand ps := by
  rw [demand, List.map_cons, List.sum_cons]
  rfl

/-- What a format prints. -/
def render (str : BitVec 32 → CString) : List Piece → List (BitVec 32) → List UInt8
  | [], _ => []
  | .text c :: ps, args => c :: render str ps args
  | .conv n c :: ps, args =>
    if takesArg c then
      match args with
      | [] => []
      | value :: rest => shownArg str n c value ++ render str ps rest
    else (if c = 37 then [37] else []) ++ render str ps args

/-! ## One conversion -/

variable (str : BitVec 32 → CString) (convBuf : Memory)

theorem convert_takesArg {n : Nat} {c : UInt8} (hc : takesArg c = true) (value : BitVec 32)
    (args : List (BitVec 32)) :
    convert str convBuf (decide (n ≠ 0)) c (value :: args) =
      some (shownArg str n c value, args) := by
  have hhex := (hexAlternate_eq value convBuf).1
  have h16 := @unsignedPlain_eq 16 (by decide) (by decide) value convBuf
  have h10 := @unsignedPlain_eq 10 (by decide) (by decide) value convBuf
  have hsigned := signedPlain_eq value convBuf
  rw [takesArg, decide_eq_true_eq] at hc
  unfold convert shownArg
  rcases hc with rfl | rfl | rfl | rfl | rfl
  · by_cases hn : n = 0
    · simpa [hn] using h16
    · simpa [hn] using hhex
  · simpa using h10
  · simpa using hsigned
  · simp
  · simp

theorem convert_plain {alternate : Bool} {c : UInt8} (hc : takesArg c = false)
    (args : List (BitVec 32)) :
    convert str convBuf alternate c args = some (if c = 37 then [37] else [], args) := by
  rw [takesArg, decide_eq_false_iff_not] at hc
  unfold convert
  by_cases h37 : c = 37
  · simp [h37]
  · rw [if_neg h37, if_neg hc, if_neg h37]

/-! ## The loop -/

theorem printfLoop_hashes {c : UInt8} (hc : c ≠ 35) (fmt : CString) (args : List (BitVec 32)) :
    ∀ (n : Nat) (alternate : Bool),
      printfLoop str convBuf (some alternate) (List.replicate n 35 ++ c :: fmt) args =
        (convert str convBuf (alternate || decide (n ≠ 0)) c args).bind fun r =>
          (printfLoop str convBuf none fmt r.2).map fun x => (r.1 ++ x.1, x.2 + (n + 1)) := by
  intro n
  induction n with
  | zero =>
    intro alternate
    rw [List.replicate_zero, List.nil_append, printfLoop, if_neg hc]
    simp [after]
  | succ n ih =>
    intro alternate
    have hhash : printfLoop str convBuf (some alternate)
        (List.replicate (n + 1) 35 ++ c :: fmt) args =
          after [] (printfLoop str convBuf (some true) (List.replicate n 35 ++ c :: fmt) args) := rfl
    have htrue : (alternate || decide (n + 1 ≠ 0)) = true := by simp
    rw [hhash, ih true, htrue, Bool.true_or, after]
    cases convert str convBuf true c args with
    | none => rfl
    | some r => simp [Function.comp_def, Nat.add_assoc]

theorem printfLoop_conv {n : Nat} {c : UInt8} (hc : c ≠ 35) (fmt : CString)
    (args : List (BitVec 32)) :
    printfLoop str convBuf none (37 :: (List.replicate n 35 ++ c :: fmt)) args =
      (convert str convBuf (decide (n ≠ 0)) c args).bind fun r =>
        (printfLoop str convBuf none fmt r.2).map fun x => (r.1 ++ x.1, x.2 + (n + 2)) := by
  have hpercent : printfLoop str convBuf none (37 :: (List.replicate n 35 ++ c :: fmt)) args =
      after [] (printfLoop str convBuf (some false) (List.replicate n 35 ++ c :: fmt) args) := rfl
  rw [hpercent, printfLoop_hashes str convBuf hc, Bool.false_or, after]
  cases convert str convBuf (decide (n ≠ 0)) c args with
  | none => rfl
  | some r => simp [Function.comp_def, Nat.add_assoc]

theorem source_cons (p : Piece) (ps : List Piece) : source (p :: ps) = p.source ++ source ps := rfl

/-- The loop prints what the pieces print. -/
theorem printf_source {ps : List Piece} (hps : ∀ p ∈ ps, p.Valid) :
    ∀ {args : List (BitVec 32)}, demand ps ≤ args.length →
      printf str convBuf (source ps) args = some (render str ps args, (source ps).length) := by
  induction ps with
  | nil => intro args _; rfl
  | cons p ps ih =>
    intro args hargs
    have hp := hps p (by simp)
    have hrest := @ih fun q hq => hps q (List.mem_cons_of_mem _ hq)
    rw [demand_cons] at hargs
    unfold printf at hrest ⊢
    cases p with
    | text c =>
      have htext : printfLoop str convBuf none (source (.text c :: ps)) args =
          after [c] (printfLoop str convBuf none (source ps) args) := by
        rw [source_cons, Piece.source, List.singleton_append, printfLoop, if_neg hp.1, if_neg hp.2]
      rw [htext, hrest (by simpa [Piece.demand] using hargs)]
      rfl
    | conv n c =>
      have hsource : source (.conv n c :: ps) = 37 :: (List.replicate n 35 ++ c :: source ps) := by
        simp [source_cons, Piece.source]
      have hlength : (source (.conv n c :: ps)).length = (source ps).length + (n + 2) := by
        rw [hsource]
        simp
        omega
      rw [hlength, hsource, printfLoop_conv str convBuf hp]
      cases hc : takesArg c with
      | true =>
        cases args with
        | nil => simp [Piece.demand, hc] at hargs
        | cons value rest =>
          have hdemand : demand ps ≤ rest.length := by
            simp only [Piece.demand, hc, if_true, List.length_cons] at hargs
            omega
          rw [convert_takesArg str convBuf hc, Option.bind_some, hrest hdemand]
          simp [render, hc]
      | false =>
        rw [convert_plain str convBuf hc, Option.bind_some,
          hrest (by simpa [Piece.demand, hc] using hargs)]
        simp [render, hc]

/-! ## Every format -/

/-- A conversion that is not finished. -/
theorem printfLoop_open (args : List (BitVec 32)) : ∀ (n : Nat) (alternate : Bool),
    printfLoop str convBuf (some alternate) (List.replicate n 35) args = none := by
  intro n
  induction n with
  | zero => intro alternate; rfl
  | succ n ih =>
    intro alternate
    have hhash : printfLoop str convBuf (some alternate) (List.replicate (n + 1) 35) args =
        after [] (printfLoop str convBuf (some true) (List.replicate n 35) args) := rfl
    rw [hhash, ih true]
    rfl

/-- What `printf` reads while it is in a conversion. -/
theorem hashes_cases (fmt : CString) : (∃ n, fmt = List.replicate n 35) ∨
    ∃ n c rest, fmt = List.replicate n 35 ++ c :: rest ∧ c ≠ 35 := by
  induction fmt with
  | nil => exact Or.inl ⟨0, rfl⟩
  | cons c fmt ih =>
    by_cases hc : c = 35
    · subst hc
      rcases ih with ⟨n, rfl⟩ | ⟨n, d, rest, rfl, hd⟩
      · exact Or.inl ⟨n + 1, rfl⟩
      · exact Or.inr ⟨n + 1, d, rest, rfl, hd⟩
    · exact Or.inr ⟨0, c, fmt, rfl, hc⟩

/-- Every format consists of pieces, up to a conversion that is not finished. -/
theorem pieces_or_open (fmt : CString) (h0 : 0 ∉ fmt) : ∃ ps : List Piece, (∀ p ∈ ps, p.Valid) ∧
    (fmt = source ps ∨ ∃ n, fmt = source ps ++ 37 :: List.replicate n 35) := by
  induction hlen : fmt.length using Nat.strong_induction_on generalizing fmt with
  | _ len ih =>
    cases fmt with
    | nil => exact ⟨[], by simp, Or.inl rfl⟩
    | cons c fmt =>
      rw [List.mem_cons, not_or] at h0
      by_cases hc : c = 37
      · subst hc
        rcases hashes_cases fmt with ⟨n, rfl⟩ | ⟨n, d, rest, rfl, hd⟩
        · exact ⟨[], by simp, Or.inr ⟨n, rfl⟩⟩
        · obtain ⟨ps, hps, hfmt⟩ := ih rest.length (by simp at hlen; omega) rest
            (fun h => h0.2 (by simp [h])) rfl
          refine ⟨.conv n d :: ps, ?_, ?_⟩
          · intro p hp
            rcases List.mem_cons.mp hp with rfl | hp
            · exact hd
            · exact hps p hp
          · rcases hfmt with rfl | ⟨k, rfl⟩
            · exact Or.inl (by simp [source_cons, Piece.source])
            · exact Or.inr ⟨k, by simp [source_cons, Piece.source]⟩
      · obtain ⟨ps, hps, hfmt⟩ := ih fmt.length (by simp at hlen; omega) fmt h0.2 rfl
        refine ⟨.text c :: ps, ?_, ?_⟩
        · intro p hp
          rcases List.mem_cons.mp hp with rfl | hp
          · exact ⟨Ne.symm h0.1, hc⟩
          · exact hps p hp
        · rcases hfmt with rfl | ⟨k, rfl⟩
          · exact Or.inl rfl
          · exact Or.inr ⟨k, rfl⟩

/-- Behind a conversion that is not finished, the loop reads on past the end of the format. -/
theorem printf_open {ps : List Piece} (hps : ∀ p ∈ ps, p.Valid) (n : Nat) :
    ∀ args : List (BitVec 32),
      printf str convBuf (source ps ++ 37 :: List.replicate n 35) args = none := by
  induction ps with
  | nil =>
    intro args
    have hpercent : printf str convBuf (source [] ++ 37 :: List.replicate n 35) args =
        after [] (printfLoop str convBuf (some false) (List.replicate n 35) args) := rfl
    rw [hpercent, printfLoop_open]
    rfl
  | cons p ps ih =>
    intro args
    have hp := hps p (by simp)
    have hrest := ih fun q hq => hps q (List.mem_cons_of_mem _ hq)
    unfold printf at hrest ⊢
    rw [source_cons, List.append_assoc]
    cases p with
    | text c =>
      rw [Piece.source, List.singleton_append, printfLoop, if_neg hp.1, if_neg hp.2, hrest]
      rfl
    | conv m c =>
      rw [Piece.source, List.cons_append, List.append_assoc, List.singleton_append,
        printfLoop_conv str convBuf hp]
      cases convert str convBuf (decide (m ≠ 0)) c args with
      | none => rfl
      | some r => rw [Option.bind_some, hrest, Option.map_none]

/-- Every format, whatever is in the conversion buffer and in the strings: it consists of characters
and conversions, and `printf` prints these one after the other, each conversion with the next
argument, and returns the length of the format; or it ends in a conversion that is not finished, and
`printf` reads on past its end. -/
theorem printf_formats (str : BitVec 32 → CString) (convBuf : Memory) (fmt : CString)
    (h0 : 0 ∉ fmt) :
    (∃ ps : List Piece, (∀ p ∈ ps, p.Valid) ∧ source ps = fmt ∧
      ∀ args, demand ps ≤ args.length →
        printf str convBuf fmt args = some (render str ps args, fmt.length)) ∨
    (∃ (ps : List Piece) (n : Nat), fmt = source ps ++ 37 :: List.replicate n 35) ∧
      ∀ args, printf str convBuf fmt args = none := by
  obtain ⟨ps, hps, rfl | ⟨n, rfl⟩⟩ := pieces_or_open fmt h0
  · exact Or.inl ⟨ps, hps, rfl, fun args hargs => printf_source str convBuf hps hargs⟩
  · exact Or.inr ⟨⟨ps, n, rfl⟩, printf_open str convBuf hps n⟩

/-- `x=%d%%`. -/
theorem printf_formats_percent :
    (∃ ps : List Piece, (∀ p ∈ ps, p.Valid) ∧ source ps = [120, 61, 37, 100, 37, 37] ∧
      ∀ args, demand ps ≤ args.length →
        printf (fun _ => []) (fun _ => 0) [120, 61, 37, 100, 37, 37] args =
          some (render (fun _ => []) ps args, 6)) ∨
    (∃ (ps : List Piece) (n : Nat),
      [120, 61, 37, 100, 37, 37] = source ps ++ 37 :: List.replicate n 35) ∧
      ∀ args, printf (fun _ => []) (fun _ => 0) [120, 61, 37, 100, 37, 37] args = none :=
  printf_formats (fun _ => []) (fun _ => 0) [120, 61, 37, 100, 37, 37] (by decide)

end LibC
end DeviceOS
