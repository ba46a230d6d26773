import KeyEngine.Score.Decimal
import Mathlib.Algebra.Order.Field.Power
import Mathlib.Algebra.Order.Floor.Ring
import Mathlib.Data.Int.Log
import Mathlib.Data.Rat.Floor
import Mathlib.Tactic.FieldSimp
import Mathlib.Tactic.Linarith
import Mathlib.Tactic.NormNum
import Mathlib.Tactic.Positivity
import Mathlib.Tactic.Ring

/-!
# Rounding goes by the value

The nearest score of a quotient depends on the quotient alone and not on how it is written, so two decimals of one
value round to one score. A decimal whose value is that of a finite score rounds to this score, which makes the
decimal that is printed for a score read back as the score.
-/

namespace KeyEngine

namespace Decimal

variable {n d n' d' : Nat} {e : Int}

/-! ## Quotients -/

theorem roundDiv_mul_right {k : Nat} (hk : 0 < k) (n d : Nat) : roundDiv (n * k) (d * k) = roundDiv n d := by
  have hdouble : 2 * (n * k % (d * k)) = 2 * (n % d) * k := by rw [Nat.mul_mod_mul_right, Nat.mul_assoc]
  unfold roundDiv
  simp only [hdouble, Nat.mul_div_mul_right n d hk, Nat.mul_lt_mul_right hk]

theorem roundDiv_congr (hd : 0 < d) (hd' : 0 < d') (h : (n : ℚ) / d = (n' : ℚ) / d') :
    roundDiv n d = roundDiv n' d' := by
  have hne : (d : ℚ) ≠ 0 := by exact_mod_cast hd.ne'
  have hne' : (d' : ℚ) ≠ 0 := by exact_mod_cast hd'.ne'
  have hcross : n * d' = n' * d := by
    rw [div_eq_div_iff hne hne'] at h
    exact_mod_cast h
  calc roundDiv n d = roundDiv (n * d') (d * d') := (roundDiv_mul_right hd' n d).symm
    _ = roundDiv (n' * d) (d' * d) := by rw [hcross, Nat.mul_comm d d']
    _ = roundDiv n' d' := roundDiv_mul_right hd n' d'

theorem roundDiv_of_eq (hd : 0 < d) {m : Nat} (h : (n : ℚ) / d = m) : roundDiv n d = m := by
  have hwhole : (n : ℚ) / d = (m : ℚ) / (1 : Nat) := by rw [h, Nat.cast_one, div_one]
  rw [roundDiv_congr hd Nat.one_pos hwhole]
  simp [roundDiv, Nat.mod_one]

theorem scaled_pos (hd : 0 < d) (n : Nat) (e : Int) : 0 < (scaled n d e).2 := by
  cases e with
  | ofNat e => exact Nat.mul_pos hd (Nat.pow_pos (by decide))
  | negSucc e => exact hd

theorem scaled_eq_div (n d : Nat) (e : Int) :
    ((scaled n d e).1 : ℚ) / (scaled n d e).2 = (n : ℚ) / d / 2 ^ e := by
  cases e with
  | ofNat e =>
    simp only [scaled, Nat.pow_eq, Nat.cast_mul, Nat.cast_pow, Nat.cast_ofNat, Int.ofNat_eq_natCast, zpow_natCast]
    rw [div_div]
  | negSucc e =>
    simp only [scaled, Nat.pow_eq, Nat.cast_mul, Nat.cast_pow, Nat.cast_ofNat, zpow_negSucc, div_inv_eq_mul]
    ring

/-! ## The unit -/

theorem log_eq {b : Nat} (hb : 1 < b) {x : ℚ} (hlow : (b : ℚ) ^ e ≤ x) (hhigh : x < (b : ℚ) ^ (e + 1)) :
    Int.log b x = e := by
  have hb₀ : (0 : ℚ) < b := by exact_mod_cast Nat.zero_lt_of_lt hb
  have hx : 0 < x := lt_of_lt_of_le (zpow_pos hb₀ e) hlow
  have hle := (Int.zpow_le_iff_le_log hb hx).mp hlow
  have hlt := (Int.lt_zpow_iff_log_lt hb hx).mp hhigh
  omega

/-- The powers of two that lead numerator and denominator enclose the quotient. -/
theorem log2_bounds (hn : 0 < n) (hd : 0 < d) (he : e = n.log2 - d.log2) :
    (2 : ℚ) ^ (e - 1) ≤ (n : ℚ) / d ∧ (n : ℚ) / d < 2 ^ (e + 1) := by
  have hd₀ : (0 : ℚ) < d := by exact_mod_cast hd
  have hnlow : (2 : ℚ) ^ (n.log2 : Int) ≤ n := by exact_mod_cast Nat.log2_self_le hn.ne'
  have hnhigh : (n : ℚ) < 2 ^ (n.log2 + 1 : Int) := by exact_mod_cast Nat.lt_log2_self (n := n)
  have hdlow : (2 : ℚ) ^ (d.log2 : Int) ≤ d := by exact_mod_cast Nat.log2_self_le hd.ne'
  have hdhigh : (d : ℚ) < 2 ^ (d.log2 + 1 : Int) := by exact_mod_cast Nat.lt_log2_self (n := d)
  have hlow : e - 1 + (d.log2 + 1) = n.log2 := by omega
  have hhigh : e + 1 + d.log2 = n.log2 + 1 := by omega
  constructor
  · rw [le_div_iff₀ hd₀]
    calc (2 : ℚ) ^ (e - 1) * d ≤ 2 ^ (e - 1) * 2 ^ (d.log2 + 1 : Int) := by gcongr
      _ = 2 ^ (n.log2 : Int) := by rw [← zpow_add₀ (by norm_num), hlow]
      _ ≤ n := hnlow
  · rw [div_lt_iff₀ hd₀]
    calc (n : ℚ) < 2 ^ (n.log2 + 1 : Int) := hnhigh
      _ = 2 ^ (e + 1) * 2 ^ (d.log2 : Int) := by rw [← zpow_add₀ (by norm_num), hhigh]
      _ ≤ 2 ^ (e + 1) * d := by gcongr

theorem scaled_lt_hiddenBit (hd : 0 < d) (n : Nat) (e : Int) :
    (scaled n d e).1 < Score.hiddenBit * (scaled n d e).2 ↔ (n : ℚ) / d < 2 ^ (e + 52) := by
  have hb : (0 : ℚ) < (scaled n d e).2 := by exact_mod_cast scaled_pos hd n e
  have hhidden : (Score.hiddenBit : ℚ) = 2 ^ (52 : Int) := by norm_num [Score.hiddenBit]
  calc (scaled n d e).1 < Score.hiddenBit * (scaled n d e).2
      ↔ ((scaled n d e).1 : ℚ) < Score.hiddenBit * (scaled n d e).2 := by exact_mod_cast Iff.rfl
    _ ↔ (n : ℚ) / d / 2 ^ e < 2 ^ (52 : Int) := by rw [← div_lt_iff₀ hb, scaled_eq_div, hhidden]
    _ ↔ (n : ℚ) / d < 2 ^ (e + 52) := by
      rw [div_lt_iff₀ (by positivity), ← zpow_add₀ (by norm_num), add_comm 52 e]

theorem unitExponent_eq (hn : 0 < n) (hd : 0 < d) :
    unitExponent n d = max (Int.log 2 ((n : ℚ) / d) - 52) (-1074) := by
  obtain ⟨hlow, hhigh⟩ := log2_bounds hn hd rfl
  have hcut := scaled_lt_hiddenBit hd n (n.log2 - d.log2 - 52)
  rw [Int.sub_add_cancel] at hcut
  unfold unitExponent
  simp only
  by_cases h : (n : ℚ) / d < 2 ^ (n.log2 - d.log2 : Int)
  · rw [if_pos (hcut.mpr h), log_eq (by decide) hlow (by rwa [Int.sub_add_cancel])]
    congr 1
    omega
  · rw [if_neg (mt hcut.mp h), log_eq (by decide) (not_lt.mp h) hhigh]

theorem nearest_congr (hn : 0 < n) (hd : 0 < d) (hn' : 0 < n') (hd' : 0 < d') (h : (n : ℚ) / d = (n' : ℚ) / d') :
    nearest n d = nearest n' d' := by
  have hunit : unitExponent n d = unitExponent n' d' := by rw [unitExponent_eq hn hd, unitExponent_eq hn' hd', h]
  have hround : ∀ e, roundDiv (scaled n d e).1 (scaled n d e).2 = roundDiv (scaled n' d' e).1 (scaled n' d' e).2 :=
    fun e => roundDiv_congr (scaled_pos hd n e) (scaled_pos hd' n' e) (by rw [scaled_eq_div, scaled_eq_div, h])
  unfold nearest
  simp only [hunit, hround]

end Decimal

namespace Score

variable {s : Score} {n d : Nat}

/-! ## Finite scores -/

/-- The magnitude of a finite score as a number. -/
def absolute (s : Score) : ℚ :=
  s.significand * (2 : ℚ) ^ s.exponent

/-- The parts of a finite score put together again. The significand has fifty-three bits in it unless the exponent is
the smallest. -/
theorem parts (hfin : s.magnitude < infinite) :
    s.significand < 2 * hiddenBit ∧ -1074 ≤ s.exponent ∧ s.exponent ≤ 971 ∧
      (hiddenBit ≤ s.significand ∨ s.exponent = -1074) ∧
      s.significand + (s.exponent + 1074).toNat * hiddenBit = s.magnitude := by
  unfold significand exponent
  unfold infinite at hfin
  split
  · rename_i hsmall
    unfold hiddenBit at *
    omega
  · unfold hiddenBit at *
    omega

theorem significand_pos (hfin : s.magnitude < infinite) (hne : s.magnitude ≠ 0) : 0 < s.significand := by
  obtain ⟨-, -, -, hbits, hsum⟩ := parts hfin
  have : 0 < hiddenBit := by decide
  rcases hbits with hlarge | hexp
  · omega
  · simp only [hexp, Int.add_left_neg, Int.toNat_zero, Nat.zero_mul, Nat.add_zero] at hsum
    omega

theorem absolute_pos (hfin : s.magnitude < infinite) (hne : s.magnitude ≠ 0) : 0 < s.absolute := by
  have : (0 : ℚ) < s.significand := by exact_mod_cast significand_pos hfin hne
  exact mul_pos this (by positivity)

theorem absolute_lt (hfin : s.magnitude < infinite) : s.absolute < 2 ^ (s.exponent + 53) := by
  have hlt : (s.significand : ℚ) < 2 ^ (53 : Int) := by
    have : (2 : ℚ) ^ (53 : Int) = (2 * hiddenBit : Nat) := by norm_num [hiddenBit]
    rw [this]
    exact_mod_cast (parts hfin).1
  unfold absolute
  rw [zpow_add₀ (by norm_num), mul_comm]
  gcongr

theorem le_absolute (h : hiddenBit ≤ s.significand) : 2 ^ (s.exponent + 52) ≤ s.absolute := by
  have hle : (2 : ℚ) ^ (52 : Int) ≤ s.significand := by
    have : (2 : ℚ) ^ (52 : Int) = hiddenBit := by norm_num [hiddenBit]
    rw [this]
    exact_mod_cast h
  unfold absolute
  rw [zpow_add₀ (by norm_num), mul_comm]
  gcongr

/-! ## Quotients that are scores -/

/-- A finite score is rounded in the unit that it is written in. -/
theorem unitExponent_of_eq (hfin : s.magnitude < infinite) (hne : s.magnitude ≠ 0) (hn : 0 < n) (hd : 0 < d)
    (h : (n : ℚ) / d = s.absolute) : Decimal.unitExponent n d = s.exponent := by
  have hpos := absolute_pos hfin hne
  have hlog := (Int.lt_zpow_iff_log_lt (b := 2) (by decide) hpos).mp (absolute_lt hfin)
  obtain ⟨-, hleast, -, hbits, -⟩ := parts hfin
  rw [Decimal.unitExponent_eq hn hd, h]
  rcases hbits with hlarge | hexp
  · have := (Int.zpow_le_iff_le_log (b := 2) (by decide) hpos).mp (le_absolute hlarge)
    omega
  · omega

theorem nearest_of_eq (hfin : s.magnitude < infinite) (hne : s.magnitude ≠ 0) (hn : 0 < n) (hd : 0 < d)
    (h : (n : ℚ) / d = s.absolute) : Decimal.nearest n d = s.magnitude := by
  have hround : Decimal.roundDiv (Decimal.scaled n d s.exponent).1 (Decimal.scaled n d s.exponent).2 =
      s.significand := by
    refine Decimal.roundDiv_of_eq (Decimal.scaled_pos hd n _) ?_
    rw [Decimal.scaled_eq_div, h, absolute, mul_div_cancel_right₀ _ (by positivity)]
  have hsum := (parts hfin).2.2.2.2
  unfold Decimal.nearest
  simp only [unitExponent_of_eq hfin hne hn hd h, hround, hsum]
  omega

end Score

namespace Decimal

variable {d d' : Decimal} {s : Score}

/-! ## Decimals -/

def value (d : Decimal) : ℚ :=
  d.digits * (10 : ℚ) ^ d.exponent

theorem value_eq_zero : d.value = 0 ↔ d.digits = 0 := by
  simp [value, zpow_ne_zero]

theorem value_pos (h : d.digits ≠ 0) : 0 < d.value := by
  have : (0 : ℚ) < d.digits := by exact_mod_cast Nat.pos_of_ne_zero h
  exact mul_pos this (by positivity)

theorem ratio_pos (d : Decimal) : 0 < d.ratio.2 := by
  unfold ratio
  cases d.exponent with
  | ofNat e => exact Nat.one_pos
  | negSucc e => exact Nat.pow_pos (by decide)

theorem ratio_eq_value (d : Decimal) : (d.ratio.1 : ℚ) / d.ratio.2 = d.value := by
  unfold ratio value
  cases d.exponent with
  | ofNat e => simp
  | negSucc e => simp [zpow_negSucc, div_eq_mul_inv]

theorem ratio_numerator_pos (h : d.digits ≠ 0) : 0 < d.ratio.1 := by
  have hpos := value_pos h
  rw [← ratio_eq_value] at hpos
  refine Nat.pos_of_ne_zero fun hzero => ?_
  simp [hzero] at hpos

theorem digitCount_bounds {n : Nat} (hn : n ≠ 0) : ∃ k, digitCount n = k + 1 ∧ 10 ^ k ≤ n ∧ n < 10 ^ (k + 1) := by
  obtain ⟨k, hk⟩ : ∃ k, digitCount n = k + 1 := Nat.exists_eq_succ_of_ne_zero Nat.length_toDigits_pos.ne'
  refine ⟨k, hk, ?_, (Nat.length_toDigits_le_iff (by decide) k.succ_pos).mp hk.le⟩
  rcases Nat.eq_zero_or_pos k with hzero | hpos
  · subst hzero
    exact Nat.pos_of_ne_zero hn
  · refine Nat.not_lt.mp fun hlt => ?_
    have hle : digitCount n ≤ k := (Nat.length_toDigits_le_iff (by decide) hpos).mpr hlt
    omega

theorem size_eq (h : d.digits ≠ 0) : d.exponent + digitCount d.digits = Int.log 10 d.value + 1 := by
  obtain ⟨k, hk, hlow, hhigh⟩ := digitCount_bounds h
  have hlog : Int.log 10 d.value = k + d.exponent := by
    refine log_eq (by decide) ?_ ?_
    · have : (10 : ℚ) ^ (k : Int) ≤ d.digits := by exact_mod_cast hlow
      unfold value
      rw [Nat.cast_ofNat, zpow_add₀ (by norm_num)]
      gcongr
    · have : (d.digits : ℚ) < 10 ^ (k + 1 : Int) := by exact_mod_cast hhigh
      unfold value
      rw [Nat.cast_ofNat, add_right_comm, zpow_add₀ (by norm_num)]
      gcongr
  rw [hlog, hk, Nat.cast_succ]
  omega

/-- Decimals of one value round to one score. -/
theorem round_congr (h : d.value = d'.value) : d.round = d'.round := by
  by_cases hd : d.digits = 0
  · have hd' : d'.digits = 0 := by rw [← value_eq_zero, ← h, value_eq_zero, hd]
    simp [round, hd, hd']
  · have hd' : d'.digits ≠ 0 := by rwa [ne_eq, ← value_eq_zero, ← h, value_eq_zero]
    have hnearest : nearest d.ratio.1 d.ratio.2 = nearest d'.ratio.1 d'.ratio.2 :=
      nearest_congr (ratio_numerator_pos hd) d.ratio_pos (ratio_numerator_pos hd') d'.ratio_pos
        (by rw [ratio_eq_value, ratio_eq_value, h])
    unfold round
    simp only [hd, hd', size_eq hd, size_eq hd', h, hnearest]

/-! ## Decimals of scores -/

theorem size_of_value (hfin : s.magnitude < Score.infinite) (hne : s.magnitude ≠ 0) (h : d.value = s.absolute) :
    -330 ≤ Int.log 10 d.value + 1 ∧ Int.log 10 d.value + 1 ≤ 310 := by
  obtain ⟨-, hleast, hmost, -⟩ := Score.parts hfin
  have hpos := Score.absolute_pos hfin hne
  have hlow : (10 : ℚ) ^ (-331 : Int) ≤ s.absolute := by
    have hone : (1 : ℚ) ≤ s.significand := by exact_mod_cast Score.significand_pos hfin hne
    have hten : 2 ^ 1074 ≤ 10 ^ 331 := by decide +kernel
    calc (10 : ℚ) ^ (-331 : Int) ≤ 1 * 2 ^ (-1074 : Int) := by
          rw [one_mul, zpow_neg, zpow_neg]
          gcongr
          exact_mod_cast hten
      _ ≤ s.significand * 2 ^ s.exponent := by
        gcongr
        norm_num
  have hhigh : s.absolute < (10 : ℚ) ^ (310 : Int) := by
    have hten : 2 ^ 1024 ≤ 10 ^ 310 := by decide +kernel
    calc s.absolute < 2 ^ (s.exponent + 53) := Score.absolute_lt hfin
      _ ≤ 2 ^ (1024 : Int) := zpow_le_zpow_right₀ (by norm_num) (by omega)
      _ ≤ 10 ^ (310 : Int) := by exact_mod_cast hten
  rw [h]
  have := (Int.zpow_le_iff_le_log (b := 10) (by decide) hpos).mp hlow
  have := (Int.lt_zpow_iff_log_lt (b := 10) (by decide) hpos).mp hhigh
  omega

theorem round_of_value (hfin : s.magnitude < Score.infinite) (hne : s.magnitude ≠ 0) (h : d.value = s.absolute) :
    d.round = s.magnitude := by
  have hd : d.digits ≠ 0 := by
    rw [ne_eq, ← value_eq_zero, h]
    exact (Score.absolute_pos hfin hne).ne'
  obtain ⟨hlow, hhigh⟩ := size_of_value hfin hne h
  have hnearest := Score.nearest_of_eq hfin hne (ratio_numerator_pos hd) d.ratio_pos (d.ratio_eq_value.trans h)
  unfold round
  simp only [size_eq hd]
  rw [if_neg (by omega), if_neg (by omega), hnearest]

theorem full_value (s : Score) : (full s).value = s.absolute := by
  unfold full Score.absolute
  cases s.exponent with
  | ofNat e => simp [value]
  | negSucc e =>
    have hten : (10 : ℚ) ^ (e + 1) = 5 ^ (e + 1) * 2 ^ (e + 1) := by rw [← mul_pow]; norm_num
    simp only [value, Nat.pow_eq, Nat.cast_mul, Nat.cast_pow, Nat.cast_ofNat, zpow_neg, zpow_natCast, zpow_negSucc,
      hten]
    field_simp

/-- What is printed for a score reads back as it: the first decimal tried that does so, or else the one that is the
value of the score. -/
theorem shortest_round (hfin : s.magnitude < Score.infinite) : (shortest s).round = s.magnitude := by
  unfold shortest
  by_cases hzero : s.magnitude = 0
  · rw [if_pos hzero, hzero]
    rfl
  · rw [if_neg hzero]
    simp only
    generalize (List.range 17).flatMap _ = candidates
    cases hfound : candidates.find? (·.round = s.magnitude) with
    | some d => simpa using List.find?_some hfound
    | none => exact round_of_value hfin hzero (full_value s)

end Decimal

end KeyEngine
