import KeyEngine.Proofs.Bound
import KeyEngine.Proofs.Score.Rounding
import Mathlib.Data.List.TakeWhile

/-!
# Scores print and read back

The text of a decimal is digits, with a point among them unless nothing follows it, and reads as a decimal of the
same value. So the text of a finite score reads as the score itself, down to the sign of a zero.
-/

namespace KeyEngine

namespace Decimal

variable {cs whole fraction : List Char} {d : Decimal}

/-! ## Digits -/

def Digits (cs : List Char) : Prop :=
  ∀ c ∈ cs, c.isDigit = true

theorem digits_toDigits (n : Nat) : Digits (Nat.toDigits 10 n) :=
  fun _ => Nat.isDigit_of_mem_toDigits (by decide) (by decide)

theorem digits_zeros (n : Nat) : Digits (zeros n) := by
  intro c hc
  rw [List.eq_of_mem_replicate hc]
  rfl

theorem digits_append : Digits (whole ++ fraction) ↔ Digits whole ∧ Digits fraction :=
  List.forall_mem_append

theorem ofDigits_toDigits (n : Nat) : ofDigits (Nat.toDigits 10 n) = n :=
  Nat.ofDigitChars_ten_toDigits

theorem ofDigits_append_zeros (cs : List Char) (n : Nat) : ofDigits (cs ++ zeros n) = 10 ^ n * ofDigits cs :=
  (Nat.ofDigitChars_append 0).trans Nat.ofDigitChars_replicate_zero

theorem ofDigits_zeros_append (n : Nat) (cs : List Char) : ofDigits (zeros n ++ cs) = ofDigits cs := by
  refine (Nat.ofDigitChars_append 0).trans ?_
  rw [zeros, Nat.ofDigitChars_replicate_zero, Nat.mul_zero]
  rfl

/-! ## Digits with a point -/

def withPoint (whole fraction : List Char) : List Char :=
  if fraction.isEmpty then whole else whole ++ '.' :: fraction

/-- The digits before and after the point make up the decimal. -/
structure Writes (whole fraction : List Char) (d : Decimal) : Prop where
  begun : whole ≠ []
  whole_digits : Digits whole
  fraction_digits : Digits fraction
  value_eq : value ⟨ofDigits (whole ++ fraction), -fraction.length⟩ = d.value

theorem read?_withPoint (hbegun : whole ≠ []) (hwhole : Digits whole) (hfraction : Digits fraction) :
    read? (withPoint whole fraction) = some ⟨ofDigits (whole ++ fraction), -fraction.length⟩ := by
  unfold withPoint
  cases fraction with
  | nil =>
    have htake := List.takeWhile_eq_self_iff.mpr hwhole
    have hdrop := List.dropWhile_eq_nil_iff.mpr hwhole
    simp [read?, htake, hdrop, splitFraction, readExponent, hbegun]
  | cons c cs =>
    have htake : (whole ++ '.' :: c :: cs).takeWhile Char.isDigit = whole := by
      rw [List.takeWhile_append_of_pos hwhole, List.takeWhile_cons_of_neg (by decide), List.append_nil]
    have hdrop : (whole ++ '.' :: c :: cs).dropWhile Char.isDigit = '.' :: c :: cs := by
      rw [List.dropWhile_append_of_pos hwhole, List.dropWhile_cons_of_neg (by decide)]
    have htake' := List.takeWhile_eq_self_iff.mpr hfraction
    have hdrop' := List.dropWhile_eq_nil_iff.mpr hfraction
    simp [read?, htake, hdrop, splitFraction, htake', hdrop', readExponent]

/-! ## Writing -/

/-- The digits without the zeros at their end. -/
def stripped (cs : List Char) : List Char :=
  (cs.reverse.dropWhile (· = '0')).reverse

theorem stripped_append_zeros (cs : List Char) : ∃ k, stripped cs ++ zeros k = cs := by
  have hzeros : cs.reverse.takeWhile (· = '0') = zeros (cs.reverse.takeWhile (· = '0')).length :=
    List.eq_replicate_iff.mpr ⟨rfl, fun c hc => by simpa using List.mem_takeWhile_imp hc⟩
  have hsplit := congrArg List.reverse (List.takeWhile_append_dropWhile (p := (· = '0')) (l := cs.reverse))
  rw [List.reverse_append, List.reverse_reverse, hzeros, zeros, List.reverse_replicate] at hsplit
  exact ⟨_, hsplit⟩

theorem value_append_zeros (cs : List Char) (k : Nat) (e : Int) :
    value ⟨ofDigits (cs ++ zeros k), e - k⟩ = value ⟨ofDigits cs, e⟩ := by
  have hten : (10 : ℚ) ^ (k : Int) ≠ 0 := by positivity
  rw [ofDigits_append_zeros]
  simp only [value, Nat.cast_mul, Nat.cast_pow, Nat.cast_ofNat]
  rw [zpow_sub₀ (by norm_num), ← zpow_natCast]
  field_simp

theorem positional_whole {e : Nat} (he : d.exponent = .ofNat e) :
    ∃ whole, Writes whole [] d ∧ d.positional = whole := by
  have hdigits := digits_toDigits d.digits
  by_cases hzero : d.digits = 0
  · refine ⟨_, ⟨Nat.toDigits_ne_nil, hdigits, nofun, ?_⟩, by simp [positional, he, hzero]⟩
    rw [List.append_nil, ofDigits_toDigits]
    simp [value, hzero]
  · refine ⟨Nat.toDigits 10 d.digits ++ zeros e, ⟨?_, ?_, nofun, ?_⟩, by simp [positional, he, hzero]⟩
    · simp [Nat.toDigits_ne_nil]
    · exact digits_append.mpr ⟨hdigits, digits_zeros e⟩
    · rw [List.append_nil, ofDigits_append_zeros, ofDigits_toDigits]
      simp [value, he, mul_comm]

theorem positional_point {e : Nat} (he : d.exponent = .negSucc e) :
    ∃ whole fraction, Writes whole fraction d ∧ d.positional = withPoint whole fraction := by
  obtain ⟨cs, hcs⟩ : ∃ cs, cs = zeros (e + 2 - (Nat.toDigits 10 d.digits).length) ++ Nat.toDigits 10 d.digits :=
    ⟨_, rfl⟩
  obtain ⟨point, hpoint⟩ : ∃ point, point = cs.length - (e + 1) := ⟨_, rfl⟩
  have htext : d.positional = withPoint (cs.take point) (stripped (cs.drop point)) := by
    simp only [positional, he, ← hcs, ← hpoint]
    rfl
  have hlength : e + 2 ≤ cs.length := by
    rw [hcs, List.length_append, zeros, List.length_replicate]
    omega
  -- All of the digits are those before the point, those after it and the zeros that are not written.
  obtain ⟨k, hk⟩ := stripped_append_zeros (cs.drop point)
  have hall : cs.take point ++ (stripped (cs.drop point) ++ zeros k) = cs := by rw [hk, List.take_append_drop]
  have hdigits : Digits (cs.take point ++ (stripped (cs.drop point) ++ zeros k)) := by
    rw [hall, hcs]
    exact digits_append.mpr ⟨digits_zeros _, digits_toDigits _⟩
  rw [digits_append, digits_append] at hdigits
  refine ⟨_, _, ⟨?_, hdigits.1, hdigits.2.1, ?_⟩, htext⟩
  · rw [ne_eq, List.take_eq_nil_iff, ← List.length_eq_zero_iff]
    omega
  · have hcount := congrArg List.length hk
    rw [List.length_drop, List.length_append, zeros, List.length_replicate] at hcount
    have hexp : -((stripped (cs.drop point)).length : Int) - k = d.exponent := by
      rw [he, Int.negSucc_eq]
      omega
    rw [← value_append_zeros _ k, List.append_assoc, hall, hexp, hcs, ofDigits_zeros_append, ofDigits_toDigits]

theorem positional_eq (d : Decimal) :
    ∃ whole fraction, Writes whole fraction d ∧ d.positional = withPoint whole fraction := by
  cases he : d.exponent with
  | ofNat e =>
    obtain ⟨whole, hwrites, htext⟩ := positional_whole he
    exact ⟨whole, [], hwrites, htext⟩
  | negSucc e => exact positional_point he

/-- The text of a decimal reads as a decimal of the same value. -/
theorem read?_positional (d : Decimal) : ∃ d', read? d.positional = some d' ∧ d'.value = d.value := by
  obtain ⟨whole, fraction, hwrites, htext⟩ := positional_eq d
  exact ⟨_, htext ▸ read?_withPoint hwrites.begun hwrites.whole_digits hwrites.fraction_digits, hwrites.value_eq⟩

theorem mem_positional {c : Char} (hc : c ∈ d.positional) : c.isDigit = true ∨ c = '.' := by
  obtain ⟨whole, fraction, hwrites, htext⟩ := positional_eq d
  have hmem : c ∈ whole ∨ c = '.' ∨ c ∈ fraction := by
    rw [htext, withPoint] at hc
    split at hc
    · exact .inl hc
    · simpa using hc
  rcases hmem with hw | hpoint | hf
  · exact .inl (hwrites.whole_digits c hw)
  · exact .inr hpoint
  · exact .inl (hwrites.fraction_digits c hf)

/-- The text begins with a digit, even where the number is below one. -/
theorem positional_head (d : Decimal) : ∃ c cs, d.positional = c :: cs ∧ c.isDigit = true := by
  obtain ⟨whole, fraction, hwrites, htext⟩ := positional_eq d
  obtain ⟨c, cs, rfl⟩ := List.exists_cons_of_ne_nil hwrites.begun
  have hc : c.isDigit = true := hwrites.whole_digits c List.mem_cons_self
  rw [withPoint] at htext
  split at htext
  · exact ⟨c, _, htext, hc⟩
  · exact ⟨c, _, htext, hc⟩

end Decimal

namespace Score

variable {s : Score}

/-! ## Characters -/

theorem ne_of_isDigit {c x : Char} (hc : c.isDigit = true) (hx : x.isDigit = false) : c ≠ x := by
  intro heq
  rw [heq, hx] at hc
  cases hc

theorem toLower_of_isDigit {c : Char} (hc : c.isDigit = true) : c.toLower = c := by
  have hle : c.toNat ≤ '9'.toNat := (Char.isDigit_iff_toNat.mp hc).2
  unfold Char.toLower
  refine dif_neg fun hupper => ?_
  have hge : 'A'.toNat ≤ c.toNat := UInt32.le_iff_toNat_le.mp hupper.1
  exact absurd (hge.trans hle) (by decide)

/-! ## Texts -/

theorem ofMagnitude_self (s : Score) : ofMagnitude s.negative s.magnitude = s := by
  have hbits := s.bits.toNat_lt
  have hparts : (if s.negative then signBit + s.magnitude else s.magnitude) = s.bits.toNat := by
    unfold negative magnitude signBit
    by_cases hsign : 0x8000000000000000 ≤ s.bits.toNat
    · rw [decide_eq_true hsign, if_pos rfl]
      omega
    · rw [decide_eq_false hsign, if_neg Bool.false_ne_true]
      omega
  rw [ofMagnitude, hparts, UInt64.ofNat_toNat]

theorem isNaN_of_finite (hfin : s.magnitude < infinite) : s.isNaN = false :=
  decide_eq_false (Nat.lt_asymm hfin)

theorem text_eq (hfin : s.magnitude < infinite) :
    s.text = (if s.negative then ['-'] else []) ++ (Decimal.shortest s).positional := by
  simp [text, isNaN_of_finite hfin, hfin.ne]

theorem read?_of_digit {negative : Bool} {text cs : List Char} {c : Char}
    (hsplit : Decimal.splitSign text = (negative, c :: cs)) (hc : c.isDigit = true) :
    read? text = (Decimal.read? (c :: cs)).map fun d => ofMagnitude negative d.round := by
  have hword : ∀ x xs, x.isDigit = false → (c :: cs).map Char.toLower ≠ x :: xs := by
    intro x xs hx heq
    rw [List.map_cons, toLower_of_isDigit hc] at heq
    exact ne_of_isDigit hc hx (List.cons.inj heq).1
  have hinf : (c :: cs).map Char.toLower ≠ "inf".toList := hword 'i' "nf".toList (by decide)
  have hinfinity : (c :: cs).map Char.toLower ≠ "infinity".toList := hword 'i' "nfinity".toList (by decide)
  have hnan : (c :: cs).map Char.toLower ≠ "nan".toList := hword 'n' "an".toList (by decide)
  unfold read?
  rw [hsplit]
  simp only [hinf, hinfinity, hnan, or_self, if_false]

/-- A finite score is read back from its text. -/
theorem read?_text (hfin : s.magnitude < infinite) : read? s.text = some s := by
  obtain ⟨c, cs, htext, hc⟩ := Decimal.positional_head (Decimal.shortest s)
  obtain ⟨d, hread, hvalue⟩ := Decimal.read?_positional (Decimal.shortest s)
  have hsplit : Decimal.splitSign s.text = (s.negative, c :: cs) := by
    rw [text_eq hfin, htext]
    cases s.negative with
    | true => rfl
    | false => exact Bound.splitSign_of_ne (ne_of_isDigit hc (by decide)) (ne_of_isDigit hc (by decide)) cs
  rw [read?_of_digit hsplit hc, ← htext, hread, Option.map_some, Decimal.round_congr hvalue,
    Decimal.shortest_round hfin, ofMagnitude_self]

end Score

end KeyEngine
