import KeyEngine.Proofs.SortedSet.Twins
import Mathlib.Algebra.Group.Nat.Defs

/-!
# Totals of weighted scores

A score and its weight are multiplied, and two scores joined, as floating-point numbers, where what is no number
counts as zero. A total is joined from the products one after the other, in their order.
-/

namespace KeyEngine

/-! ## Scores as floating-point numbers -/

namespace Score

/-- The number with the bits of the score. -/
def float (s : Score) : Float :=
  .ofBits s.bits

/-- The score with the bits of the number, or zero for what is no number. -/
def ofFloat (x : Float) : Score :=
  if x.isNaN then ⟨0⟩ else ⟨x.toBits⟩

section
open Float.Model Float.Model.UnpackedFloat

variable (bits : BitVec 64)

theorem toNat_unpackExponent : (unpackExponent bits : BitVec Format.binary64.exponentBits).toNat =
    bits.toNat / 2 ^ 52 % 2 ^ 11 := by
  show (BitVec.cast _ _).toNat = _
  rw [BitVec.toNat_cast, BitVec.extractLsb_toNat, Nat.shiftRight_eq_div_pow]
  rfl

theorem toNat_unpackMantissa : (unpackMantissa bits : BitVec Format.binary64.mantissaBitsWithoutImplicit).toNat =
    bits.toNat % 2 ^ 52 := by
  show (BitVec.cast _ _).toNat = _
  rw [BitVec.toNat_cast, BitVec.extractLsb_toNat, Nat.shiftRight_zero]
  rfl

theorem isNaN_unpack : (UnpackedFloat.unpack Format.binary64 bits).isNaN = true ↔
    bits.toNat / 2 ^ 52 % 2 ^ 11 = 2 ^ 11 - 1 ∧ bits.toNat % 2 ^ 52 ≠ 0 := by
  have hexponent : (unpackExponent bits : BitVec Format.binary64.exponentBits) = -1#_ ↔
      bits.toNat / 2 ^ 52 % 2 ^ 11 = 2 ^ 11 - 1 := by
    rw [← BitVec.toNat_inj, toNat_unpackExponent]
    rfl
  have hmantissa : (unpackMantissa bits : BitVec Format.binary64.mantissaBitsWithoutImplicit) = 0#_ ↔
      bits.toNat % 2 ^ 52 = 0 := by
    rw [← BitVec.toNat_inj, toNat_unpackMantissa]
    rfl
  rw [← hexponent, Ne, ← hmantissa]
  unfold UnpackedFloat.unpack
  dsimp only
  by_cases he : (unpackExponent bits : BitVec Format.binary64.exponentBits) = -1#_
  · rw [if_pos he]
    by_cases hm : (unpackMantissa bits : BitVec Format.binary64.mantissaBitsWithoutImplicit) = 0#_
    · rw [if_pos hm]
      exact iff_of_false Bool.false_ne_true fun h => h.2 hm
    · rw [if_neg hm]
      exact iff_of_true rfl ⟨he, hm⟩
  · rw [if_neg he]
    refine iff_of_false ?_ fun h => he h.1
    by_cases hz : (unpackExponent bits : BitVec Format.binary64.exponentBits) = 0#_
    · rw [if_pos hz]
      by_cases hm : (unpackMantissa bits : BitVec Format.binary64.mantissaBitsWithoutImplicit) = 0#_
      · rw [dif_pos hm]
        exact Bool.false_ne_true
      · rw [dif_neg hm]
        exact Bool.false_ne_true
    · rw [if_neg hz]
      exact Bool.false_ne_true

end

theorem isNaN_toBits (x : Float) : (⟨x.toBits⟩ : Score).isNaN = x.isNaN := by
  have hnan : x.isNaN = true ↔ _ := isNaN_unpack x.toBits.toBitVec
  rw [Bool.eq_iff_iff, hnan]
  show decide (infinite < x.toBits.toNat % signBit) = true ↔ x.toBits.toNat / _ % _ = _ ∧ x.toBits.toNat % _ ≠ 0
  unfold infinite signBit
  rw [decide_eq_true_eq]
  omega

theorem zeroIfNaN_toBits (x : Float) : (⟨x.toBits⟩ : Score).zeroIfNaN = ofFloat x := by
  unfold zeroIfNaN ofFloat
  rw [isNaN_toBits]
  rfl

theorem weighted_eq (s weight : Score) : s.weighted weight = ofFloat (s.float * weight.float) :=
  zeroIfNaN_toBits _

end Score

/-! ## Totals -/

namespace Aggregate

/-- The third score joins the first two: it is their sum, or the lesser or the greater of them, the first one if
they are equal. -/
inductive Joins : Aggregate → Score → Score → Score → Prop
  | sum (a b : Score) : Joins .sum a b (.ofFloat (a.float + b.float))
  | minFirst {a b : Score} (h : a.key ≤ b.key) : Joins .min a b a
  | minSecond {a b : Score} (h : b.key < a.key) : Joins .min a b b
  | maxFirst {a b : Score} (h : b.key ≤ a.key) : Joins .max a b a
  | maxSecond {a b : Score} (h : a.key < b.key) : Joins .max a b b

/-- The total of scores, each with its weight, from the first to the last. -/
inductive Totals (agg : Aggregate) : List (Score × Score) → Score → Prop
  | first (score weight : Score) : Totals agg [(score, weight)] (.ofFloat (score.float * weight.float))
  | next {scored : List (Score × Score)} {score weight a b : Score} (h : Totals agg scored a)
      (hj : agg.Joins a (.ofFloat (score.float * weight.float)) b) : Totals agg (scored ++ [(score, weight)]) b

variable {agg : Aggregate} {a b c t : Score}

theorem joins_iff (ha : a.isNaN = false) (hb : b.isNaN = false) : agg.Joins a b c ↔ agg.apply a b = c := by
  have hlt : ∀ {x y : Score}, x.isNaN = false → y.isNaN = false → (x.lt y = true ↔ x.key < y.key) := by
    intro x y hx hy
    simp [Score.lt_iff, hx, hy]
  constructor
  · intro h
    cases h with
    | sum => exact Score.zeroIfNaN_toBits _
    | minFirst h => exact if_neg fun hba => Int.not_lt.mpr h ((hlt hb ha).mp hba)
    | minSecond h => exact if_pos ((hlt hb ha).mpr h)
    | maxFirst h => exact if_neg fun hab => Int.not_lt.mpr h ((hlt ha hb).mp hab)
    | maxSecond h => exact if_pos ((hlt ha hb).mpr h)
  · rintro rfl
    cases agg with
    | sum =>
      have hsum : apply .sum a b = .ofFloat (a.float + b.float) := Score.zeroIfNaN_toBits _
      rw [hsum]
      exact .sum a b
    | min =>
      show Joins .min a b (if b.lt a then b else a)
      by_cases h : b.lt a = true
      · rw [if_pos h]
        exact .minSecond ((hlt hb ha).mp h)
      · rw [if_neg h]
        exact .minFirst (Int.not_lt.mp fun hba => h ((hlt hb ha).mpr hba))
    | max =>
      show Joins .max a b (if a.lt b then b else a)
      by_cases h : a.lt b = true
      · rw [if_pos h]
        exact .maxSecond ((hlt ha hb).mp h)
      · rw [if_neg h]
        exact .maxFirst (Int.not_lt.mp fun hab => h ((hlt ha hb).mpr hab))

/-- The shares combined from the first to the last, if there are any. -/
def total (agg : Aggregate) : List Score → Option Score
  | [] => none
  | share :: shares => some (shares.foldl agg.apply share)

theorem total_eq_none (agg : Aggregate) {shares : List Score} : agg.total shares = none ↔ shares = [] := by
  cases shares <;> simp [total]

def join (agg : Aggregate) (total : Option Score) (share : Score) : Option Score :=
  some (total.elim share (agg.apply · share))

theorem foldl_join_some (agg : Aggregate) (shares : List Score) (total : Score) :
    shares.foldl agg.join (some total) = some (shares.foldl agg.apply total) := by
  induction shares generalizing total with
  | nil => rfl
  | cons share shares ih => exact ih _

theorem foldl_join_none (agg : Aggregate) (shares : List Score) :
    shares.foldl agg.join none = agg.total shares := by
  cases shares with
  | nil => rfl
  | cons share shares => exact foldl_join_some agg shares share

theorem total_concat (agg : Aggregate) (shares : List Score) (share : Score) :
    agg.total (shares ++ [share]) = agg.join (agg.total shares) share := by
  rw [← foldl_join_none, List.foldl_append, foldl_join_none]
  rfl

def products (scored : List (Score × Score)) : List Score :=
  scored.map fun (score, weight) => score.weighted weight

theorem products_concat (scored : List (Score × Score)) (score weight : Score) :
    products (scored ++ [(score, weight)]) = products scored ++ [score.weighted weight] :=
  List.map_append

theorem isNaN_total {scored : List (Score × Score)} (h : agg.total (products scored) = some t) :
    t.isNaN = false := by
  induction scored using List.reverseRecOn generalizing t with
  | nil => cases h
  | append_singleton scored p ih =>
    rw [products_concat, total_concat] at h
    cases hs : agg.total (products scored) with
    | none =>
      rw [hs] at h
      cases h
      exact Score.isNaN_weighted _ _
    | some u =>
      rw [hs] at h
      cases h
      exact Score.isNaN_apply agg (ih hs) (Score.isNaN_weighted _ _)

theorem totals_iff {scored : List (Score × Score)} :
    agg.Totals scored t ↔ agg.total (products scored) = some t := by
  constructor
  · intro h
    induction h with
    | first score weight => rw [← Score.weighted_eq]; rfl
    | next h hj ih =>
      rw [← Score.weighted_eq, joins_iff (isNaN_total ih) (Score.isNaN_weighted _ _)] at hj
      rw [products_concat, total_concat, ih, ← hj]
      rfl
  · intro h
    induction scored using List.reverseRecOn generalizing t with
    | nil => cases h
    | append_singleton scored p ih =>
      obtain ⟨score, weight⟩ := p
      rw [products_concat, total_concat] at h
      cases hs : agg.total (products scored) with
      | none =>
        rw [total_eq_none, products, List.map_eq_nil_iff] at hs
        subst hs
        cases h
        rw [Score.weighted_eq]
        exact .first score weight
      | some u =>
        rw [hs] at h
        refine .next (ih hs) ?_
        rw [← Score.weighted_eq, joins_iff (isNaN_total hs) (Score.isNaN_weighted _ _)]
        exact Option.some.inj h

end Aggregate

end KeyEngine
