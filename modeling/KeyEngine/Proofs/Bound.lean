import KeyEngine.Score.Bound

/-!
# What bounds admit

A bound that is read from text admits as a lower end the scores above its number, or from it on, and as an upper end
those below its number, or up to it. An infinite number is no bound: as an end that leaves its side open it admits
all scores, the infinite one included, and as the other end it admits none.
-/

namespace KeyEngine

namespace Score

variable {x y : Score}

/-! ## The infinities among the scores -/

theorem lt_spec (h : x.lt y = true) : x.le y = true ∧ y.le x = false ∧ y.lt x = false := by
  obtain ⟨hx, hy, hk⟩ := lt_iff.mp h
  refine ⟨le_iff.mpr ⟨hx, hy, by omega⟩, ?_, ?_⟩
  · simp [le, hx, hy, hk]
  · simp only [lt, hx, hy, Bool.not_false, Bool.true_and, decide_eq_false_iff_not]
    omega

theorem magnitude_le (h : x.isNaN = false) : x.magnitude ≤ infinite := by
  simpa [isNaN] using h

theorem eq_of_parts (hm : x.magnitude = y.magnitude) (hn : x.negative = y.negative) : x = y := by
  have hx := x.bits.toNat_lt
  have hy := y.bits.toNat_lt
  have hbits : x.bits.toNat = y.bits.toNat := by
    unfold magnitude at hm
    unfold negative at hn
    rw [decide_eq_decide] at hn
    unfold signBit at hm hn
    omega
  cases x
  cases y
  exact congrArg Score.mk (UInt64.toNat_inj.mp hbits)

theorem lt_posInf (h : x.isNaN = false) (hne : x ≠ posInf) : x.lt posInf = true := by
  have hle := magnitude_le h
  have hkey : posInf.key = infinite := by decide
  refine lt_iff.mpr ⟨h, by decide, ?_⟩
  rw [hkey]
  unfold key
  cases hn : x.negative with
  | true =>
    have : 0 < infinite := by decide
    simp only [if_true]
    omega
  | false =>
    have hm : x.magnitude ≠ infinite := fun hm => hne (eq_of_parts hm hn)
    simp only [Bool.false_eq_true, if_false]
    omega

theorem negInf_lt (h : x.isNaN = false) (hne : x ≠ negInf) : negInf.lt x = true := by
  have hle := magnitude_le h
  have hkey : negInf.key = -infinite := by decide
  refine lt_iff.mpr ⟨by decide, h, ?_⟩
  rw [hkey]
  unfold key
  cases hn : x.negative with
  | true =>
    have hm : x.magnitude ≠ infinite := fun hm => hne (eq_of_parts hm hn)
    simp only [if_true]
    omega
  | false =>
    have : 0 < infinite := by decide
    simp only [Bool.false_eq_true, if_false]
    omega

end Score

namespace Bound

open Score

variable {cs : List Char} {isOpen : Bool} {v x : Score}

/-! ## Bounds of scores -/

/-- The bound admits what the number says, except where the score and the number are one infinity. -/
structure Means (isOpen : Bool) (v : Score) (b : Bound) : Prop where
  lower : ∀ x, x.isNaN = false → (x = v → v ≠ negInf ∧ v ≠ posInf) →
    b.admitsFromBelow x = if isOpen then v.lt x else v.le x
  upper : ∀ x, x.isNaN = false → (x = v → v ≠ negInf ∧ v ≠ posInf) →
    b.admitsFromAbove x = if isOpen then x.lt v else x.le v
  bottom : v = negInf → b.admitsFromBelow negInf = true ∧ b.admitsFromAbove negInf = false
  top : v = posInf → b.admitsFromBelow posInf = false ∧ b.admitsFromAbove posInf = true

theorem means_ofScore (isOpen : Bool) (v : Score) : Means isOpen v (ofScore isOpen v) := by
  by_cases hlow : v = negInf
  · subst hlow
    have hlt : ∀ x, x.isNaN = false → (x = negInf → negInf ≠ negInf ∧ negInf ≠ posInf) → negInf.lt x = true :=
      fun x hx hne => negInf_lt hx fun he => (hne he).1 rfl
    refine ⟨fun x hx hne => ?_, fun x hx hne => ?_, fun _ => ⟨rfl, rfl⟩, fun h => absurd h (by decide)⟩
    · obtain ⟨hle, -, -⟩ := lt_spec (hlt x hx hne)
      cases isOpen <;> simp [ofScore, admitsFromBelow, hlt x hx hne, hle]
    · obtain ⟨-, hle, hnot⟩ := lt_spec (hlt x hx hne)
      cases isOpen <;> simp [ofScore, admitsFromAbove, hnot, hle]
  · by_cases hhigh : v = posInf
    · subst hhigh
      have hlt : ∀ x, x.isNaN = false → (x = posInf → posInf ≠ negInf ∧ posInf ≠ posInf) → x.lt posInf = true :=
        fun x hx hne => lt_posInf hx fun he => (hne he).2 rfl
      have htop : ofScore isOpen posInf = .top := by simp [ofScore, hlow]
      refine ⟨fun x hx hne => ?_, fun x hx hne => ?_, fun h => absurd h hlow, fun _ => ?_⟩
      · obtain ⟨-, hle, hnot⟩ := lt_spec (hlt x hx hne)
        cases isOpen <;> simp [htop, admitsFromBelow, hnot, hle]
      · obtain ⟨hle, -, -⟩ := lt_spec (hlt x hx hne)
        cases isOpen <;> simp [htop, admitsFromAbove, hlt x hx hne, hle]
      · rw [htop]
        exact ⟨rfl, rfl⟩
    · refine ⟨fun x _ _ => ?_, fun x _ _ => ?_, fun h => absurd h hlow, fun h => absurd h hhigh⟩ <;>
        cases isOpen <;> simp [ofScore, hlow, hhigh, admitsFromBelow, admitsFromAbove]

/-! ## Bounds that are read -/

theorem eq_of_toLower {c d : Char} (h : c.toLower = d) (hd : d.toNat < 'a'.toNat) : c = d := by
  unfold Char.toLower at h
  split at h
  · rename_i hupper
    have hval := congrArg Char.toNat h
    simp only [Char.toNat, ge_iff_le, UInt32.le_iff_toNat_le] at hval hupper hd
    have hsum : (c.val + ('a'.val - 'A'.val)).toNat = c.val.toNat + 32 := by
      rw [UInt32.toNat_add]
      have : ('a'.val - 'A'.val).toNat = 32 := rfl
      have : 'Z'.val.toNat = 90 := rfl
      omega
    have : 'A'.val.toNat = 65 := rfl
    have : 'a'.val.toNat = 97 := rfl
    omega
  · exact h

theorem read?_inf (negative : Bool) {text cs : List Char} (hsplit : Decimal.splitSign text = (negative, cs))
    (hword : cs.map Char.toLower = "inf".toList) : Score.read? text = some (ofMagnitude negative infinite) := by
  unfold Score.read?
  simp [hsplit, hword]

theorem splitOpen_of_ne {c : Char} (h : c ≠ '(') (cs : List Char) : splitOpen (c :: cs) = (false, c :: cs) := by
  unfold splitOpen
  split
  · rename_i heq
    cases heq
    exact absurd rfl h
  · rfl

theorem splitSign_of_ne {c : Char} (h : c ≠ '-') (h' : c ≠ '+') (cs : List Char) :
    Decimal.splitSign (c :: cs) = (false, c :: cs) := by
  unfold Decimal.splitSign
  split
  · rename_i heq
    cases heq
    exact absurd rfl h
  · rename_i heq
    cases heq
    exact absurd rfl h'
  · rfl

/-- The words for an unbounded end read as the numbers that they are. -/
theorem read_eq (cs : List Char) : read cs =
    match Score.read? (splitOpen cs).2 with
    | none => .error .notAFloat
    | some s => if s.isNaN then .error .notAFloat else .ok (ofScore (splitOpen cs).1 s) := by
  have hlower : "-inf".toList = '-' :: "inf".toList := by decide
  have hupper : "+inf".toList = '+' :: "inf".toList := by decide
  have hbare : "inf".toList = 'i' :: "nf".toList := by decide
  unfold read
  by_cases hlow : cs.map Char.toLower = "-inf".toList
  · rw [if_pos hlow]
    -- No parenthesis stands before a word that begins with its sign, so the number is read from all of it.
    rw [hlower] at hlow
    obtain ⟨c, word, rfl, hc, hword⟩ := List.map_eq_cons_iff.mp hlow
    obtain rfl := eq_of_toLower hc (by decide)
    rw [splitOpen_of_ne (by decide), read?_inf true rfl hword]
    rfl
  · rw [if_neg hlow]
    by_cases hhigh : cs.map Char.toLower = "+inf".toList ∨ cs.map Char.toLower = "inf".toList
    · rw [if_pos hhigh]
      rcases hhigh with hplus | hinf
      · rw [hupper] at hplus
        obtain ⟨c, word, rfl, hc, hword⟩ := List.map_eq_cons_iff.mp hplus
        obtain rfl := eq_of_toLower hc (by decide)
        rw [splitOpen_of_ne (by decide), read?_inf false rfl hword]
        rfl
      · obtain ⟨c, word, rfl, hc, -⟩ := List.map_eq_cons_iff.mp (hbare ▸ hinf)
        have hother : ∀ d : Char, d.toLower ≠ 'i' → c ≠ d := fun d hd hcd => hd (hcd ▸ hc)
        rw [splitOpen_of_ne (hother _ (by decide)),
          read?_inf false (splitSign_of_ne (hother _ (by decide)) (hother _ (by decide)) word) hinf]
        rfl
    · exact if_neg hhigh

/-! ## What is read -/

/-- A text is refused if what follows an opening parenthesis is no number, and for no other reason. Otherwise it is
read as a bound that means that number. -/
theorem read_means (cs : List Char) :
    (read cs = .error .notAFloat ↔ ∀ v, Score.read? (splitOpen cs).2 = some v → v.isNaN = true) ∧
    (∀ e, read cs = .error e → e = .notAFloat) ∧
    ∀ b, read cs = .ok b →
      ∃ v, Score.read? (splitOpen cs).2 = some v ∧ v.isNaN = false ∧ Means (splitOpen cs).1 v b := by
  rw [read_eq]
  cases hv : Score.read? (splitOpen cs).2 with
  | none => simp
  | some v =>
    by_cases hnan : v.isNaN = true
    · simp [hnan]
    · simp only [hnan, Bool.false_eq_true, if_false]
      refine ⟨by simp [hnan], nofun, fun b hb => ?_⟩
      cases hb
      exact ⟨v, rfl, by simpa using hnan, means_ofScore _ v⟩

/-- An excluded number, and an infinity that would be excluded but leaves its side open. -/
theorem read_means_open :
    (∃ b, read "(1".toList = .ok b ∧ b.admitsFromBelow .one = false ∧ b.admitsFromAbove .zero = true ∧
      b.admitsFromBelow .posInf = true) ∧
    ∃ b, read "(-Infinity".toList = .ok b ∧ b.admitsFromBelow .negInf = true ∧ b.admitsFromAbove .zero = false := by
  constructor
  · have hone : Score.read? (splitOpen "(1".toList).2 = some .one := by decide +kernel
    have hread : read "(1".toList = .ok (.exclusive .one) := by
      rw [read_eq, hone]
      rfl
    obtain ⟨v, hv, -, hmeans⟩ := (read_means "(1".toList).2.2 _ hread
    obtain rfl : Score.one = v := Option.some.inj (hone.symm.trans hv)
    exact ⟨_, hread, hmeans.lower .one (by decide) (by decide), hmeans.upper .zero (by decide) (by decide),
      hmeans.lower .posInf (by decide) (by decide)⟩
  · have hinf : Score.read? (splitOpen "(-Infinity".toList).2 = some .negInf := by decide +kernel
    have hread : read "(-Infinity".toList = .ok .bottom := by
      rw [read_eq, hinf]
      rfl
    obtain ⟨v, hv, -, hmeans⟩ := (read_means "(-Infinity".toList).2.2 _ hread
    obtain rfl : Score.negInf = v := Option.some.inj (hinf.symm.trans hv)
    exact ⟨_, hread, (hmeans.bottom rfl).1, hmeans.upper .zero (by decide) (by decide)⟩

/-- Compared with the number, infinity would not lie below an infinity that is excluded. -/
theorem read_not_compared : ¬ ∀ cs b v, read cs = .ok b → Score.read? (splitOpen cs).2 = some v →
    ∀ x, x.isNaN = false →
      (b.admitsFromBelow x = if (splitOpen cs).1 then v.lt x else v.le x) ∧
      (b.admitsFromAbove x = if (splitOpen cs).1 then x.lt v else x.le v) := by
  intro h
  have hinf : Score.read? (splitOpen "(inf".toList).2 = some .posInf := by decide +kernel
  have hread : read "(inf".toList = .ok .top := by
    rw [read_eq, hinf]
    rfl
  obtain ⟨-, hupper⟩ := h _ _ _ hread hinf .posInf (by decide)
  revert hupper
  decide +kernel

end Bound

end KeyEngine
