import KeyEngine.Proofs.Score.Text

/-!
# Bounds print and read back

A bound that is read has a finite score or none at all: an infinity leaves the side open, and what is no number is
refused. Such a bound is read back from its text, and so is a range from the two words of its own, in either order of
the ends.
-/

namespace KeyEngine

namespace Score

variable {s : Score}

/-! ## Finite scores -/

theorem finite_of_ne (hnum : s.isNaN = false) (hlow : s ≠ negInf) (hhigh : s ≠ posInf) : s.magnitude < infinite := by
  refine lt_of_le_of_ne (magnitude_le hnum) fun hm => ?_
  cases hn : s.negative with
  | true => exact hlow (eq_of_parts (hm.trans (by decide)) (hn.trans (by decide)))
  | false => exact hhigh (eq_of_parts (hm.trans (by decide)) (hn.trans (by decide)))

theorem ne_of_finite (hfin : s.magnitude < infinite) : s ≠ negInf ∧ s ≠ posInf := by
  constructor
  · intro heq
    subst heq
    exact absurd hfin (by decide)
  · intro heq
    subst heq
    exact absurd hfin (by decide)

/-- The text of a finite score begins with a digit or a minus. -/
theorem text_cons (hfin : s.magnitude < infinite) :
    ∃ c cs, s.text = c :: cs ∧ (c.isDigit = true ∨ c = '-') := by
  obtain ⟨c, cs, htext, hc⟩ := Decimal.positional_head (Decimal.shortest s)
  rw [text_eq hfin, htext]
  cases s.negative with
  | true => exact ⟨'-', c :: cs, rfl, .inr rfl⟩
  | false => exact ⟨c, cs, rfl, .inl hc⟩

theorem blank_notMem_text (hfin : s.magnitude < infinite) : ' ' ∉ s.text := by
  intro hmem
  rw [text_eq hfin, List.mem_append] at hmem
  rcases hmem with hsign | hdigits
  · cases hn : s.negative <;> simp [hn] at hsign
  · exact absurd (Decimal.mem_positional hdigits) (by decide)

end Score

namespace Bound

open Score

variable {b : Bound} {cs : List Char} {s : Score}

/-! ## Bounds that are read -/

/-- The score of the bound, if it has one, is finite. -/
def Proper : Bound → Prop
  | inclusive s => s.magnitude < infinite
  | exclusive s => s.magnitude < infinite
  | bottom => True
  | top => True

theorem ofScore_finite (isOpen : Bool) (hfin : s.magnitude < infinite) :
    ofScore isOpen s = if isOpen then exclusive s else inclusive s := by
  obtain ⟨hlow, hhigh⟩ := ne_of_finite hfin
  rw [ofScore, if_neg hlow, if_neg hhigh]

theorem proper_ofScore (isOpen : Bool) (hnum : s.isNaN = false) : (ofScore isOpen s).Proper := by
  by_cases hlow : s = negInf
  · rw [ofScore, if_pos hlow]
    trivial
  · by_cases hhigh : s = posInf
    · rw [ofScore, if_neg hlow, if_pos hhigh]
      trivial
    · have hfin := finite_of_ne hnum hlow hhigh
      rw [ofScore_finite isOpen hfin]
      cases isOpen <;> exact hfin

theorem proper_of_read (h : read cs = .ok b) : b.Proper := by
  rw [read_eq] at h
  split at h
  · cases h
  · rename_i s hs
    by_cases hnan : s.isNaN = true
    · rw [if_pos hnan] at h
      cases h
    · rw [if_neg hnan] at h
      cases h
      exact proper_ofScore _ (by simpa using hnan)

/-! ## Texts that are read back -/

theorem read_finite {isOpen : Bool} (hfin : s.magnitude < infinite) (hopen : splitOpen cs = (isOpen, s.text)) :
    read cs = .ok (if isOpen then exclusive s else inclusive s) := by
  rw [read_eq, hopen]
  simp only [read?_text hfin, isNaN_of_finite hfin, Bool.false_eq_true, if_false, ofScore_finite isOpen hfin]

theorem splitOpen_text (hfin : s.magnitude < infinite) : splitOpen s.text = (false, s.text) := by
  obtain ⟨c, cs, htext, hc⟩ := text_cons hfin
  rw [htext]
  refine splitOpen_of_ne ?_ cs
  rcases hc with hdigit | hminus
  · exact ne_of_isDigit hdigit (by decide)
  · rw [hminus]
    decide

theorem read_text (h : b.Proper) : read b.text = .ok b := by
  cases b with
  | inclusive s => exact read_finite h (splitOpen_text h)
  | exclusive s =>
    have hopen : splitOpen (exclusive s).text = (true, s.text) := rfl
    exact read_finite h hopen
  | bottom => decide
  | top => decide

/-- The bounds that some text is read as. -/
theorem exists_read_iff : (∃ cs, read cs = .ok b) ↔ b.Proper := by
  constructor
  · intro ⟨cs, hread⟩
    exact proper_of_read hread
  · intro h
    exact ⟨b.text, read_text h⟩

theorem blank_notMem (h : b.Proper) : ' ' ∉ b.text := by
  cases b with
  | inclusive s => exact blank_notMem_text h
  | exclusive s =>
    intro hmem
    rcases List.mem_cons.mp hmem with hopen | hscore
    · exact absurd hopen (by decide)
    · exact blank_notMem_text h hscore
  | bottom => decide
  | top => decide

end Bound

namespace ScoreRange

variable {min max : List Char} {r : ScoreRange}

/-! ## Ranges -/

/-- Both ends are bounds that are read. -/
def Proper (r : ScoreRange) : Prop :=
  r.min.Proper ∧ r.max.Proper

theorem proper_of_read (h : read min max = .ok r) : r.Proper := by
  unfold read at h
  cases hmin : Bound.read min with
  | error e =>
    rw [hmin] at h
    cases h
  | ok lo =>
    cases hmax : Bound.read max with
    | error e =>
      rw [hmin, hmax] at h
      cases h
    | ok hi =>
      rw [hmin, hmax] at h
      cases h
      exact ⟨Bound.proper_of_read hmin, Bound.proper_of_read hmax⟩

/-- The blank between the ends is the only one, and the words on its sides are read back. -/
theorem read_words (h : r.Proper) : ∃ lo hi, r.text.splitOn ' ' = [lo, hi] ∧ read lo hi = .ok r := by
  refine ⟨r.min.text, r.max.text, ?_, ?_⟩
  · rw [text, List.splitOn_append_cons_self_of_not_mem (Bound.blank_notMem h.1),
      List.splitOn_eq_singleton (Bound.blank_notMem h.2)]
  · rw [read, Bound.read_text h.1, Bound.read_text h.2]
    rfl

/-- The bounds that are read are those without an infinity for a score, and each is read again from its own text. A
range is read again from the two words of its text, and so is the range with its ends exchanged. -/
theorem read_back :
    (∀ b, (∃ cs, Bound.read cs = .ok b) ↔ b.Proper) ∧
    (∀ cs b, Bound.read cs = .ok b → Bound.read b.text = .ok b) ∧
    ∀ min max r, read min max = .ok r →
      (∃ lo hi, r.text.splitOn ' ' = [lo, hi] ∧ read lo hi = .ok r) ∧
      ∃ lo hi, r.reversed.text.splitOn ' ' = [lo, hi] ∧ read lo hi = .ok r.reversed := by
  refine ⟨fun _ => Bound.exists_read_iff, ?_, ?_⟩
  · intro cs b hread
    exact Bound.read_text (Bound.proper_of_read hread)
  · intro min max r hread
    have hproper := proper_of_read hread
    have hreversed : r.reversed.Proper := hproper.symm
    exact ⟨read_words hproper, read_words hreversed⟩

/-- An excluded number with a zero too many, and a range up to infinity. -/
theorem read_back_half :
    (Bound.read "(1.50".toList = .ok (.exclusive ⟨0x3FF8000000000000⟩) ∧
      Bound.read "(1.5".toList = .ok (.exclusive ⟨0x3FF8000000000000⟩)) ∧
    ∃ r, read "(1.50".toList "+Infinity".toList = .ok r ∧
      (∃ lo hi, r.text.splitOn ' ' = [lo, hi] ∧ read lo hi = .ok r) ∧
      ∃ lo hi, r.reversed.text.splitOn ' ' = [lo, hi] ∧ read lo hi = .ok r.reversed := by
  have hlow : Bound.read "(1.50".toList = .ok (.exclusive ⟨0x3FF8000000000000⟩) := by decide +kernel
  have hhigh : Bound.read "+Infinity".toList = .ok .top := by decide +kernel
  have htext : (Bound.exclusive ⟨0x3FF8000000000000⟩).text = "(1.5".toList := by decide +kernel
  have hread : read "(1.50".toList "+Infinity".toList = .ok ⟨.exclusive ⟨0x3FF8000000000000⟩, .top⟩ := by
    rw [read, hlow, hhigh]
    rfl
  exact ⟨⟨hlow, htext ▸ read_back.2.1 _ _ hlow⟩, _, hread, read_back.2.2 _ _ _ hread⟩

end ScoreRange

end KeyEngine
