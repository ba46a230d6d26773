import KeyEngine.Proofs.Glob

/-!
# A search by positions

The search goes over a pattern and a text by positions, and where it is stuck it goes back to the last star
only. It looks at no byte outside of them, it comes to an end, and its answer is that of the attempts: what
an earlier star could take in as well, the last one can.
-/

namespace KeyEngine.Glob

/-- What would break a search off. -/
inductive Slip where
  | outside (position : Nat)
  | negative

def byteAt (s : Bytes) (i : Nat) : Except Slip UInt8 :=
  match s[i]? with
  | some b => return b
  | none => throw (.outside i)

def dropAt (s : Bytes) (i : Nat) : Except Slip Bytes :=
  if i ≤ s.length then return s.drop i else throw (.outside i)

def lessBy (a b : Nat) : Except Slip Nat :=
  if b ≤ a then return a - b else throw .negative

/-! ## Classes -/

/-- The other end of the span that begins at the position, if a span does. -/
def spanEnd (body : Bytes) (i : Nat) : Except Slip (Option UInt8) :=
  if i + 2 < body.length then do
    if (← byteAt body (i + 1)) = hyphenByte then
      let b ← byteAt body (i + 2)
      return if b ≠ closeByte then some b else none
    else return none
  else return none

/-- Whether one of the items from the position on admits the byte, or one before did, and what follows the
closing bracket. -/
def classFrom (body : Bytes) (b : UInt8) (i : Nat) (seen : Bool) : Except Slip (Option (Bool × Bytes)) :=
  if i < body.length then do
    let a ← byteAt body i
    if a = closeByte then
      return some (seen, ← dropAt body (i + 1))
    else if a = escapeByte ∧ i + 1 < body.length then
      let x ← byteAt body (i + 1)
      classFrom body b (i + 2) (seen || Item.admits b (.byte x))
    else
      match ← spanEnd body i with
      | some z => classFrom body b (i + 3) (seen || Item.admits b (.span a z))
      | none => classFrom body b (i + 1) (seen || Item.admits b (.byte a))
  else return none
termination_by body.length - i

def matchClass (body : Bytes) (b : UInt8) : Except Slip (Option (Bool × Bytes)) := do
  let negated := body.head? == some negateByte
  let found ← classFrom body b (if negated then 1 else 0) false
  return found.map fun (seen, rest) => (seen != negated, rest)

/-! ## The search -/

/-- How long the token at the position is, if it takes the byte. -/
def width (pattern : Bytes) (p : Nat) (b : UInt8) : Except Slip (Option Nat) :=
  match pattern[p]? with
  | none => return none
  | some c =>
    if c = anyByte then return some 1
    else if c = openByte then do
      match ← matchClass (← dropAt pattern (p + 1)) b with
      | some (true, rest) => return some (← lessBy (← lessBy pattern.length p) rest.length)
      | _ => return none
    else if c = escapeByte ∧ p + 1 < pattern.length then do
      return if (← byteAt pattern (p + 1)) = b then some 2 else none
    else return if c = b then some 1 else none

/-- The positions in the pattern and the text, and those from which the last star can take in more. -/
structure Cursor where
  p : Nat
  t : Nat
  star : Option (Nat × Nat)

def Cursor.start : Cursor := ⟨0, 0, none⟩

def step (pattern text : Bytes) (c : Cursor) : Except Slip (Cursor ⊕ Bool) :=
  if c.t < text.length then
    if pattern[c.p]? = some starByte then
      return .inl ⟨c.p + 1, c.t, some (c.p + 1, c.t)⟩
    else do
      match ← width pattern c.p (← byteAt text c.t), c.star with
      | some n, _ => return .inl ⟨c.p + n, c.t + 1, c.star⟩
      | none, some (p, t) => return .inl ⟨p, t + 1, some (p, t + 1)⟩
      | none, none => return .inr false
  else do
    return .inr ((← dropAt pattern c.p).all (· = starByte))

/-- From the cursor, the search comes to the answer and is not broken off on the way. -/
inductive Ends (pattern text : Bytes) : Cursor → Bool → Prop
  | now {c : Cursor} {answer : Bool} (h : step pattern text c = .ok (.inr answer)) : Ends pattern text c answer
  | later {c c' : Cursor} {answer : Bool} (h : step pattern text c = .ok (.inl c')) :
      Ends pattern text c' answer → Ends pattern text c answer

/-! ## Positions -/

section
variable {s rest : Bytes} {i : Nat} {a : UInt8}

theorem getElem?_of_drop (h : s.drop i = a :: rest) : s[i]? = some a := by
  rw [← List.head?_drop, h, List.head?_cons]

theorem lt_of_drop (h : s.drop i = a :: rest) : i < s.length :=
  (List.getElem?_eq_some_iff.mp (getElem?_of_drop h)).1

theorem drop_next (h : s.drop i = a :: rest) : s.drop (i + 1) = rest := by
  rw [← List.drop_drop, h, List.drop_one, List.tail_cons]

theorem byteAt_of_drop (h : s.drop i = a :: rest) : byteAt s i = pure a := by
  rw [byteAt, getElem?_of_drop h]

theorem dropAt_of_le (h : i ≤ s.length) : dropAt s i = pure (s.drop i) :=
  if_pos h

end

/-! ## What a class answers -/

variable {body : Bytes} {b : UInt8}

theorem spanEnd_of_short {i : Nat} (h : ∀ x y rest, body.drop (i + 1) ≠ x :: y :: rest) :
    spanEnd body i = pure none := by
  by_cases hi : i + 2 < body.length
  · have hdrop := List.drop_eq_getElem_cons (show i + 1 < body.length by omega)
    rw [List.drop_eq_getElem_cons hi] at hdrop
    exact absurd hdrop (h _ _ _)
  · rw [spanEnd, if_neg hi]

theorem spanEnd_of_drop {i : Nat} {x y : UInt8} {rest : Bytes} (h : body.drop (i + 1) = x :: y :: rest) :
    spanEnd body i = pure (if x = hyphenByte ∧ y ≠ closeByte then some y else none) := by
  have hnext := drop_next h
  rw [spanEnd, if_pos (lt_of_drop hnext), byteAt_of_drop h, pure_bind, byteAt_of_drop hnext]
  by_cases hx : x = hyphenByte
  · simp [hx]
  · simp [hx]

theorem classFrom_nil {i : Nat} (h : body.drop i = []) (seen : Bool) : classFrom body b i seen = pure none := by
  rw [classFrom, if_neg (by simpa using h)]

section
variable {i : Nat} {a : UInt8} {rest : Bytes} (h : body.drop i = a :: rest) (ha : a ≠ closeByte)
  (he : ¬ (a = escapeByte ∧ i + 1 < body.length))
include h ha he

theorem classFrom_span {z : UInt8} (hs : spanEnd body i = pure (some z)) (seen : Bool) :
    classFrom body b i seen = classFrom body b (i + 3) (seen || Item.admits b (.span a z)) := by
  rw [classFrom, if_pos (lt_of_drop h), byteAt_of_drop h, pure_bind, if_neg ha, if_neg he, hs, pure_bind]

theorem classFrom_single (hs : spanEnd body i = pure none) (seen : Bool) :
    classFrom body b i seen = classFrom body b (i + 1) (seen || Item.admits b (.byte a)) := by
  rw [classFrom, if_pos (lt_of_drop h), byteAt_of_drop h, pure_bind, if_neg ha, if_neg he, hs, pure_bind]

end

theorem classFrom_eq {s : Bytes} {i : Nat} (h : body.drop i = s) (seen : Bool) :
    classFrom body b i seen =
      pure ((items s).map fun found => (seen || found.1.any (·.admits b), found.2)) := by
  fun_induction items s generalizing i seen with
  | case1 => exact classFrom_nil h seen
  | case2 rest =>
    rw [classFrom, if_pos (lt_of_drop h), byteAt_of_drop h, pure_bind, if_pos rfl,
      dropAt_of_le (lt_of_drop h), drop_next h]
    simp
  | case3 hclose =>
    -- A backslash with nothing behind it is read as an item, and then the bracket is missing.
    have hnext := drop_next h
    rw [classFrom_single h hclose (by simpa using hnext) (spanEnd_of_short (by simp [hnext]))]
    exact classFrom_nil hnext _
  | case4 x rest hclose ih =>
    have hnext := drop_next h
    rw [classFrom, if_pos (lt_of_drop h), byteAt_of_drop h, pure_bind, if_neg hclose,
      if_pos ⟨rfl, lt_of_drop hnext⟩, byteAt_of_drop hnext, pure_bind, ih (drop_next hnext)]
    simp [Function.comp_def, Bool.or_assoc]
  | case5 a ha he x y rest hb ih =>
    have hnext := drop_next h
    rw [classFrom_span h ha (by simp [he]) ((spanEnd_of_drop hnext).trans (by rw [if_pos hb])),
      ih (drop_next (drop_next hnext))]
    simp [Function.comp_def, Bool.or_assoc]
  | case6 a ha he x y rest hb ih =>
    have hnext := drop_next h
    rw [classFrom_single h ha (by simp [he]) ((spanEnd_of_drop hnext).trans (by rw [if_neg hb])), ih hnext]
    simp [Function.comp_def, Bool.or_assoc]
  | case7 a ha he rest hshort ih =>
    have hnext := drop_next h
    rw [classFrom_single h ha (by simp [he]) (spanEnd_of_short (hnext ▸ hshort)), ih hnext]
    simp [Function.comp_def, Bool.or_assoc]

theorem matchClass_eq (body : Bytes) (b : UInt8) :
    matchClass body b = pure ((cls body).map fun found => (found.1.admits b, found.2)) := by
  unfold matchClass cls
  cases body with
  | nil => simp [classFrom_nil]
  | cons x rest =>
    by_cases hx : x = negateByte
    · subst hx
      have hclass := classFrom_eq (b := b) (rfl : (negateByte :: rest).drop 1 = rest) false
      simp [hclass, Function.comp_def, Token.admits]
    · have hclass := classFrom_eq (b := b) (rfl : (x :: rest).drop 0 = x :: rest) false
      have hbeq : (x == negateByte) = false := by simpa using hx
      simp [hx, hbeq, hclass, Function.comp_def, Token.admits]

/-! ## What a token answers -/

theorem Listed.suffix {s rest : Bytes} {is : List Item} (h : Listed s is rest) : rest <:+ s := by
  induction h with
  | close rest => exact List.suffix_cons _ _
  | escaped x _ ih => exact ih.trans ((List.suffix_cons _ _).trans (List.suffix_cons _ _))
  | span _ _ _ _ ih =>
    exact ih.trans ((List.suffix_cons _ _).trans ((List.suffix_cons _ _).trans (List.suffix_cons _ _)))
  | single _ _ _ _ ih => exact ih.trans (List.suffix_cons _ _)

theorem Bracketed.suffix {s rest : Bytes} {t : Token} (h : Bracketed s t rest) : rest <:+ s := by
  cases h with
  | within _ hl => exact hl.suffix
  | outside hl => exact hl.suffix.trans (List.suffix_cons _ _)

theorem Bracketed.ne_star {s rest : Bytes} {t : Token} (h : Bracketed s t rest) : t ≠ .star := by
  cases h <;> simp

variable {pattern text : Bytes}

/-- What the token at a position is found to do with a byte: take it and reach up to its width, or exclude that
the rest of the pattern matches. -/
inductive Found (pattern : Bytes) (p : Nat) (b : UInt8) : Option Nat → Prop
  | takes {t : Token} {n : Nat} (hp : p + n ≤ pattern.length) (ht : t ≠ .star) (hb : t.admits b = true)
      (hs : Spells (pattern.drop p) (t :: tokens (pattern.drop (p + n)))) : Found pattern p b (some n)
  | refuses (hno : ∀ s, ¬ Matches (tokens (pattern.drop p)) (b :: s)) : Found pattern p b none

theorem found_of_one {p n : Nat} {t : Token} (ht : t ≠ .star) (hp : p + n ≤ pattern.length)
    (hs : Spells (pattern.drop p) (t :: tokens (pattern.drop (p + n)))) (b : UInt8) :
    Found pattern p b (if t.admits b then some n else none) := by
  by_cases hb : t.admits b
  · rw [if_pos hb]
    exact .takes hp ht hb hs
  · rw [if_neg hb]
    refine .refuses fun s hm => ?_
    rw [tokens_iff.2 hs] at hm
    obtain ⟨c, v, he, hc, -⟩ := (matches_one ht).1 hm
    cases he
    exact hb hc

section
variable {p : Nat} {rest : Bytes}

theorem width_any (h : pattern.drop p = anyByte :: rest) (b : UInt8) : width pattern p b = pure (some 1) := by
  rw [width, getElem?_of_drop h]
  rfl

theorem width_open (h : pattern.drop p = openByte :: rest) (b : UInt8) :
    width pattern p b = (do
      match (cls rest).map fun found => (found.1.admits b, found.2) with
      | some (true, after) => return some (← lessBy (← lessBy pattern.length p) after.length)
      | _ => return none) := by
  rw [width, getElem?_of_drop h]
  dsimp only
  rw [if_neg (by decide), if_pos rfl, dropAt_of_le (lt_of_drop h), pure_bind, drop_next h, matchClass_eq, pure_bind]

theorem width_escaped {x : UInt8} (h : pattern.drop p = escapeByte :: x :: rest) (b : UInt8) :
    width pattern p b = pure (if (Token.byte x).admits b then some 2 else none) := by
  have hnext := drop_next h
  rw [width, getElem?_of_drop h]
  dsimp only
  rw [if_neg (by decide), if_neg (by decide), if_pos ⟨rfl, lt_of_drop hnext⟩, byteAt_of_drop hnext, pure_bind]
  simp [Token.admits]

theorem width_byte {c : UInt8} (h : pattern.drop p = c :: rest) (hany : c ≠ anyByte) (hopen : c ≠ openByte)
    (hesc : c = escapeByte → rest = []) (b : UInt8) :
    width pattern p b = pure (if (Token.byte c).admits b then some 1 else none) := by
  have hlast : ¬ (c = escapeByte ∧ p + 1 < pattern.length) := by
    rintro ⟨he, hlt⟩
    have hnil := (drop_next h).trans (hesc he)
    rw [List.drop_eq_nil_iff] at hnil
    omega
  rw [width, getElem?_of_drop h]
  dsimp only
  rw [if_neg hany, if_neg hopen, if_neg hlast]
  simp [Token.admits]

/-- Behind a class stands what its width leads to. -/
theorem width_cls {t : Token} {after : Bytes} (h : pattern.drop p = openByte :: rest)
    (hc : cls rest = some (t, after)) (b : UInt8) : ∃ n, p + n ≤ pattern.length ∧ pattern.drop (p + n) = after ∧
      width pattern p b = pure (if t.admits b then some n else none) := by
  have hsuffix : after <:+ pattern.drop p := h ▸ (cls_iff.1 hc).suffix.trans (List.suffix_cons _ _)
  have hle := hsuffix.length_le
  have hlt := lt_of_drop h
  rw [List.length_drop] at hle
  refine ⟨pattern.length - p - after.length, by omega, ?_, ?_⟩
  · rw [← List.drop_drop, ← List.length_drop]
    exact (List.suffix_iff_eq_drop.mp hsuffix).symm
  · rw [width_open h, hc]
    simp only [Option.map_some]
    cases t.admits b with
    | true => simp [lessBy, Nat.le_of_lt hlt, hle]
    | false => rfl

theorem width_ok (hstar : pattern[p]? ≠ some starByte) (b : UInt8) :
    ∃ w, width pattern p b = pure w ∧ Found pattern p b w := by
  have hs := spells_tokens (pattern.drop p)
  generalize hts : tokens (pattern.drop p) = ts at hs
  generalize hdrop : pattern.drop p = s at hs
  cases hs with
  | nil =>
    have hnone : pattern[p]? = none := by simpa using hdrop
    refine ⟨none, by rw [width, hnone], .refuses fun s hm => ?_⟩
    rw [hts] at hm
    cases hm
  | star => exact absurd (getElem?_of_drop hdrop) hstar
  | any =>
    refine ⟨_, width_any hdrop b, found_of_one (t := .any) (by simp) (lt_of_drop hdrop) ?_ b⟩
    rw [drop_next hdrop, hdrop]
    exact .any (spells_tokens _)
  | cls hc =>
    obtain ⟨n, hn, hafter, hwidth⟩ := width_cls hdrop (cls_iff.2 hc) b
    refine ⟨_, hwidth, found_of_one hc.ne_star hn ?_ b⟩
    rw [hafter, hdrop]
    exact .cls hc (spells_tokens _)
  | @unclosed s hno =>
    have hcls : cls s = none := by
      cases hc : cls s with
      | none => rfl
      | some found => exact absurd (cls_iff.1 hc) (hno _ _)
    refine ⟨none, by rw [width_open hdrop, hcls]; rfl, .refuses fun s hm => ?_⟩
    rw [hts] at hm
    obtain ⟨c, v, -, hc, -⟩ := (matches_one (by simp)).1 hm
    cases hc
  | escaped x =>
    refine ⟨_, width_escaped hdrop b, found_of_one (n := 2) (by simp) (lt_of_drop (drop_next hdrop)) ?_ b⟩
    rw [drop_next (drop_next hdrop), hdrop]
    exact .escaped x (spells_tokens _)
  | lastEscape =>
    refine ⟨_, width_byte hdrop (by decide) (by decide) (fun _ => rfl) b,
      found_of_one (by simp) (lt_of_drop hdrop) ?_ b⟩
    rw [drop_next hdrop, hdrop, tokens_iff.2 .nil]
    exact .lastEscape
  | byte ha =>
    have hplain := ha
    simp only [List.mem_cons, List.not_mem_nil, or_false, not_or] at hplain
    obtain ⟨-, hany, hopen, hesc⟩ := hplain
    refine ⟨_, width_byte hdrop hany hopen (fun he => absurd he hesc) b,
      found_of_one (by simp) (lt_of_drop hdrop) ?_ b⟩
    rw [drop_next hdrop, hdrop]
    exact .byte ha (spells_tokens _)

end

/-! ## What is left to try -/

/-- What stands in the pattern from one position on matches what stands in the text from the other on. -/
def Fits (pattern text : Bytes) (p t : Nat) : Prop :=
  Matches (tokens (pattern.drop p)) (text.drop t)

/-- The pattern accepts the text just if it fits from somewhere on behind the star, which has taken in the text
up to `t'`. From there the search has come to `p` and `t`, and a match from a later place would have to come
to `p` as well, as much later than `t`. -/
structure Behind (pattern text : Bytes) (p' t' p t : Nat) : Prop where
  t_le : t' ≤ t
  goal : Matches (tokens pattern) text ↔ Matches (.star :: tokens (pattern.drop p')) (text.drop t')
  same : Fits pattern text p' t' ↔ Fits pattern text p t
  later : ∀ v, Matches (tokens (pattern.drop p')) v →
    ∃ w, w <:+ v ∧ w.length + (t - t') = v.length ∧ Matches (tokens (pattern.drop p)) w

section
variable {p t p' t' n : Nat}

theorem Behind.here (hgoal : Matches (tokens pattern) text ↔
    Matches (.star :: tokens (pattern.drop p)) (text.drop t)) : Behind pattern text p t p t where
  t_le := Nat.le_refl t
  goal := hgoal
  same := Iff.rfl
  later v hv := ⟨v, List.suffix_refl v, by omega, hv⟩

theorem Found.fits_iff (h : Found pattern p b (some n)) (hb : text.drop t = b :: text.drop (t + 1)) :
    Fits pattern text p t ↔ Fits pattern text (p + n) (t + 1) := by
  cases h with
  | takes hp ht hadmits hs => simp [Fits, tokens_iff.2 hs, hb, matches_one ht, hadmits]

theorem Found.not_fits (h : Found pattern p b none) (hb : text.drop t = b :: text.drop (t + 1)) :
    ¬ Fits pattern text p t := by
  cases h with
  | refuses hno =>
    rw [Fits, hb]
    exact hno _

theorem Behind.take (h : Behind pattern text p' t' p t) (hf : Found pattern p b (some n))
    (hb : text.drop t = b :: text.drop (t + 1)) : Behind pattern text p' t' (p + n) (t + 1) where
  t_le := Nat.le_succ_of_le h.t_le
  goal := h.goal
  same := h.same.trans (hf.fits_iff hb)
  later v hv := by
    obtain ⟨w, hw, hlength, hm⟩ := h.later v hv
    cases hf with
    | takes hp ht hadmits hs =>
      rw [tokens_iff.2 hs] at hm
      obtain ⟨c, w, rfl, -, hm⟩ := (matches_one ht).1 hm
      refine ⟨w, (List.suffix_cons c w).trans hw, ?_, hm⟩
      have := h.t_le
      rw [List.length_cons] at hlength
      omega

/-- Nothing has to be left to the star if later places are no better. -/
theorem Behind.settled (h : Behind pattern text p' t' p t)
    (hno : ∀ w, w <:+ text.drop t → Matches (tokens (pattern.drop p)) w → Fits pattern text p t) :
    Matches (tokens pattern) text ↔ Fits pattern text p t := by
  rw [h.goal]
  constructor
  · intro hm
    obtain ⟨v, hv, hm⟩ := matches_star.1 hm
    obtain ⟨w, hw, hlength, hm⟩ := h.later v hm
    have hle := hv.length_le
    have ht := h.t_le
    refine hno w (List.suffix_of_suffix_length_le (hw.trans (hv.trans (List.drop_suffix _ _)))
      (List.drop_suffix _ _) ?_) hm
    simp only [List.length_drop] at hle ⊢
    omega
  · intro hm
    exact .star [] (h.same.2 hm)

theorem Behind.back (h : Behind pattern text p' t' p t) (ht : t < text.length) (hno : ¬ Fits pattern text p t) :
    Behind pattern text p' (t' + 1) p' (t' + 1) := by
  have hlt := Nat.lt_of_le_of_lt h.t_le ht
  apply Behind.here
  have hno' : ¬ Matches (tokens (pattern.drop p')) (text.drop t') := mt h.same.1 hno
  rw [h.goal, List.drop_eq_getElem_cons hlt, matches_star_cons, ← List.drop_eq_getElem_cons hlt]
  simp [hno']

theorem tokens_star (hs : pattern[p]? = some starByte) :
    tokens (pattern.drop p) = .star :: tokens (pattern.drop (p + 1)) := by
  obtain ⟨hlt, hb⟩ := List.getElem?_eq_some_iff.mp hs
  rw [List.drop_eq_getElem_cons hlt, hb]
  exact tokens_iff.2 (.star (spells_tokens _))

/-- Once the search has come to another star, only that one has to take in more. -/
theorem Behind.star (h : Behind pattern text p' t' p t) (hs : pattern[p]? = some starByte) :
    Behind pattern text (p + 1) t (p + 1) t := by
  apply Behind.here
  rw [← tokens_star hs]
  apply h.settled
  intro w hw hm
  rw [tokens_star hs] at hm
  obtain ⟨v, hv, hm⟩ := matches_star.1 hm
  rw [Fits, tokens_star hs]
  exact matches_star.2 ⟨v, hv.trans hw, hm⟩

theorem Behind.ended (h : Behind pattern text p' t' p t) (ht : text.length ≤ t) :
    Matches (tokens pattern) text ↔ Fits pattern text p t := by
  apply h.settled
  intro w hw hm
  rw [Fits, List.drop_of_length_le ht]
  rw [List.drop_of_length_le ht, List.suffix_nil] at hw
  exact hw ▸ hm

theorem not_matches_nil {t : Token} {ts : List Token} (ht : t ≠ .star) : ¬ Matches (t :: ts) [] := by
  intro hm
  obtain ⟨b, v, he, -⟩ := (matches_one ht).1 hm
  cases he

theorem not_all_stars {a : UInt8} {s : Bytes} (ha : a ≠ starByte) : ¬ (a :: s).all (· = starByte) = true := by
  simp [ha]

/-- The end of the text is matched by stars only. -/
theorem matches_nil_iff {s : Bytes} {ts : List Token} (h : Spells s ts) :
    Matches ts [] ↔ s.all (· = starByte) = true := by
  induction h with
  | nil => exact iff_of_true .nil rfl
  | star _ ih => simpa [matches_star_nil] using ih
  | any | unclosed | escaped | lastEscape =>
    exact iff_of_false (not_matches_nil (by simp)) (not_all_stars (by decide))
  | cls hb => exact iff_of_false (not_matches_nil hb.ne_star) (not_all_stars (by decide))
  | byte ha =>
    exact iff_of_false (not_matches_nil (by simp)) (not_all_stars fun he => ha (List.mem_cons.2 (.inl he)))

end

/-! ## From the start to the end -/

/-- What the search has found out on its way to the cursor. -/
inductive Keeps (pattern text : Bytes) : Cursor → Prop
  | first {p t : Nat} (hp : p ≤ pattern.length) (ht : t ≤ text.length)
      (h : Matches (tokens pattern) text ↔ Fits pattern text p t) : Keeps pattern text ⟨p, t, none⟩
  | behind {p t p' t' : Nat} (hp : p ≤ pattern.length) (hp' : p' ≤ pattern.length) (ht : t ≤ text.length)
      (h : Behind pattern text p' t' p t) : Keeps pattern text ⟨p, t, some (p', t')⟩

/-- What the star can still take in, then what the text still holds, then what the pattern does. -/
def Cursor.left (pattern text : Bytes) (c : Cursor) : Nat × Nat × Nat :=
  (c.star.elim (text.length + 1) (text.length - ·.2), text.length - c.t, pattern.length - c.p)

def Nearer (pattern text : Bytes) (c' c : Cursor) : Prop :=
  Prod.Lex (· < ·) (Prod.Lex (· < ·) (· < ·)) (c'.left pattern text) (c.left pattern text)

section
variable {c : Cursor}

theorem nearer_star (hstar : ∀ x ∈ c.star, x.2 ≤ c.t) (hp : c.p < pattern.length) :
    Nearer pattern text ⟨c.p + 1, c.t, some (c.p + 1, c.t)⟩ c := by
  have hroom : text.length - c.t ≤ c.star.elim (text.length + 1) (text.length - ·.2) := by
    cases hs : c.star with
    | none => exact Nat.le_succ_of_le (Nat.sub_le _ _)
    | some x => exact Nat.sub_le_sub_left (hstar x hs) _
  exact Prod.Lex.right' _ hroom (.right _ (Nat.sub_lt_sub_left hp (Nat.lt_succ_self _)))

theorem nearer_take (n : Nat) (ht : c.t < text.length) :
    Nearer pattern text ⟨c.p + n, c.t + 1, c.star⟩ c :=
  .right _ (.left _ _ (Nat.sub_lt_sub_left ht (Nat.lt_succ_self _)))

theorem nearer_back {p' t' : Nat} (hstar : c.star = some (p', t')) (ht : t' < text.length) :
    Nearer pattern text ⟨p', t' + 1, some (p', t' + 1)⟩ c := by
  apply Prod.Lex.left
  rw [hstar]
  exact Nat.sub_lt_sub_left ht (Nat.lt_succ_self _)

end

namespace Keeps

variable {c : Cursor} (h : Keeps pattern text c)
include h

theorem p_le : c.p ≤ pattern.length := by
  cases h <;> assumption

theorem star_le : ∀ x ∈ c.star, x.2 ≤ c.t := by
  cases h with
  | first => nofun
  | behind _ _ _ h =>
    rintro _ ⟨⟩
    exact h.t_le

theorem star (ht : c.t < text.length) (hs : pattern[c.p]? = some starByte) :
    Keeps pattern text ⟨c.p + 1, c.t, some (c.p + 1, c.t)⟩ := by
  have hp : c.p < pattern.length := (List.getElem?_eq_some_iff.mp hs).1
  cases h with
  | first _ _ h =>
    rw [Fits, tokens_star hs] at h
    exact .behind hp hp (Nat.le_of_lt ht) (.here h)
  | behind _ _ _ h => exact .behind hp hp (Nat.le_of_lt ht) (h.star hs)

theorem take {n : Nat} (ht : c.t < text.length) (hf : Found pattern c.p text[c.t] (some n)) :
    Keeps pattern text ⟨c.p + n, c.t + 1, c.star⟩ := by
  have hb := List.drop_eq_getElem_cons ht
  have hp : c.p + n ≤ pattern.length := by
    cases hf
    assumption
  cases h with
  | first _ _ h => exact .first hp ht (h.trans (hf.fits_iff hb))
  | behind _ hp' _ h => exact .behind hp hp' ht (h.take hf hb)

theorem back {p' t' : Nat} (hstar : c.star = some (p', t')) (ht : c.t < text.length)
    (hno : ¬ Fits pattern text c.p c.t) : Keeps pattern text ⟨p', t' + 1, some (p', t' + 1)⟩ := by
  cases h with
  | first => cases hstar
  | behind _ hp' _ h =>
    cases hstar
    exact .behind hp' hp' (Nat.lt_of_le_of_lt h.t_le ht) (h.back ht hno)

theorem refused (hstar : c.star = none) (hno : ¬ Fits pattern text c.p c.t) : accepts pattern text = false := by
  cases h with
  | first _ _ h =>
    rw [Bool.eq_false_iff, Ne, accepts_iff_matches, h]
    exact hno
  | behind => cases hstar

theorem ended (ht : text.length ≤ c.t) :
    accepts pattern text = (pattern.drop c.p).all (· = starByte) := by
  have hfits : Matches (tokens pattern) text ↔ Fits pattern text c.p c.t := by
    cases h with
    | first _ _ h => exact h
    | behind _ _ _ h => exact h.ended ht
  rw [Bool.eq_iff_iff, accepts_iff_matches, hfits, Fits, List.drop_of_length_le ht]
  exact matches_nil_iff (spells_tokens _)

/-- A step ends the search with the right answer, or brings it nearer to the end. -/
theorem step : step pattern text c = pure (.inr (accepts pattern text)) ∨
    ∃ c', step pattern text c = pure (.inl c') ∧ Keeps pattern text c' ∧ Nearer pattern text c' c := by
  unfold Glob.step
  by_cases ht : c.t < text.length
  · rw [if_pos ht]
    by_cases hs : pattern[c.p]? = some starByte
    · rw [if_pos hs]
      have hp := (List.getElem?_eq_some_iff.mp hs).1
      exact .inr ⟨_, rfl, h.star ht hs, nearer_star h.star_le hp⟩
    · obtain ⟨w, hw, hf⟩ := width_ok hs text[c.t]
      rw [if_neg hs, byteAt_of_drop (List.drop_eq_getElem_cons ht), pure_bind, hw, pure_bind]
      cases w with
      | some n => exact .inr ⟨_, rfl, h.take ht hf, nearer_take n ht⟩
      | none =>
        have hno := hf.not_fits (List.drop_eq_getElem_cons ht)
        cases hstar : c.star with
        | none => exact .inl (by rw [h.refused hstar hno])
        | some x =>
          have hx := Nat.lt_of_le_of_lt (h.star_le x hstar) ht
          exact .inr ⟨_, rfl, h.back hstar ht hno, nearer_back hstar hx⟩
  · rw [if_neg ht, dropAt_of_le h.p_le, pure_bind, h.ended (Nat.le_of_not_lt ht)]
    exact .inl rfl

end Keeps

theorem Keeps.ends {c : Cursor} (h : Keeps pattern text c) : Ends pattern text c (accepts pattern text) := by
  obtain hnow | ⟨c', hlater, hc', hnearer⟩ := h.step
  · exact .now hnow
  · exact .later hlater hc'.ends
termination_by c.left pattern text
decreasing_by exact hnearer

theorem ends_accepts (pattern text : Bytes) : Ends pattern text .start (accepts pattern text) :=
  (Keeps.first (Nat.zero_le _) (Nat.zero_le _) Iff.rfl).ends

/-- A pattern spells one list of tokens, and accepts just the texts that can be cut into pieces for them to
take in order. The search by positions ends and answers that. A pattern that is said to accept all texts does
so. -/
theorem accepts_iff_pieces (pattern : Bytes) :
    ∃ ts, (∀ ts', Spells pattern ts' ↔ ts' = ts) ∧
      (∀ text, accepts pattern text = true ↔
        ∃ pieces, List.Forall₂ Token.Takes pieces ts ∧ pieces.flatten = text) ∧
      (∀ text, Ends pattern text .start (accepts pattern text)) ∧
      (acceptsAll pattern = true → ∀ text, accepts pattern text = true) := by
  refine ⟨tokens pattern, fun ts' => ?_, fun text => ?_, ends_accepts pattern, fun hall text => ?_⟩
  · rw [← tokens_iff, eq_comm]
  · rw [accepts_iff_matches, matches_iff_pieces]
  · obtain rfl : pattern = [starByte] := by simpa [acceptsAll] using hall
    rw [accepts_iff_matches, tokens_iff.2 (.star .nil), matches_star]
    exact ⟨[], List.nil_suffix, .nil⟩

/-- `*[^c-a]*x`, whose first star has to take in a byte that the class excludes, and a lone star. -/
theorem accepts_iff_pieces_stars :
    let pattern : Bytes := [42, 91, 94, 99, 45, 97, 93, 42, 120]
    let ts : List Token := [.star, .cls true [.span 99 97], .star, .byte 120]
    Spells pattern ts ∧ Ends pattern [97, 120, 98, 120] .start true ∧
      (∃ pieces, List.Forall₂ Token.Takes pieces ts ∧ pieces.flatten = [97, 120, 98, 120]) ∧
      acceptsAll [42] = true ∧ ∀ text, accepts [42] text = true := by
  intro pattern ts
  obtain ⟨ts', hspells, haccepts, hends, -⟩ := accepts_iff_pieces pattern
  obtain ⟨-, -, -, -, hall⟩ := accepts_iff_pieces [42]
  have hts : Spells pattern ts := tokens_iff.1 (by decide +kernel)
  have htext : accepts pattern [97, 120, 98, 120] = true := by decide +kernel
  refine ⟨hts, htext ▸ hends [97, 120, 98, 120], ?_, by decide, hall (by decide)⟩
  rw [(hspells ts).1 hts]
  exact (haccepts _).1 htext

end KeyEngine.Glob
