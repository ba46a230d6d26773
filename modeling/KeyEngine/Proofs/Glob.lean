import KeyEngine.Glob
import Mathlib.Data.List.Forall2
import Mathlib.Tactic.ByContra

/-!
# The language of a pattern

The bytes of a pattern spell one list of tokens, and the pattern accepts the texts that can be cut into
pieces, one for each token in turn. An attempt that is spent has seen that no later place can do better, so
nothing is lost when a star before it gives up as well.
-/

namespace KeyEngine.Glob

/-! ## Spelling -/

/-- The items that a class lists up to its closing bracket, and what follows the bracket. -/
inductive Listed : Bytes → List Item → Bytes → Prop
  | close (rest : Bytes) : Listed (closeByte :: rest) [] rest
  | escaped (x : UInt8) {s rest : Bytes} {is : List Item} :
      Listed s is rest → Listed (escapeByte :: x :: s) (.byte x :: is) rest
  | span {a b : UInt8} {s rest : Bytes} {is : List Item} (ha : a ≠ closeByte) (he : a ≠ escapeByte)
      (hb : b ≠ closeByte) : Listed s is rest → Listed (a :: hyphenByte :: b :: s) (.span a b :: is) rest
  | single {a : UInt8} {s rest : Bytes} {is : List Item} (ha : a ≠ closeByte) (he : a ≠ escapeByte)
      (hs : ∀ b s', s = hyphenByte :: b :: s' → b = closeByte) :
      Listed s is rest → Listed (a :: s) (.byte a :: is) rest

/-- A class, read behind its opening bracket, and what follows it. -/
inductive Bracketed : Bytes → Token → Bytes → Prop
  | within {s rest : Bytes} {is : List Item} (hs : s.head? ≠ some negateByte) :
      Listed s is rest → Bracketed s (.cls false is) rest
  | outside {s rest : Bytes} {is : List Item} :
      Listed s is rest → Bracketed (negateByte :: s) (.cls true is) rest

/-- The bytes, read from left to right, are the tokens. -/
inductive Spells : Bytes → List Token → Prop
  | nil : Spells [] []
  | star {s : Bytes} {ts : List Token} : Spells s ts → Spells (starByte :: s) (.star :: ts)
  | any {s : Bytes} {ts : List Token} : Spells s ts → Spells (anyByte :: s) (.any :: ts)
  | cls {s rest : Bytes} {t : Token} {ts : List Token} :
      Bracketed s t rest → Spells rest ts → Spells (openByte :: s) (t :: ts)
  | unclosed {s : Bytes} (hs : ∀ t rest, ¬ Bracketed s t rest) : Spells (openByte :: s) [.unclosed]
  | escaped (x : UInt8) {s : Bytes} {ts : List Token} :
      Spells s ts → Spells (escapeByte :: x :: s) (.byte x :: ts)
  | lastEscape : Spells [escapeByte] [.byte escapeByte]
  | byte {a : UInt8} {s : Bytes} {ts : List Token} (ha : a ∉ [starByte, anyByte, openByte, escapeByte]) :
      Spells s ts → Spells (a :: s) (.byte a :: ts)

theorem items_cons {s rest : Bytes} {i : Item} {is : List Item}
    (h : (items s).map (fun x => (i :: x.1, x.2)) = some (is, rest)) :
    ∃ is', items s = some (is', rest) ∧ is = i :: is' := by
  obtain ⟨⟨is', r⟩, h', he⟩ := Option.map_eq_some_iff.1 h
  cases he
  exact ⟨is', h', rfl⟩

theorem listed_of_items {s rest : Bytes} {is : List Item} (h : items s = some (is, rest)) :
    Listed s is rest := by
  fun_induction items s generalizing is with
  | case1 => cases h
  | case2 rest =>
    cases h
    exact .close _
  | case3 => cases h
  | case4 x s _ ih =>
    obtain ⟨is', h', rfl⟩ := items_cons h
    exact .escaped x (ih h')
  | case5 a ha he x b s hb ih =>
    obtain ⟨rfl, hb⟩ := hb
    obtain ⟨is', h', rfl⟩ := items_cons h
    exact .span ha ‹_› hb (ih h')
  | case6 a ha hesc x b s hb ih =>
    obtain ⟨is', h', rfl⟩ := items_cons h
    refine .single ha hesc ?_ (ih h')
    intro c s' hs
    cases hs
    by_contra hne
    exact hb ⟨rfl, hne⟩
  | case7 a ha hesc s hs ih =>
    obtain ⟨is', h', rfl⟩ := items_cons h
    exact .single ha hesc (fun b s' he => absurd he (hs _ _ _)) (ih h')

theorem items_of_listed {s rest : Bytes} {is : List Item} (h : Listed s is rest) :
    items s = some (is, rest) := by
  induction h with
  | close rest =>
    unfold items
    rw [if_pos rfl]
  | escaped x _ ih =>
    unfold items
    simp [ih, show escapeByte ≠ closeByte by decide]
  | span ha he hb _ ih => simp [items, ih, ha, he, hb]
  | @single a s rest is ha he hs _ ih =>
    have hmap : (items s).map (fun x => (.byte a :: x.1, x.2)) = some (.byte a :: is, rest) := by
      rw [ih, Option.map_some]
    unfold items
    rw [if_neg ha, if_neg he]
    rcases s with _ | ⟨b, _ | ⟨c, s⟩⟩
    · exact hmap
    · exact hmap
    · have hno : ¬ (b = hyphenByte ∧ c ≠ closeByte) := by
        rintro ⟨rfl, hc⟩
        exact hc (hs c s rfl)
      dsimp only
      rw [if_neg hno]
      exact hmap

theorem items_iff {s rest : Bytes} {is : List Item} : items s = some (is, rest) ↔ Listed s is rest :=
  ⟨listed_of_items, items_of_listed⟩

theorem cls_iff {s rest : Bytes} {t : Token} : cls s = some (t, rest) ↔ Bracketed s t rest := by
  constructor
  · intro h
    unfold cls at h
    split at h
    · rename_i b s
      split at h
      · rename_i hb
        obtain ⟨⟨is, r⟩, h', he⟩ := Option.map_eq_some_iff.1 h
        cases he
        exact hb ▸ .outside (items_iff.1 h')
      · rename_i hb
        obtain ⟨⟨is, r⟩, h', he⟩ := Option.map_eq_some_iff.1 h
        cases he
        exact .within (by simpa using hb) (items_iff.1 h')
    · cases h
  · intro h
    cases h with
    | outside hl => simp [cls, items_iff.2 hl]
    | @within _ _ is hs hl =>
      have hi := items_iff.2 hl
      cases s with
      | nil => simp [items] at hi
      | cons b s =>
        have hb : b ≠ negateByte := by simpa using hs
        simp [cls, hb, hi]

theorem spells_tokens (p : Bytes) : Spells p (tokens p) := by
  fun_induction tokens p with
  | case1 => exact .nil
  | case2 rest ih => exact .star ih
  | case3 rest _ ih => exact .any ih
  | case4 rest hc =>
    refine .unclosed fun t r h => ?_
    rw [cls_iff.2 h] at hc
    cases hc
  | case5 rest t r hc _ _ _ ih => exact .cls (cls_iff.1 hc) ih
  | case6 => exact .lastEscape
  | case7 x rest _ _ _ ih => exact .escaped x ih
  | case8 a rest h₁ h₂ h₃ h₄ ih => exact .byte (by simp [h₁, h₂, h₃, h₄]) ih

theorem tokens_of_spells {p : Bytes} {ts : List Token} (h : Spells p ts) : tokens p = ts := by
  induction h with
  | nil => simp [tokens]
  | star _ ih =>
    unfold tokens
    rw [if_pos rfl, ih]
  | any _ ih =>
    unfold tokens
    rw [if_neg (by decide), if_pos rfl, ih]
  | cls hb _ ih =>
    unfold tokens
    rw [if_neg (by decide), if_neg (by decide), if_pos rfl]
    split
    · rename_i hc
      rw [cls_iff.2 hb] at hc
      cases hc
    · rename_i hc
      rw [cls_iff.2 hb] at hc
      cases hc
      rw [ih]
  | unclosed hs =>
    unfold tokens
    rw [if_neg (by decide), if_neg (by decide), if_pos rfl]
    split
    · rfl
    · rename_i hc
      exact absurd (cls_iff.1 hc) (hs _ _)
  | escaped x _ ih =>
    unfold tokens
    rw [if_neg (by decide), if_neg (by decide), if_neg (by decide), if_pos rfl]
    exact congrArg _ ih
  | lastEscape =>
    unfold tokens
    rw [if_neg (by decide), if_neg (by decide), if_neg (by decide), if_pos rfl]
  | byte ha _ ih =>
    simp only [List.mem_cons, List.not_mem_nil, or_false, not_or] at ha
    obtain ⟨hstar, hany, hopen, hescape⟩ := ha
    unfold tokens
    rw [if_neg hstar, if_neg hany, if_neg hopen, if_neg hescape, ih]

theorem tokens_iff {p : Bytes} {ts : List Token} : tokens p = ts ↔ Spells p ts :=
  ⟨fun h => h ▸ spells_tokens p, tokens_of_spells⟩

/-! ## Pieces -/

def Item.Covers (b : UInt8) : Item → Prop
  | .byte a => b = a
  | .span x y => x ≤ b ∧ b ≤ y ∨ y ≤ b ∧ b ≤ x

/-- The piece of a text that a token matches. -/
def Token.Takes (piece : Bytes) : Token → Prop
  | .star => True
  | .any => ∃ b, piece = [b]
  | .byte a => piece = [a]
  | .cls false is => ∃ b, piece = [b] ∧ ∃ i ∈ is, i.Covers b
  | .cls true is => ∃ b, piece = [b] ∧ ∀ i ∈ is, ¬ i.Covers b
  | .unclosed => False

theorem Item.admits_iff {b : UInt8} {i : Item} : i.admits b = true ↔ i.Covers b := by
  cases i with
  | byte a => simp [admits, Covers, eq_comm]
  | span x y =>
    simp only [admits, Covers]
    split <;> simp only [Bool.and_eq_true, decide_eq_true_eq, UInt8.le_iff_toNat_le] at * <;> omega

theorem Token.takes_iff {t : Token} (ht : t ≠ .star) {piece : Bytes} :
    t.Takes piece ↔ ∃ b, piece = [b] ∧ t.admits b = true := by
  cases t with
  | star => exact absurd rfl ht
  | any => simp [Takes, admits]
  | byte a => simp [Takes, admits]
  | cls negated is => cases negated <;> simp [Takes, admits, Item.admits_iff]
  | unclosed => simp [Takes, admits]

theorem matches_iff_pieces {ts : List Token} {s : Bytes} :
    Matches ts s ↔ ∃ pieces, List.Forall₂ Token.Takes pieces ts ∧ pieces.flatten = s := by
  constructor
  · intro h
    induction h with
    | nil => exact ⟨[], .nil, rfl⟩
    | star run _ ih =>
      obtain ⟨pieces, hp, rfl⟩ := ih
      exact ⟨run :: pieces, .cons trivial hp, rfl⟩
    | @one t ts b s ha _ ih =>
      obtain ⟨pieces, hp, rfl⟩ := ih
      have ht : t ≠ .star := by rintro rfl; cases ha
      exact ⟨[b] :: pieces, .cons ((Token.takes_iff ht).2 ⟨b, rfl, ha⟩) hp, rfl⟩
  · rintro ⟨pieces, hp, rfl⟩
    induction hp with
    | nil => exact .nil
    | @cons piece t pieces ts ht _ ih =>
      by_cases hs : t = .star
      · subst hs
        exact .star piece ih
      · obtain ⟨b, rfl, ha⟩ := (Token.takes_iff hs).1 ht
        exact .one ha ih

/-! ## Attempts -/

theorem matches_star {ts : List Token} {s : Bytes} :
    Matches (.star :: ts) s ↔ ∃ v, v <:+ s ∧ Matches ts v := by
  constructor
  · intro h
    cases h with
    | star run h => exact ⟨_, List.suffix_append run _, h⟩
    | one ha => cases ha
  · rintro ⟨v, ⟨run, rfl⟩, h⟩
    exact .star run h

theorem matches_star_nil {ts : List Token} : Matches (.star :: ts) [] ↔ Matches ts [] := by
  simp [matches_star]

theorem matches_star_cons {ts : List Token} {b : UInt8} {s : Bytes} :
    Matches (.star :: ts) (b :: s) ↔ Matches ts (b :: s) ∨ Matches (.star :: ts) s := by
  simp [matches_star, List.suffix_cons_iff, or_and_right, exists_or]

theorem matches_one {t : Token} {ts : List Token} (ht : t ≠ .star) {s : Bytes} :
    Matches (t :: ts) s ↔ ∃ b v, s = b :: v ∧ t.admits b = true ∧ Matches ts v := by
  constructor
  · intro h
    cases h with
    | star => exact absurd rfl ht
    | one ha h => exact ⟨_, _, rfl, ha, h⟩
  · rintro ⟨b, v, rfl, ha, h⟩
    exact .one ha h

namespace Verdict

variable {t : Token} {ts : List Token} {b : UInt8} {s : Bytes} {v : Verdict}

/-- What a verdict tells of the tokens and the text: a spent attempt excludes a match at any later place. -/
def Holds (ts : List Token) (s : Bytes) : Verdict → Prop
  | matched => Matches ts s
  | stuck => ¬ Matches ts s
  | spent => ∀ w, w <:+ s → ¬ Matches ts w

theorem Holds.matches_iff (h : v.Holds ts s) : v = matched ↔ Matches ts s := by
  cases v with
  | matched => exact iff_of_true rfl h
  | stuck => exact iff_of_false nofun h
  | spent => exact iff_of_false nofun (h s (List.suffix_refl s))

/-- A star takes in nothing where the attempt behind it is not stuck. -/
theorem Holds.star (h : v.Holds ts s) (hv : v ≠ stuck) : v.Holds (.star :: ts) s := by
  cases v with
  | matched => exact .star [] h
  | stuck => exact absurd rfl hv
  | spent =>
    intro w hw hm
    obtain ⟨w', hw', hm⟩ := matches_star.1 hm
    exact h w' (hw'.trans hw) hm

theorem Holds.later (h : v.Holds (.star :: ts) s) (hb : ¬ Matches ts (b :: s)) :
    v.Holds (.star :: ts) (b :: s) := by
  have hstar : Matches (.star :: ts) (b :: s) ↔ Matches (.star :: ts) s := by simp [matches_star_cons, hb]
  cases v with
  | matched => exact hstar.2 h
  | stuck => exact mt hstar.1 h
  | spent =>
    intro w hw hm
    rcases List.suffix_cons_iff.1 hw with rfl | hw
    · exact h s (List.suffix_refl s) (hstar.1 hm)
    · exact h w hw hm

/-- If a byte has been taken, no later place can be better than the places behind it. -/
theorem Holds.one (h : v.Holds ts s) (ht : t ≠ .star) (hb : t.admits b = true) :
    v.Holds (t :: ts) (b :: s) := by
  have hone : Matches (t :: ts) (b :: s) ↔ Matches ts s := by simp [matches_one ht, hb]
  cases v with
  | matched => exact hone.2 h
  | stuck => exact mt hone.1 h
  | spent =>
    intro w hw hm
    rcases List.suffix_cons_iff.1 hw with rfl | hw
    · exact h s (List.suffix_refl s) (hone.1 hm)
    · obtain ⟨c, w, rfl, -, hm⟩ := (matches_one ht).1 hm
      exact h w ((List.suffix_cons c w).trans hw) hm

end Verdict

theorem sweep_holds {ts : List Token} {f : Bytes → Verdict} (hf : ∀ s, (f s).Holds ts s) (s : Bytes) :
    (sweep f s).Holds (.star :: ts) s := by
  fun_induction sweep f s with
  | case1 hstuck =>
    -- The star has come to the end of the text, so what is stuck there is spent.
    have hno := hf []
    rw [hstuck] at hno
    intro w hw hm
    rw [List.suffix_nil.1 hw] at hm
    exact hno (matches_star_nil.1 hm)
  | case2 hgo => exact (hf []).star hgo
  | case3 b s hstuck ih =>
    have hno := hf (b :: s)
    rw [hstuck] at hno
    exact ih.later hno
  | case4 b s hgo => exact (hf (b :: s)).star hgo

theorem attempt_holds (ts : List Token) (s : Bytes) : (attempt ts s).Holds ts s := by
  induction ts generalizing s with
  | nil =>
    cases s with
    | nil => exact .nil
    | cons b s => exact nofun
  | cons t ts ih =>
    by_cases ht : t = .star
    · subst ht
      exact sweep_holds ih s
    · cases s with
      | nil =>
        -- Only a star goes on without a byte, and behind the end there is no later place.
        have hspent : attempt (t :: ts) [] = .spent := by simp [attempt]
        rw [hspent]
        intro w hw hm
        obtain ⟨b, v, rfl, -⟩ := (matches_one ht).1 hm
        simp at hw
      | cons b s =>
        have hstep : attempt (t :: ts) (b :: s) = if t.admits b then attempt ts s else .stuck := by
          simp [attempt]
        rw [hstep]
        split
        · exact (ih s).one ht ‹_›
        · intro hm
          simp_all [matches_one ht]

/-! ## Patterns -/

theorem accepts_iff_matches {pattern text : Bytes} :
    accepts pattern text = true ↔ Matches (tokens pattern) text := by
  unfold accepts
  rw [decide_eq_true_iff, (attempt_holds (tokens pattern) text).matches_iff]

end KeyEngine.Glob
