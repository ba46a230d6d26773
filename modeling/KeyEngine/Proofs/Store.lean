import KeyEngine.Store
import Mathlib.Data.List.Nodup

/-!
# Keys of a partitioned store

A sound store keeps each key in the one shard the router picks for it, and its counter tells how many
keys there are. Writing and removing a key keep it sound, and two sound stores that answer every lookup
alike have the same keys.
-/

namespace KeyEngine

namespace Bytes

theorem le_total (a b : Bytes) : le a b || le b a := by
  unfold le
  by_cases h : b < a
  · simp [h, List.lt_asymm h]
  · simp [h]

theorem le_trans (a b c : Bytes) (hab : le a b) (hbc : le b c) : le a c := by
  simp only [le, Bool.not_eq_true', decide_eq_false_iff_not] at *
  exact List.le_trans hab hbc

theorem le_antisymm (a b : Bytes) (hab : le a b) (hba : le b a) : a = b := by
  simp only [le, Bool.not_eq_true', decide_eq_false_iff_not] at *
  exact List.le_antisymm hab hba

theorem sort_perm (keys : List Bytes) : (sort keys).Perm keys :=
  List.mergeSort_perm keys le

theorem sort_pairwise (keys : List Bytes) : (sort keys).Pairwise (le · ·) :=
  List.pairwise_mergeSort le_trans le_total keys

end Bytes

namespace Store

variable {α : Type}

structure Sound (s : Store α) : Prop where
  size_pos : 0 < s.shards.size
  placed : ∀ i shard, s.shards[i]? = some shard → ∀ key ∈ shard, s.slot key = i
  count_eq : s.count = s.keys.length

/-! ## Keys -/

theorem Sound.mem_keys {s : Store α} (h : s.Sound) {key : Bytes} :
    key ∈ s.keys ↔ (s.find? key).isSome := by
  unfold keys find?
  simp only [List.mem_flatMap, Array.mem_toList_iff, Std.HashMap.mem_keys]
  constructor
  · rintro ⟨shard, hm, hk⟩
    obtain ⟨i, hi⟩ := Array.getElem?_of_mem hm
    rw [h.placed i shard hi key hk, hi]
    simpa using hk
  · intro hf
    have hlt := slot_lt h.size_pos key
    rw [Array.getElem?_eq_getElem hlt] at hf
    exact ⟨_, Array.getElem_mem hlt, by simpa using hf⟩

theorem Sound.nodup_keys {s : Store α} (h : s.Sound) : s.keys.Nodup := by
  unfold keys
  rw [List.nodup_flatMap]
  refine ⟨fun shard _ => shard.nodup_keys, ?_⟩
  rw [List.pairwise_iff_getElem]
  intro i j hi hj hij key hki hkj
  -- A key of both shards would have both places for its slot.
  rw [Std.HashMap.mem_keys] at hki hkj
  have ei := h.placed i _ (by simp) key hki
  have ej := h.placed j _ (by simp) key hkj
  omega

theorem Sound.keys_perm {s s' : Store α} (h : s.Sound) (h' : s'.Sound)
    (same : ∀ key, (s.find? key).isSome = (s'.find? key).isSome) : s.keys.Perm s'.keys := by
  rw [List.perm_ext_iff_of_nodup h.nodup_keys h'.nodup_keys]
  intro key
  rw [h.mem_keys, h'.mem_keys, same]

theorem Sound.count_congr {s s' : Store α} (h : s.Sound) (h' : s'.Sound)
    (same : ∀ key, (s.find? key).isSome = (s'.find? key).isSome) : s.count = s'.count := by
  rw [h.count_eq, h'.count_eq, (h.keys_perm h' same).length_eq]

theorem Sound.mem_sortedKeys {s : Store α} (h : s.Sound) {key : Bytes} :
    key ∈ s.sortedKeys ↔ (s.find? key).isSome := by
  rw [← h.mem_keys]
  exact (Bytes.sort_perm s.keys).mem_iff

theorem Sound.nodup_sortedKeys {s : Store α} (h : s.Sound) : s.sortedKeys.Nodup :=
  (Bytes.sort_perm s.keys).nodup_iff.mpr h.nodup_keys

/-- The keys picked from two stores come in the same order if they are the same keys. -/
theorem Sound.filter_sortedKeys {s s' : Store α} (h : s.Sound) (h' : s'.Sound)
    {p p' : Bytes → Bool}
    (same : ∀ key, ((s.find? key).isSome ∧ p key) ↔ ((s'.find? key).isSome ∧ p' key)) :
    s.sortedKeys.filter p = s'.sortedKeys.filter p' := by
  have hp : (s.sortedKeys.filter p).Perm (s'.sortedKeys.filter p') := by
    rw [List.perm_ext_iff_of_nodup (h.nodup_sortedKeys.filter p) (h'.nodup_sortedKeys.filter p')]
    intro key
    rw [List.mem_filter, List.mem_filter, h.mem_sortedKeys, h'.mem_sortedKeys]
    exact same key
  apply hp.eq_of_pairwise (fun a b _ _ => Bytes.le_antisymm a b)
  · exact (Bytes.sort_pairwise s.keys).filter p
  · exact (Bytes.sort_pairwise s'.keys).filter p'

/-! ## Stores without keys -/

theorem sound_of_empty_shards {n : Nat} (hn : 0 < n) :
    Sound (⟨Array.replicate n ∅, 0⟩ : Store α) where
  size_pos := by simpa using hn
  placed := by
    intro i shard hs key hk
    rw [Array.getElem?_replicate] at hs
    split at hs
    · cases hs
      simp at hk
    · cases hs
  count_eq := by
    unfold keys
    rw [Array.toList_replicate, List.flatMap_replicate]
    simp

theorem sound_empty (n : Nat) : (empty n : Store α).Sound :=
  sound_of_empty_shards (Config.clampShards_pos n)

theorem Sound.clear {s : Store α} (h : s.Sound) : s.clear.Sound :=
  sound_of_empty_shards h.size_pos

theorem find?_of_empty_shards (n c : Nat) (key : Bytes) :
    (⟨Array.replicate n ∅, c⟩ : Store α).find? key = none := by
  unfold find?
  rw [Array.getElem?_replicate]
  split <;> simp

theorem find?_empty (n : Nat) (key : Bytes) : (empty n : Store α).find? key = none :=
  find?_of_empty_shards _ _ key

theorem find?_clear (s : Store α) (key : Bytes) : s.clear.find? key = none :=
  find?_of_empty_shards _ _ key

/-! ## Writing -/

def put (s : Store α) (key : Bytes) (value : α) : Store α where
  shards := s.shards.modify (s.slot key) (·.insert key value)
  count := if (s.find? key).isSome then s.count else s.count + 1

def drop (s : Store α) (key : Bytes) : Store α where
  shards := s.shards.modify (s.slot key) (·.erase key)
  count := if (s.find? key).isSome then s.count - 1 else s.count

theorem insert_eq_put {s : Store α} (h : s.Sound) (key : Bytes) (value : α) :
    s.insert key value = .ok (s.put key value, !(s.find? key).isSome) :=
  insert_eq h.size_pos key value

theorem take_eq_drop {s : Store α} (h : s.Sound) (key : Bytes) :
    s.take key = .ok (s.drop key, s.find? key) :=
  take_eq h.size_pos key

theorem erase_eq_drop {s : Store α} (h : s.Sound) (key : Bytes) :
    s.erase key = .ok (s.drop key, (s.find? key).isSome) := by
  unfold erase
  rw [take_eq_drop h]
  rfl

theorem insertNew_eq_put {s : Store α} (h : s.Sound) (key : Bytes) (value : α) :
    s.insertNew key value =
      .ok (if (s.find? key).isSome then (s, false) else (s.put key value, true)) := by
  unfold insertNew
  rw [contains_eq h.size_pos]
  show (if (s.find? key).isSome = true then _ else _) = _
  cases hf : (s.find? key).isSome with
  | true => rfl
  | false =>
    rw [insert_eq_put h, hf]
    rfl

theorem find?_put {s : Store α} (h : s.Sound) (key : Bytes) (value : α) (other : Bytes) :
    (s.put key value).find? other = if key = other then some value else s.find? other :=
  find?_insert h.size_pos (insert_eq_put h key value) other

theorem find?_drop {s : Store α} (h : s.Sound) (key other : Bytes) :
    (s.drop key).find? other = if key = other then none else s.find? other :=
  find?_take h.size_pos (take_eq_drop h key) other

theorem slot_modify (s : Store α) (n i : Nat) (f : Std.HashMap Bytes α → Std.HashMap Bytes α)
    (key : Bytes) : slot ⟨s.shards.modify i f, n⟩ key = s.slot key := by
  simp [slot]

/-- What is listed from one changed item takes the place of what was listed from it. -/
theorem length_flatMap_modify {β γ : Type} (l : List β) (g : β → List γ) (f : β → β) {i : Nat}
    {x : β} (hx : l[i]? = some x) :
    ((l.modify i f).flatMap g).length + (g x).length = (l.flatMap g).length + (g (f x)).length := by
  induction l generalizing i with
  | nil => cases hx
  | cons y l ih =>
    cases i with
    | zero =>
      cases hx
      simp only [List.modify_zero_cons, List.flatMap_cons, List.length_append]
      omega
    | succ i =>
      have := ih hx
      simp only [List.modify_succ_cons, List.flatMap_cons, List.length_append]
      omega

/-- A change to the shard of a key that puts in or takes out that key alone. -/
theorem Sound.modify {s : Store α} (h : s.Sound) {key : Bytes} {n : Nat}
    {f : Std.HashMap Bytes α → Std.HashMap Bytes α}
    (hmem : ∀ shard other, other ∈ f shard → other ∈ shard ∨ other = key)
    (hn : ∀ shard, s.shards[s.slot key]? = some shard →
      n + shard.size = s.count + (f shard).size) :
    Sound ⟨s.shards.modify (s.slot key) f, n⟩ where
  size_pos := by simpa using h.size_pos
  placed := by
    intro i shard hs other ho
    rw [slot_modify]
    rw [Array.getElem?_modify] at hs
    split at hs
    · subst i
      obtain ⟨old, hold, rfl⟩ := Option.map_eq_some_iff.mp hs
      rcases hmem old other ho with hin | rfl
      · exact h.placed _ old hold other hin
      · rfl
    · exact h.placed i shard hs other ho
  count_eq := by
    have hlt := slot_lt h.size_pos key
    have hs := Array.getElem?_eq_getElem hlt
    have hl := length_flatMap_modify s.shards.toList (·.keys) f
      (i := s.slot key) (x := s.shards[s.slot key]) (by simp [hlt])
    have hc := h.count_eq
    have := hn _ hs
    unfold keys at hc ⊢
    simp only [Std.HashMap.length_keys] at hl
    show n = _
    rw [Array.toList_modify]
    omega

theorem isSome_find?_iff {s : Store α} {key : Bytes} {shard : Std.HashMap Bytes α}
    (hs : s.shards[s.slot key]? = some shard) : (s.find? key).isSome ↔ key ∈ shard := by
  simp [find?, hs]

theorem Sound.put {s : Store α} (h : s.Sound) (key : Bytes) (value : α) :
    (s.put key value).Sound := by
  apply h.modify
  · intro shard other ho
    rw [Std.HashMap.mem_insert, beq_iff_eq] at ho
    exact ho.symm.imp_right Eq.symm
  · intro shard hs
    rw [Std.HashMap.size_insert]
    have hk := isSome_find?_iff hs
    by_cases hin : key ∈ shard
    · rw [if_pos (hk.mpr hin), if_pos hin]
    · rw [if_neg (mt hk.mp hin), if_neg hin]
      omega

theorem Sound.drop {s : Store α} (h : s.Sound) (key : Bytes) : (s.drop key).Sound := by
  apply h.modify
  · intro shard other ho
    exact .inl (Std.HashMap.mem_of_mem_erase ho)
  · intro shard hs
    rw [Std.HashMap.size_erase]
    have hk := isSome_find?_iff hs
    by_cases hin : key ∈ shard
    · rw [if_pos (hk.mpr hin), if_pos hin]
      have hshard : 0 < shard.size := by
        rw [← Std.HashMap.length_keys]
        exact List.length_pos_of_mem (Std.HashMap.mem_keys.mpr hin)
      have hcount : 0 < s.count := by
        rw [h.count_eq]
        exact List.length_pos_of_mem (h.mem_keys.mpr (hk.mpr hin))
      omega
    · rw [if_neg (mt hk.mp hin), if_neg hin]

end Store

end KeyEngine
