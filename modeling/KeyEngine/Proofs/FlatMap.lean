import KeyEngine.Proofs.Store
import Mathlib.Data.Finmap

/-!
# Shards and a flat map

A partitioned store answers every sequence of calls as one finite map does. The number of its shards plays
no part in the answers, no call fails for want of a shard, and the counter keeps to the number of keys.
-/

namespace KeyEngine

abbrev FlatMap (α : Type) := Finmap fun _ : Bytes => α

inductive StoreCall (α : Type) where
  | insert (key : Bytes) (value : α)
  | replace (key : Bytes) (value : α)
  | insertNew (key : Bytes) (value : α)
  | get (key : Bytes)
  | contains (key : Bytes)
  | erase (key : Bytes)
  | take (key : Bytes)
  | clear
  | keys
  | count
  | isEmpty

/-- Keys are answered in no order. -/
inductive StoreAnswer (α : Type) where
  | done
  | flag (b : Bool)
  | value (value : Option α)
  | keys (keys : Finset Bytes)
  | count (n : Nat)

section

variable {α : Type}

namespace FlatMap

def call (m : FlatMap α) : StoreCall α → FlatMap α × StoreAnswer α
  | .insert key value => (m.insert key value, .flag (key ∉ m))
  | .replace key value => (if key ∈ m then m.insert key value else m, .flag (key ∈ m))
  | .insertNew key value => (if key ∈ m then m else m.insert key value, .flag (key ∉ m))
  | .get key => (m, .value (m.lookup key))
  | .contains key => (m, .flag (key ∈ m))
  | .erase key => (m.erase key, .flag (key ∈ m))
  | .take key => (m.erase key, .value (m.lookup key))
  | .clear => (∅, .done)
  | .keys => (m, .keys m.keys)
  | .count => (m, .count m.keys.card)
  | .isEmpty => (m, .flag (m.keys = ∅))

def calls (m : FlatMap α) : List (StoreCall α) → FlatMap α × List (StoreAnswer α)
  | [] => (m, [])
  | c :: cs => ((calls (call m c).1 cs).1, (call m c).2 :: (calls (call m c).1 cs).2)

theorem lookup_insert (m : FlatMap α) (key : Bytes) (value : α) (other : Bytes) :
    (m.insert key value).lookup other = if key = other then some value else m.lookup other := by
  split
  · subst other
    exact Finmap.lookup_insert m
  · rename_i hne
    exact Finmap.lookup_insert_of_ne m (Ne.symm hne)

theorem lookup_erase (m : FlatMap α) (key other : Bytes) :
    (m.erase key).lookup other = if key = other then none else m.lookup other := by
  split
  · subst other
    exact Finmap.lookup_erase key m
  · rename_i hne
    exact Finmap.lookup_erase_ne (Ne.symm hne)

end FlatMap

namespace Store

def call (s : Store α) : StoreCall α → Except Error (Store α × StoreAnswer α)
  | .insert key value => do
    let (s, isNew) ← s.insert key value
    return (s, .flag isNew)
  | .replace key value => do
    let (s, replaced) ← s.replace key value
    return (s, .flag replaced)
  | .insertNew key value => do
    let (s, isNew) ← s.insertNew key value
    return (s, .flag isNew)
  | .get key => do
    let value ← s.get? key
    return (s, .value value)
  | .contains key => do
    let present ← s.contains key
    return (s, .flag present)
  | .erase key => do
    let (s, removed) ← s.erase key
    return (s, .flag removed)
  | .take key => do
    let (s, value) ← s.take key
    return (s, .value value)
  | .clear => return (s.clear, .done)
  | .keys => return (s, .keys s.keys.toFinset)
  | .count => return (s, .count s.count)
  | .isEmpty => return (s, .flag s.isEmpty)

def calls (s : Store α) : List (StoreCall α) → Except Error (Store α × List (StoreAnswer α))
  | [] => return (s, [])
  | c :: cs => do
    let (s, answer) ← s.call c
    let (s, answers) ← s.calls cs
    return (s, answer :: answers)

/-- The store is sound and finds what the map finds. -/
structure Holds (s : Store α) (m : FlatMap α) : Prop where
  sound : s.Sound
  find : ∀ key, s.find? key = m.lookup key

theorem holds_empty (n : Nat) : (empty n : Store α).Holds ∅ where
  sound := sound_empty n
  find key := by rw [find?_empty, Finmap.lookup_empty]

theorem replace_eq_put {s : Store α} (h : s.Sound) (key : Bytes) (value : α) :
    s.replace key value =
      .ok (if (s.find? key).isSome then (s.put key value, true) else (s, false)) := by
  unfold replace
  rw [contains_eq h.size_pos, insert_eq_put h]
  show (if (s.find? key).isSome = true then _ else _) = _
  cases (s.find? key).isSome with
  | true => rfl
  | false => rfl

namespace Holds

variable {s : Store α} {m : FlatMap α}

/-! ## Reading -/

theorem isSome_eq (h : s.Holds m) (key : Bytes) : (s.find? key).isSome = decide (key ∈ m) := by
  rw [h.find, Bool.eq_iff_iff, decide_eq_true_eq, Finmap.lookup_isSome]

theorem toFinset_keys (h : s.Holds m) : s.keys.toFinset = m.keys := by
  ext key
  rw [List.mem_toFinset, h.sound.mem_keys, Finmap.mem_keys, h.isSome_eq, decide_eq_true_eq]

theorem count_eq (h : s.Holds m) : s.count = m.keys.card := by
  rw [h.sound.count_eq, ← h.toFinset_keys, List.toFinset_card_of_nodup h.sound.nodup_keys]

theorem isEmpty_eq (h : s.Holds m) : s.isEmpty = decide (m.keys = ∅) := by
  unfold isEmpty
  rw [decide_eq_decide, h.count_eq, Finset.card_eq_zero]

/-! ## Writing -/

theorem put (h : s.Holds m) (key : Bytes) (value : α) : (s.put key value).Holds (m.insert key value) where
  sound := h.sound.put key value
  find other := by rw [find?_put h.sound, FlatMap.lookup_insert, h.find]

theorem drop (h : s.Holds m) (key : Bytes) : (s.drop key).Holds (m.erase key) where
  sound := h.sound.drop key
  find other := by rw [find?_drop h.sound, FlatMap.lookup_erase, h.find]

theorem clear (h : s.Holds m) : s.clear.Holds ∅ where
  sound := h.sound.clear
  find key := by rw [find?_clear, Finmap.lookup_empty]

theorem call_ok (h : s.Holds m) (c : StoreCall α) :
    ∃ s', s.call c = .ok (s', (m.call c).2) ∧ s'.Holds (m.call c).1 := by
  have hsome := h.isSome_eq
  cases c with
  | insert key value =>
    refine ⟨_, ?_, h.put key value⟩
    rw [Store.call, FlatMap.call, insert_eq_put h.sound, hsome, ← decide_not]
    rfl
  | replace key value =>
    rw [Store.call, FlatMap.call, replace_eq_put h.sound, hsome]
    by_cases hk : key ∈ m
    · simp only [hk, decide_true, if_true]
      exact ⟨_, rfl, h.put key value⟩
    · simp only [hk, decide_false, if_false, Bool.false_eq_true]
      exact ⟨_, rfl, h⟩
  | insertNew key value =>
    rw [Store.call, FlatMap.call, insertNew_eq_put h.sound, hsome]
    by_cases hk : key ∈ m
    · simp only [hk, decide_true, if_true, not_true, decide_false]
      exact ⟨_, rfl, h⟩
    · simp only [hk, decide_false, if_false, Bool.false_eq_true, not_false_eq_true, decide_true]
      exact ⟨_, rfl, h.put key value⟩
  | get key =>
    refine ⟨s, ?_, h⟩
    rw [Store.call, FlatMap.call, get?_eq h.sound.size_pos, h.find]
    rfl
  | contains key =>
    refine ⟨s, ?_, h⟩
    rw [Store.call, FlatMap.call, contains_eq h.sound.size_pos, hsome]
    rfl
  | erase key =>
    refine ⟨_, ?_, h.drop key⟩
    rw [Store.call, FlatMap.call, erase_eq_drop h.sound, hsome]
    rfl
  | take key =>
    refine ⟨_, ?_, h.drop key⟩
    rw [Store.call, FlatMap.call, take_eq_drop h.sound, h.find]
    rfl
  | clear => exact ⟨_, rfl, h.clear⟩
  | keys =>
    refine ⟨s, ?_, h⟩
    rw [Store.call, FlatMap.call, h.toFinset_keys]
    rfl
  | count =>
    refine ⟨s, ?_, h⟩
    rw [Store.call, FlatMap.call, h.count_eq]
    rfl
  | isEmpty =>
    refine ⟨s, ?_, h⟩
    rw [Store.call, FlatMap.call, h.isEmpty_eq]
    rfl

theorem calls_ok (cs : List (StoreCall α)) {s : Store α} {m : FlatMap α} (h : s.Holds m) :
    ∃ s', s.calls cs = .ok (s', (m.calls cs).2) ∧ s'.Holds (m.calls cs).1 := by
  induction cs generalizing s m with
  | nil => exact ⟨s, rfl, h⟩
  | cons c cs ih =>
    obtain ⟨t, ht, hm⟩ := h.call_ok c
    obtain ⟨s', hs', hm'⟩ := ih hm
    refine ⟨s', ?_, hm'⟩
    unfold Store.calls
    rw [ht]
    show (t.calls cs >>= fun x => pure (x.1, (m.call c).2 :: x.2)) = _
    rw [hs']
    rfl

end Holds

/-- Calls on a store of any number of shards never fail, and are answered as by one finite map. After them
the store lists each key of the map once and keeps it in the one shard that the router picks for it, and
the counter is the number of keys, so there is something left to take off it whenever a key is removed. -/
theorem calls_flat (n : Nat) (cs : List (StoreCall α)) :
    ∃ s, (empty n : Store α).calls cs = .ok (s, (FlatMap.calls ∅ cs).2) ∧
      (∀ key, s.get? key = .ok ((FlatMap.calls ∅ cs).1.lookup key)) ∧
      s.keys.Nodup ∧ s.keys.toFinset = (FlatMap.calls ∅ cs).1.keys ∧
      (∀ (i : Nat) (shard : Std.HashMap Bytes α), s.shards[i]? = some shard →
        ∀ key ∈ shard, s.shardIndex key = .ok i) ∧
      s.count = s.keys.length ∧ (∀ key v, s.get? key = .ok (some v) → 0 < s.count) ∧
      ∀ n', ∃ s', (empty n' : Store α).calls cs = .ok (s', (FlatMap.calls ∅ cs).2) := by
  obtain ⟨s, hs, h⟩ := (holds_empty (α := α) n).calls_ok cs
  have hget := get?_eq h.sound.size_pos
  refine ⟨s, hs, fun key => ?_, h.sound.nodup_keys, h.toFinset_keys, ?_, h.sound.count_eq, ?_, ?_⟩
  · rw [hget, h.find]
  · intro i shard hi key hk
    rw [shardIndex_eq h.sound.size_pos, h.sound.placed i shard hi key hk]
  · intro key v hv
    rw [hget, Except.ok.injEq] at hv
    rw [h.sound.count_eq]
    apply List.length_pos_of_mem
    exact h.sound.mem_keys.mpr (Option.isSome_iff_exists.mpr ⟨v, hv⟩)
  · intro n'
    obtain ⟨s', hs', -⟩ := (holds_empty (α := α) n').calls_ok cs
    exact ⟨s', hs'⟩

end Store

end

end KeyEngine
