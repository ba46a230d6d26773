import KeyEngine.Config
import KeyEngine.Routing
import Std.Data.HashMap

/-!
# Partitioned store

A map from keys to values, kept in several shards. The router picks the shard of a key, and a counter
beside the shards holds the number of keys.
-/

namespace KeyEngine

structure Store (α : Type) where
  shards : Array (Std.HashMap Bytes α)
  count : Nat

namespace Store

variable {α : Type}

/-- A store without keys, of `n` shards as far as the configuration allows. -/
def empty (n : Nat) : Store α where
  shards := Array.replicate (Config.clampShards n) ∅
  count := 0

def shardCount (s : Store α) : Nat :=
  s.shards.size

/-- The shard that owns the key. -/
def shardIndex (s : Store α) (key : Bytes) : Except Error Nat :=
  Router.route ⟨s.shards.size⟩ key

/-! ## Reading -/

def get? (s : Store α) (key : Bytes) : Except Error (Option α) := do
  let i ← s.shardIndex key
  return s.shards[i]?.bind (·[key]?)

def contains (s : Store α) (key : Bytes) : Except Error Bool := do
  let v ← s.get? key
  return v.isSome

def isEmpty (s : Store α) : Bool :=
  s.count = 0

def keys (s : Store α) : List Bytes :=
  s.shards.toList.flatMap (·.keys)

def sortedKeys (s : Store α) : List Bytes :=
  Bytes.sort s.keys

/-! ## Writing -/

/-- Sets the value, and answers whether the key is new. -/
def insert (s : Store α) (key : Bytes) (value : α) : Except Error (Store α × Bool) := do
  let i ← s.shardIndex key
  let present ← s.contains key
  return ({ shards := s.shards.modify i (·.insert key value)
            count := if present then s.count else s.count + 1 }, !present)

/-- Sets the value of a key that is there, and answers whether it is. -/
def replace (s : Store α) (key : Bytes) (value : α) : Except Error (Store α × Bool) := do
  if ← s.contains key then
    let (s, _) ← s.insert key value
    return (s, true)
  else return (s, false)

/-- Sets the value of a key that is not there, and answers whether it was not. -/
def insertNew (s : Store α) (key : Bytes) (value : α) : Except Error (Store α × Bool) := do
  if ← s.contains key then return (s, false)
  else s.insert key value

/-- Removes the key, and answers its value. -/
def take (s : Store α) (key : Bytes) : Except Error (Store α × Option α) := do
  let i ← s.shardIndex key
  let value ← s.get? key
  return ({ shards := s.shards.modify i (·.erase key)
            count := if value.isSome then s.count - 1 else s.count }, value)

/-- Removes the key, and answers whether it was there. -/
def erase (s : Store α) (key : Bytes) : Except Error (Store α × Bool) := do
  let (s, value) ← s.take key
  return (s, value.isSome)

def clear (s : Store α) : Store α where
  shards := Array.replicate s.shards.size ∅
  count := 0

/-! ## View -/

/-- The slot of a key among the shards that are there. -/
def slot (s : Store α) (key : Bytes) : Nat :=
  (Routing.hash key).toNat % s.shards.size

/-- The value of a key, looked up in the shard that owns it. -/
def find? (s : Store α) (key : Bytes) : Option α :=
  s.shards[s.slot key]?.bind (·[key]?)

theorem slot_lt {s : Store α} (h : 0 < s.shards.size) (key : Bytes) : s.slot key < s.shards.size :=
  Nat.mod_lt _ h

theorem shardIndex_eq {s : Store α} (h : 0 < s.shards.size) (key : Bytes) :
    s.shardIndex key = .ok (s.slot key) :=
  Router.route_of_pos h key

theorem get?_eq {s : Store α} (h : 0 < s.shards.size) (key : Bytes) :
    s.get? key = .ok (s.find? key) := by
  simp only [get?, shardIndex_eq h]
  rfl

theorem contains_eq {s : Store α} (h : 0 < s.shards.size) (key : Bytes) :
    s.contains key = .ok (s.find? key).isSome := by
  simp only [contains, get?_eq h]
  rfl

theorem insert_eq {s : Store α} (h : 0 < s.shards.size) (key : Bytes) (value : α) :
    s.insert key value = .ok
      ({ shards := s.shards.modify (s.slot key) (·.insert key value)
         count := if (s.find? key).isSome then s.count else s.count + 1 },
        !(s.find? key).isSome) := by
  simp only [insert, shardIndex_eq h, contains_eq h]
  rfl

theorem take_eq {s : Store α} (h : 0 < s.shards.size) (key : Bytes) :
    s.take key = .ok
      ({ shards := s.shards.modify (s.slot key) (·.erase key)
         count := if (s.find? key).isSome then s.count - 1 else s.count },
        s.find? key) := by
  simp only [take, shardIndex_eq h, get?_eq h]
  rfl

/-- A change to one shard is seen under the keys of that shard only. -/
theorem find?_modify (s : Store α) (n i : Nat) (f : Std.HashMap Bytes α → Std.HashMap Bytes α)
    (key : Bytes) :
    find? ⟨s.shards.modify i f, n⟩ key =
      if s.slot key = i then s.shards[i]?.bind fun shard => (f shard)[key]? else s.find? key := by
  have hs : slot ⟨s.shards.modify i f, n⟩ key = s.slot key := by simp [slot]
  simp only [find?, hs]
  rw [Array.getElem?_modify]
  split
  · subst_vars
    simp only [if_true]
    cases s.shards[s.slot key]? <;> rfl
  · rename_i hi
    simp [Ne.symm hi]

theorem find?_insert {s s' : Store α} {key : Bytes} {value : α} {isNew : Bool}
    (h : 0 < s.shards.size) (hs : s.insert key value = .ok (s', isNew)) (other : Bytes) :
    s'.find? other = if key = other then some value else s.find? other := by
  rw [insert_eq h] at hs
  cases hs
  rw [find?_modify]
  have hlt := slot_lt h key
  by_cases ho : key = other
  · subst ho
    simp [hlt]
  · simp only [ho, if_false]
    split
    · rename_i hi
      simp [find?, hi, Std.HashMap.getElem?_insert, ho]
    · rfl

theorem find?_take {s s' : Store α} {key : Bytes} {value : Option α}
    (h : 0 < s.shards.size) (hs : s.take key = .ok (s', value)) (other : Bytes) :
    s'.find? other = if key = other then none else s.find? other := by
  rw [take_eq h] at hs
  cases hs
  rw [find?_modify]
  have hlt := slot_lt h key
  by_cases ho : key = other
  · subst ho
    simp [hlt]
  · simp only [ho, if_false]
    split
    · rename_i hi
      simp [find?, hi, Std.HashMap.getElem?_erase, ho]
    · rfl

/-! ## Report -/

def report (s : Store α) : String :=
  s!"ShardedStore \x7b shards: {s.shards.size}, count: {s.count} \x7d"

end Store

end KeyEngine
