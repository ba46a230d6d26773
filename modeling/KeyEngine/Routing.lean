import KeyEngine.Error

/-!
# Routing

A key is mapped to one of a fixed number of slots by a salted hash. Shards and lock stripes use the
same hash.
-/

namespace KeyEngine

namespace Routing

/-- The bytes that follow every key into the hash. -/
def salt : Bytes := [0x40, 0x23, 0x26]

def basis : UInt64 := 0xcbf29ce484222325

def prime : UInt64 := 0x100000001b3

def mix (h : UInt64) (b : UInt8) : UInt64 :=
  (h ^^^ b.toUInt64) * prime

/-- FNV-1a of the key followed by the salt. -/
def hash (key : Bytes) : UInt64 :=
  (key ++ salt).foldl mix basis

end Routing

/-- Maps keys to the slots below `modulus`. -/
structure Router where
  modulus : Nat
deriving DecidableEq, Repr

namespace Router

def route (r : Router) (key : Bytes) : Except Error Nat :=
  if r.modulus = 0 then .error (.unroutable key)
  else .ok ((Routing.hash key).toNat % r.modulus)

theorem route_of_pos {r : Router} (h : 0 < r.modulus) (key : Bytes) :
    r.route key = .ok ((Routing.hash key).toNat % r.modulus) := by
  have : r.modulus ≠ 0 := by omega
  simp [route, this]

theorem lt_of_route {r : Router} {key : Bytes} {i : Nat} (h : r.route key = .ok i) :
    i < r.modulus := by
  unfold route at h
  split at h
  · cases h
  · cases h
    exact Nat.mod_lt _ (by omega)

end Router

end KeyEngine
