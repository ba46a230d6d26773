import KeyEngine.Duration

/-!
# Configuration

Sizes of the parts of a keyspace. A value out of range is clamped, never refused.
-/

namespace KeyEngine

structure Config where
  shards : Nat
  stripes : Nat
  interval : Duration
  slots : Nat
  maxLevel : Nat
deriving DecidableEq, Repr

namespace Config

def clamp (lo hi n : Nat) : Nat :=
  min (max n lo) hi

/-- Shards and stripes number at least one and at most 65536. -/
def clampShards (n : Nat) : Nat :=
  clamp 1 65536 n

/-- A skip list has at least 16 and at most 64 levels. -/
def clampLevel (n : Nat) : Nat :=
  clamp 16 64 n

def shortestInterval : Duration := .ofMillis 1

def standard : Config where
  shards := 64
  stripes := 128
  interval := .ofMillis 100
  slots := 3600
  maxLevel := 64

/-- Sets the shards and keeps twice as many stripes, as far as a word can count them. -/
def withShards (c : Config) (n : Nat) : Config :=
  { c with shards := n, stripes := min (2 * n) wordMax }

def withStripes (c : Config) (n : Nat) : Config :=
  { c with stripes := n }

def withTimer (c : Config) (interval : Duration) (slots : Nat) : Config :=
  { c with interval := interval, slots := slots }

def withMaxLevel (c : Config) (n : Nat) : Config :=
  { c with maxLevel := n }

def normalized (c : Config) : Config where
  shards := clampShards c.shards
  stripes := clampShards c.stripes
  interval := c.interval.atLeast shortestInterval
  slots := max c.slots 1
  maxLevel := clampLevel c.maxLevel

theorem clampShards_pos (n : Nat) : 0 < clampShards n := by
  simp only [clampShards, clamp]; omega

end Config

end KeyEngine
