import KeyEngine.Proofs.Locks
import Mathlib.Data.Fintype.Lattice
import Mathlib.Logic.Relation

/-!
# Waiting for stripes

A client that locks keys takes their stripes in ascending order, so the stripe that it waits for is higher
than all that it holds. From one client to the next that holds the stripe it waits for, the awaited stripes
climb: there is no way back in a circle, and of finitely many clients one waits for none of the others.
-/

namespace KeyEngine.LockTable

variable {t : LockTable}

/-! ## The stripes as a function of the set of keys -/

theorem stripesOf_congr (h : 0 < t.router.modulus) {keys keys' : List Bytes} (hk : ∀ key, key ∈ keys ↔ key ∈ keys') :
    t.stripesOf keys = t.stripesOf keys' := by
  obtain ⟨is, his, hsorted, hmem⟩ := stripesOf_ok h keys
  obtain ⟨js, hjs, hsorted', hmem'⟩ := stripesOf_ok h keys'
  have hsame : ∀ i, i ∈ is ↔ i ∈ js := by
    intro i
    simp only [hmem, hmem', hk]
  have hperm : is.Perm js :=
    (List.perm_ext_iff_of_nodup (hsorted.imp Nat.ne_of_lt) (hsorted'.imp Nat.ne_of_lt)).mpr hsame
  have heq : is = js := hperm.eq_of_pairwise (fun _ _ _ _ hij hji => absurd hij (Nat.lt_asymm hji)) hsorted hsorted'
  rw [his, hjs, heq]

/-! ## Clients -/

/-- A client in the middle of a call that locks its keys. -/
structure Waiter (t : LockTable) where
  keys : List Bytes
  held : List Nat
  awaited : Nat
  /-- The stripes that come after the one it waits for. -/
  ahead : List Nat
  stripes : t.stripesOf keys = .ok (held ++ awaited :: ahead)

namespace Waiter

/-- The other client holds the stripe that this one waits for. -/
def WaitsFor (a b : Waiter t) : Prop :=
  a.awaited ∈ b.held

variable (h : 0 < t.router.modulus)
include h

theorem lt_awaited (a : Waiter t) : ∀ i ∈ a.held, i < a.awaited := by
  obtain ⟨is, his, hsorted, -⟩ := stripesOf_ok h a.keys
  rw [a.stripes] at his
  cases his
  intro i hi
  exact (List.pairwise_append.mp hsorted).2.2 i hi a.awaited List.mem_cons_self

theorem awaited_lt {a b : Waiter t} (hab : a.WaitsFor b) : a.awaited < b.awaited :=
  b.lt_awaited h a.awaited hab

theorem awaited_lt_of_chain {ι : Type} (clients : ι → Waiter t) {i j : ι}
    (hij : Relation.TransGen (fun i j => (clients i).WaitsFor (clients j)) i j) :
    (clients i).awaited < (clients j).awaited := by
  induction hij with
  | single hstep => exact awaited_lt h hstep
  | tail _ hstep ih => exact ih.trans (awaited_lt h hstep)

/-- Whoever waits for the highest stripe of all is held up by no one. -/
theorem exists_free {ι : Type} [Finite ι] [Nonempty ι] (clients : ι → Waiter t) :
    ∃ i, ∀ j, ¬ (clients i).WaitsFor (clients j) := by
  obtain ⟨i, hi⟩ := Finite.exists_max fun i => (clients i).awaited
  refine ⟨i, ?_⟩
  intro j hij
  have hlt := awaited_lt h hij
  have hle := hi j
  omega

end Waiter

/-- Keys lead to exactly their stripes, ascending, whatever their order and however often they are named.
So clients in the middle of their calls never wait for each other in a circle, and among finitely many one
waits for a stripe that none of them holds. -/
theorem stripes_taken_in_order (n : Nat) (t : LockTable) (ht : t.router = (empty n).router) :
    (∀ keys, ∃ is, t.stripesOf keys = .ok is ∧ is.Pairwise (· < ·) ∧
      ∀ i, i ∈ is ↔ ∃ key ∈ keys, t.stripe key = .ok i) ∧
    (∀ keys keys', (∀ key, key ∈ keys ↔ key ∈ keys') → t.stripesOf keys = t.stripesOf keys') ∧
    ∀ (ι : Type) [Finite ι] (clients : ι → Waiter t),
      (∀ i, ¬ Relation.TransGen (fun i j => (clients i).WaitsFor (clients j)) i i) ∧
        (Nonempty ι → ∃ i, ∀ j, ¬ (clients i).WaitsFor (clients j)) := by
  have hpos : 0 < t.router.modulus := ht ▸ Config.clampShards_pos n
  refine ⟨fun keys => stripesOf_ok hpos keys, fun keys keys' => stripesOf_congr hpos, ?_⟩
  intro ι _ clients
  constructor
  · intro i hcycle
    exact Nat.lt_irrefl _ (Waiter.awaited_lt_of_chain hpos clients hcycle)
  · intro _
    exact Waiter.exists_free hpos clients

/-- Of two clients that name two keys in opposite orders, the one without a stripe waits for the other. -/
theorem stripes_taken_in_order_opposite :
    ∃ x y : Waiter (empty 64), x.keys = [[120], [121]] ∧ y.keys = [[121], [120], [121]] ∧
      x.held = [49] ∧ x.awaited = 60 ∧ y.held = [] ∧ y.WaitsFor x ∧
      (∃ i, ∀ j, ¬ (bif i then x else y).WaitsFor (bif j then x else y)) ∧
      (empty 64).stripesOf y.keys = (empty 64).stripesOf x.keys := by
  let x : Waiter (empty 64) := ⟨[[120], [121]], [49], 60, [], by decide +kernel⟩
  let y : Waiter (empty 64) := ⟨[[121], [120], [121]], [], 49, [60], by decide +kernel⟩
  obtain ⟨-, hcongr, hclients⟩ := stripes_taken_in_order 64 (empty 64) rfl
  refine ⟨x, y, rfl, rfl, rfl, rfl, rfl, List.mem_cons_self, (hclients Bool fun i => bif i then x else y).2 ⟨true⟩, ?_⟩
  apply hcongr
  intro key
  show key ∈ [[121], [120], [121]] ↔ key ∈ [[120], [121]]
  simp only [List.mem_cons, List.not_mem_nil, or_false]
  tauto

end KeyEngine.LockTable
