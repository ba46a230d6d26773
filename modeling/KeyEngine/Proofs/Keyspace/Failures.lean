import KeyEngine.Proofs.Keyspace.Careful
import KeyEngine.Proofs.Keyspace.Expiry

/-!
# Failed requests

A request that fails has done no more than look at keys, and so, due keys apart, it leaves every value,
every deadline and every task as it was.
-/

namespace KeyEngine.Keyspace

variable {now made : Nat} {ks ks' : Keyspace}

def remade (made : Nat) (ks : Keyspace) : Keyspace :=
  { ks with made := made }

theorem remade_without (keys : List Bytes) (ks : Keyspace) :
    (ks.without keys).remade made = (ks.remade made).without keys := by
  induction keys generalizing ks with
  | nil => rfl
  | cons key keys ih => exact ih (ks.erase key true)

theorem remade_sweep (ks : Keyspace) : (ks.sweep now).remade made = (ks.remade made).sweep now :=
  remade_without _ ks

theorem remade_purge (ks : Keyspace) (key : Bytes) :
    (ks.purge now key).remade made = (ks.remade made).purge now key := by
  unfold purge
  change _ = if ks.due now key then _ else _
  split
  · rfl
  · rfl

/-- Looks take due keys away and draw towers, nothing else. -/
theorem Changed.close (h : Changed Change.IsLook now ks ks') (hks : ks.Sane) :
    Close True now ∅ (ks'.remade ks.made) ks := by
  have hstep : ∀ (t : Keyspace) (c : Change), c.IsLook → Close True now ∅ (t.remade ks.made) ks →
      Close True now ∅ ((c.apply now t).remade ks.made) ks := by
    intro t c hc ht
    cases c with
    | look key =>
      show Close True now ∅ ((t.purge now key).remade ks.made) ks
      rw [remade_purge]
      exact ht.purge_left key
    | draw => exact ht
    | _ => cases hc
  exact h.keeps hstep (.refl hks)

/-- A request that fails leaves all as it was, once due keys are gone from both sides. It may only have
drawn towers for a set that it did not make. -/
theorem handle_error (hreach : Reachable ks) {request : Request} {e : Error}
    (he : (ks.handle now request).1 = .error e) :
    Alike (((ks.handle now request).2.sweep now).remade ks.made) (ks.sweep now) := by
  have h := hreach.sane
  have hlooks := (Command.careful_ofRequest request ks h).2 e he
  have hclose := (hlooks.close h).sweep
  rw [remade_sweep]
  exact hclose.alike (due_sweep (hlooks.close h).left now) (due_sweep h now)

/-- The source has been purged before the weights are found wanting. -/
theorem handle_error_storeUnion :
    let ks := standard.after (.request 0 (.setFor [1] [2] 0))
    let request := Request.storeUnion [3] [[1]] (some []) .sum
    Reachable ks ∧ ks.due 7 [1] = true ∧ (ks.handle 7 request).1 = .error .syntaxError ∧
      Alike (((ks.handle 7 request).2.sweep 7).remade ks.made) (ks.sweep 7) := by
  intro ks request
  have hreach : Reachable ks := .step _ (.new _ _)
  have hdue : ks.due 7 [1] = true := by
    rw [due, (standard_setFor [1] [2] 0 [1]).2]
    rfl
  have herror : (ks.handle 7 request).1 = .error .syntaxError := by
    unfold handle
    show (ks.run (Reply.number <$> Command.store 7 [3] [[1]] _)).1 = _
    unfold Command.store
    rw [run_map, run_bind_ok (Command.run_checkOperands hreach.sane (by simp) [[3]])]
    rfl
  exact ⟨hreach, hdue, herror, handle_error hreach herror⟩

end KeyEngine.Keyspace
