import KeyEngine.Proofs.Keyspace.Frame

/-!
# Deletions

A deletion takes the value, the deadline and the task of each listed key away and leaves every other key
alone. It does not look at the keys first: what it counts is the values it took away, and one that was due,
but not yet purged, is among them.
-/

namespace KeyEngine.Keyspace

open Command

variable {now : Nat} {ks t : Keyspace} {key : Bytes}

/-! ## What exists -/

theorem run_isPresent (h : ks.Sane) (now : Nat) (key : Bytes) :
    ks.run (isPresent now key) = (.ok (ks.value now key).isSome, ks.purge now key) := by
  unfold isPresent
  rw [run_bind_ok (run_checkLive h now key), isSome_value]
  cases hd : ks.due now key with
  | true => rfl
  | false =>
    have hp : ks.purge now key = ks := by simp [purge, hd]
    rw [hp]
    exact run_contains h key

theorem answer_countPresent (h : ks.Sane) (now : Nat) (key : Bytes) :
    (ks.handle now (.countPresent [key])).1 = .ok (.number (if (ks.value now key).isSome then 1 else 0)) := by
  show (ks.run (Reply.number <$> countPresent now [key])).1 = _
  unfold countPresent
  rw [run_map, run_bind_ok (run_isPresent h now key)]
  rfl

/-! ## What is deleted -/

theorem handle_delete (h : ks.Sane) (now : Nat) (keys : List Bytes) :
    ks.handle now (.delete keys) = (.ok (.number (ks.held keys).card), ks.removeAll keys) := by
  show ks.run (Reply.number <$> delete keys) = _
  rw [run_map, run_delete h]
  rfl

theorem Sane.stored_of_due (h : ks.Sane) (hd : ks.due now key) : (ks.data.find? key).isSome := by
  apply h.stored
  unfold due at hd
  cases hf : ks.deadlines.find? key with
  | none => simp [hf] at hd
  | some time => rfl

/-- A key has a value if it is live, or if it is due and not yet purged. -/
theorem card_held (h : ks.Sane) (now : Nat) (keys : List Bytes) :
    (ks.held keys).card =
      (keys.toFinset.filter fun key => (ks.value now key).isSome).card +
        (keys.toFinset.filter fun key => ks.due now key).card := by
  rw [← Finset.card_union_of_disjoint, ← Finset.filter_or]
  · congr 1
    apply Finset.filter_congr
    intro key _
    rw [isSome_value]
    cases hd : ks.due now key with
    | false => simp
    | true => simpa using h.stored_of_due hd
  · rw [Finset.disjoint_filter]
    intro key _ hv hd
    rw [isSome_value, hd] at hv
    cases hv

theorem sane_removeAll (h : t.Sane) (keys : List Bytes) : (t.removeAll keys).Sane := by
  induction keys generalizing t with
  | nil => exact h
  | cons key keys ih => exact ih (h.remove key)

/-- Only keys with a value have a record, and only keys with a record a task. -/
theorem Sane.cleared (h : ks.Sane) (hv : ks.data.find? key = none) :
    ks.deadlines.find? key = none ∧ ks.timer.books key = false := by
  have hd : ks.deadlines.find? key = none := by
    by_contra hn
    have := h.stored key (Option.isSome_iff_ne_none.mpr hn)
    simp [hv] at this
  exact ⟨hd, h.not_books hd⟩

theorem cleared_removeAll (h : t.Sane) {keys : List Bytes} (hk : key ∈ keys) :
    (t.removeAll keys).data.find? key = none ∧ (t.removeAll keys).deadlines.find? key = none ∧
      (t.removeAll keys).timer.books key = false :=
  ⟨gone_removeAll h hk, (sane_removeAll h keys).cleared (gone_removeAll h hk)⟩

theorem agree_removeAll (h : t.Sane) {L : Bytes → Bool} {keys : List Bytes} (hL : ∀ key ∈ keys, L key = false) :
    (t.removeAll keys).timer.Agree L t.timer := by
  induction keys generalizing t with
  | nil => exact .refl L _
  | cons key keys ih =>
    obtain ⟨hkey, hkeys⟩ := List.forall_mem_cons.mp hL
    have hone : (t.remove key).timer.Agree L t.timer := Close.agree_cancel_if (.refl L _) h.timer hkey _
    exact (ih (h.remove key) hkeys).trans hone

/-- The count is that of the distinct listed keys that exist and of those that are due and have not been
purged. The listed keys lose value, record and task; no other key is affected. -/
theorem delete_counts (hreach : Reachable ks) (now : Nat) (keys : List Bytes) :
    let ks' := (ks.handle now (.delete keys)).2
    (∀ key, (ks.handle now (.countPresent [key])).1 =
      .ok (.number (if (ks.value now key).isSome then 1 else 0))) ∧
    (ks.handle now (.delete keys)).1 =
      .ok (.number ((keys.toFinset.filter fun key => (ks.value now key).isSome).card +
        (keys.toFinset.filter fun key => ks.due now key).card)) ∧
    (∀ key ∈ keys, ks'.data.find? key = none ∧ ks'.deadlines.find? key = none ∧
      ks'.timer.books key = false) ∧
    (∀ key ∉ keys, Untouched key ks ks') ∧
    ks'.timer.Agree (fun key => decide (key ∉ keys)) ks.timer := by
  have h := hreach.sane
  rw [handle_delete h, card_held h now]
  refine ⟨answer_countPresent h now, rfl, fun key => cleared_removeAll h, fun key => untouched_removeAll h, ?_⟩
  exact agree_removeAll h (by simp)

theorem delete_counts_repeated :
    let ks := standard.after (.request 0 (.setFor [1] [2] 9))
    let result := ks.handle 5 (.delete [[1], [3], [1]])
    Reachable ks ∧ result.1 = .ok (.number 1) ∧ result.2.data.find? [1] = none := by
  intro ks result
  have hreach : Reachable ks := .step _ (.new _ _)
  obtain ⟨-, hanswer, hgone, -⟩ := delete_counts hreach 5 [[1], [3], [1]]
  have hdue : ∀ key, ks.due 5 key = false := by
    intro key
    rw [due, (standard_setFor [1] [2] 9 key).2]
    by_cases hk : [1] = key
    · rw [if_pos hk]
      rfl
    · rw [if_neg hk]
      rfl
  have hvalue : ∀ key, (ks.value 5 key).isSome = decide ([1] = key) := by
    intro key
    rw [isSome_value, hdue, (standard_setFor [1] [2] 9 key).1]
    by_cases hk : [1] = key
    · simp [hk]
    · simp [hk]
  refine ⟨hreach, hanswer.trans ?_, (hgone [1] (by simp)).1⟩
  simp only [hvalue, hdue]
  rfl

/-- The value is due, and nothing has purged it. -/
theorem delete_counts_due :
    let ks := standard.after (.request 0 (.setFor [1] [2] 0))
    Reachable ks ∧ (ks.handle 0 (.countPresent [[1]])).1 = .ok (.number 0) ∧
      (ks.handle 0 (.delete [[1]])).1 = .ok (.number 1) := by
  intro ks
  have hreach : Reachable ks := .step _ (.new _ _)
  have hdue : ks.due 0 [1] = true := by
    rw [due, (standard_setFor [1] [2] 0 [1]).2]
    rfl
  have hheld : ks.held [[1]] = {[1]} := Finset.filter_true_of_mem (by simp [hreach.sane.stored_of_due hdue])
  refine ⟨hreach, ?_, ?_⟩
  · rw [answer_countPresent hreach.sane, isSome_value, hdue]
    rfl
  · rw [handle_delete hreach.sane, hheld]
    rfl

end KeyEngine.Keyspace
