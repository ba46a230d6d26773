import KeyEngine.Wheel
import Mathlib.Data.List.Nodup

/-!
# Booked tasks

In a sound wheel the index tells exactly where the task of each key waits, so that a key has one task at
most. Two wheels agree on some keys if, but for the tasks of other keys, their slots hold the same.
-/

namespace KeyEngine.Wheel

def tasksAt {α : Type} (w : Wheel α) (s : Nat) : List (Nat × Task α) :=
  w.slots[s]?.getD []

/-- Every task is booked under its payload, and found through the index. -/
structure Sound (w : Wheel Bytes) : Prop where
  size_pos : 0 < w.slots.size
  keyed : ∀ s n t, (n, t) ∈ w.tasksAt s → t.key = some t.payload
  index_iff : ∀ k s n, w.index[k]? = some (s, n) ↔ ∃ t, (n, t) ∈ w.tasksAt s ∧ t.payload = k
  numbered : ∀ s, ((w.tasksAt s).map Prod.fst).Nodup
  fresh : ∀ s n t, (n, t) ∈ w.tasksAt s → n < w.nextNumber

variable {w w' : Wheel Bytes}

theorem Sound.index_eq (h : w.Sound) {s n : Nat} {t : Task Bytes} (ht : (n, t) ∈ w.tasksAt s) :
    w.index[t.payload]? = some (s, n) :=
  (h.index_iff _ s n).mpr ⟨t, ht, rfl⟩

theorem Sound.task_inj (h : w.Sound) {s n : Nat} {t t' : Task Bytes} (ht : (n, t) ∈ w.tasksAt s)
    (ht' : (n, t') ∈ w.tasksAt s) : t = t' := by
  have := List.inj_on_of_nodup_map (h.numbered s) ht ht' rfl
  exact congrArg Prod.snd this

theorem Sound.payload_eq_iff (h : w.Sound) {s n : Nat} {t : Task Bytes}
    (ht : (n, t) ∈ w.tasksAt s) (key : Bytes) :
    w.index[key]? = some (s, n) ↔ t.payload = key := by
  constructor
  · intro hk
    obtain ⟨t', ht', rfl⟩ := (h.index_iff key s n).mp hk
    rw [h.task_inj ht ht']
  · rintro rfl
    exact h.index_eq ht

theorem tasksAt_empty (interval : Duration) (n s : Nat) :
    (empty interval n : Wheel Bytes).tasksAt s = [] := by
  unfold tasksAt empty
  rw [Array.getElem?_replicate]
  split <;> rfl

theorem sound_empty (interval : Duration) {n : Nat} (hn : 0 < n) :
    (empty interval n : Wheel Bytes).Sound := by
  constructor
  · simpa [empty] using hn
  · intro s n t ht
    rw [tasksAt_empty] at ht
    cases ht
  · intro k s n
    simp only [tasksAt_empty]
    simp [empty]
  · intro s
    rw [tasksAt_empty]
    exact List.nodup_nil
  · intro s n t ht
    rw [tasksAt_empty] at ht
    cases ht

/-! ## Removing -/

@[simp] theorem cursor_remove {α : Type} (w : Wheel α) (key : Bytes) : (w.remove key).1.cursor = w.cursor := by
  unfold remove
  split <;> rfl

@[simp] theorem interval_remove {α : Type} (w : Wheel α) (key : Bytes) :
    (w.remove key).1.interval = w.interval := by
  unfold remove
  split <;> rfl

@[simp] theorem nextNumber_remove {α : Type} (w : Wheel α) (key : Bytes) :
    (w.remove key).1.nextNumber = w.nextNumber := by
  unfold remove
  split <;> rfl

@[simp] theorem size_remove {α : Type} (w : Wheel α) (key : Bytes) :
    (w.remove key).1.slots.size = w.slots.size := by
  unfold remove
  split <;> simp

theorem index_remove {α : Type} (w : Wheel α) (key other : Bytes) :
    (w.remove key).1.index[other]? = if key = other then none else w.index[other]? := by
  unfold remove
  split
  · rename_i hi
    split
    · subst other
      exact hi
    · rfl
  · rw [Std.HashMap.getElem?_erase]
    simp

theorem Sound.tasksAt_remove (h : w.Sound) (key : Bytes) (s : Nat) :
    (w.remove key).1.tasksAt s = (w.tasksAt s).filter (·.2.payload ≠ key) := by
  unfold remove
  split
  · rename_i hi
    symm
    rw [List.filter_eq_self]
    intro x hx
    have := h.index_eq hx
    simp only [ne_eq, decide_eq_true_eq]
    rintro rfl
    rw [hi] at this
    cases this
  · rename_i slot number hi
    unfold tasksAt
    rw [Array.getElem?_modify]
    -- The number that the index gives for the key is the number of its task.
    have hx : ∀ x ∈ w.tasksAt s, x.2.payload = key ↔ slot = s ∧ number = x.1 := by
      intro x hx
      rw [← h.payload_eq_iff hx key, hi]
      simp
    split
    · subst slot
      cases hs : w.slots[s]? with
      | none => rfl
      | some tasks =>
        show tasks.filter _ = tasks.filter _
        apply List.filter_congr
        intro x hm
        have := hx x (by simpa [tasksAt, hs] using hm)
        simp only [ne_eq, decide_not, this, true_and, eq_comm]
    · rename_i hne
      symm
      rw [List.filter_eq_self]
      intro x hm
      have := hx x hm
      simp only [ne_eq, decide_eq_true_eq, this]
      exact fun e => hne e.1

theorem Sound.remove (h : w.Sound) (key : Bytes) : (w.remove key).1.Sound := by
  constructor
  · rw [size_remove]
    exact h.size_pos
  · intro s n t ht
    rw [h.tasksAt_remove] at ht
    exact h.keyed s n t (List.mem_of_mem_filter ht)
  · intro k s n
    rw [index_remove, h.tasksAt_remove]
    split
    · subst k
      simp only [reduceCtorEq, false_iff]
      rintro ⟨t, ht, hk⟩
      simpa [hk] using List.of_mem_filter ht
    · rename_i hne
      rw [h.index_iff]
      apply exists_congr
      intro t
      rw [List.mem_filter]
      constructor
      · rintro ⟨ht, rfl⟩
        exact ⟨⟨ht, by simpa using Ne.symm hne⟩, rfl⟩
      · rintro ⟨ht, hk⟩
        exact ⟨ht.1, hk⟩
  · intro s
    rw [h.tasksAt_remove]
    exact (h.numbered s).sublist (List.filter_sublist.map _)
  · intro s n t ht
    rw [h.tasksAt_remove] at ht
    rw [nextNumber_remove]
    exact h.fresh s n t (List.mem_of_mem_filter ht)

/-! ## Booking -/

theorem position_remove (w : Wheel Bytes) (key : Bytes) (delay : Duration) :
    (w.remove key).1.position delay = w.position delay := by
  unfold position ticks
  simp

theorem position_lt (h : 0 < w.slots.size) (delay : Duration) :
    (w.position delay).1 < w.slots.size :=
  Nat.mod_lt _ h

def booked (w : Wheel Bytes) (delay : Duration) (key : Bytes) : Nat × Task Bytes :=
  (w.nextNumber, ⟨some key, (w.position delay).2, key⟩)

theorem add_eq (w : Wheel Bytes) (delay : Duration) (key : Bytes) :
    w.add delay (some key) key =
      { (w.remove key).1 with
        index := (w.remove key).1.index.insert key ((w.position delay).1, w.nextNumber)
        slots := (w.remove key).1.slots.modify (w.position delay).1 (· ++ [w.booked delay key])
        nextNumber := w.nextNumber + 1 } := by
  unfold add booked
  simp [position_remove]

theorem index_add (w : Wheel Bytes) (delay : Duration) (key other : Bytes) :
    (w.add delay (some key) key).index[other]? =
      if key = other then some ((w.position delay).1, w.nextNumber) else w.index[other]? := by
  rw [add_eq]
  simp only [Std.HashMap.getElem?_insert, beq_iff_eq, index_remove]
  split <;> rfl

theorem Sound.tasksAt_add (h : w.Sound) (delay : Duration) (key : Bytes) (s : Nat) :
    (w.add delay (some key) key).tasksAt s =
      (w.tasksAt s).filter (·.2.payload ≠ key) ++
        if (w.position delay).1 = s then [w.booked delay key] else [] := by
  rw [← h.tasksAt_remove, add_eq]
  have hlt := position_lt h.size_pos delay
  rw [← size_remove w key] at hlt
  unfold tasksAt
  dsimp only
  rw [Array.getElem?_modify]
  split
  · subst s
    rw [Array.getElem?_eq_getElem hlt]
    rfl
  · rw [List.append_nil]

theorem Sound.mem_tasksAt_add (h : w.Sound) {delay : Duration} {key : Bytes} {s : Nat}
    {x : Nat × Task Bytes} :
    x ∈ (w.add delay (some key) key).tasksAt s ↔
      (x ∈ w.tasksAt s ∧ x.2.payload ≠ key) ∨
        ((w.position delay).1 = s ∧ x = w.booked delay key) := by
  rw [h.tasksAt_add, List.mem_append, List.mem_filter]
  simp only [ne_eq, decide_not, Bool.not_eq_true', decide_eq_false_iff_not]
  split
  · rename_i hs
    simp [hs]
  · rename_i hs
    simp [hs]

theorem Sound.index_add_iff (h : w.Sound) {delay : Duration} {key k : Bytes} {s n : Nat} :
    (w.add delay (some key) key).index[k]? = some (s, n) ↔
      ∃ t, (n, t) ∈ (w.add delay (some key) key).tasksAt s ∧ t.payload = k := by
  rw [index_add]
  split
  · subst k
    constructor
    · intro e
      cases e
      exact ⟨(w.booked delay key).2, h.mem_tasksAt_add.mpr (.inr ⟨rfl, rfl⟩), rfl⟩
    · rintro ⟨t, ht, hk⟩
      rcases h.mem_tasksAt_add.mp ht with ⟨-, hne⟩ | ⟨hs, e⟩
      · exact absurd hk hne
      · cases e
        rw [hs]
  · rename_i hne
    rw [h.index_iff]
    constructor
    · rintro ⟨t, ht, rfl⟩
      exact ⟨t, h.mem_tasksAt_add.mpr (.inl ⟨ht, Ne.symm hne⟩), rfl⟩
    · rintro ⟨t, ht, rfl⟩
      rcases h.mem_tasksAt_add.mp ht with ⟨ht, -⟩ | ⟨-, e⟩
      · exact ⟨t, ht, rfl⟩
      · cases e
        exact absurd rfl hne

theorem Sound.add (h : w.Sound) (delay : Duration) (key : Bytes) :
    (w.add delay (some key) key).Sound := by
  constructor
  · rw [add_eq]
    simpa using h.size_pos
  · intro s n t ht
    rcases h.mem_tasksAt_add.mp ht with ⟨ht, -⟩ | ⟨-, e⟩
    · exact h.keyed s n t ht
    · cases e
      rfl
  · exact fun k s n => h.index_add_iff
  · intro s
    have hold := (h.numbered s).sublist
      ((List.filter_sublist (p := fun x => x.2.payload ≠ key)).map Prod.fst)
    rw [h.tasksAt_add, List.map_append]
    split
    · apply List.nodup_append.mpr
      refine ⟨hold, List.nodup_singleton _, ?_⟩
      intro a ha b hb
      obtain ⟨⟨n, t⟩, hx, rfl⟩ := List.mem_map.mp ha
      have hlt := h.fresh s n t (List.mem_of_mem_filter hx)
      cases List.mem_singleton.mp hb
      exact Nat.ne_of_lt hlt
    · simpa using hold
  · intro s n t ht
    rw [add_eq]
    show n < w.nextNumber + 1
    rcases h.mem_tasksAt_add.mp ht with ⟨ht, -⟩ | ⟨-, e⟩
    · exact Nat.lt_succ_of_lt (h.fresh s n t ht)
    · cases e
      exact Nat.lt_succ_self _

/-! ## Ticks -/

def pass (x : Nat × Task Bytes) : Nat × Task Bytes :=
  (x.1, { x.2 with laps := x.2.laps - 1 })

/-- What the tasks of the slot under the cursor become. -/
def passed (w : Wheel Bytes) : List (Nat × Task Bytes) :=
  ((w.tasksAt w.cursor).filter (·.2.laps ≠ 0)).map pass

theorem tasksAt_tick (w : Wheel Bytes) (s : Nat) :
    w.tick.1.tasksAt s = if w.cursor = s then w.passed else w.tasksAt s := by
  unfold tick tasksAt
  dsimp only
  rw [Array.getElem?_setIfInBounds]
  split
  · subst s
    split
    · rfl
    · rename_i hs
      unfold passed tasksAt
      rw [Array.getElem?_eq_none (Nat.le_of_not_lt hs)]
      rfl
  · rfl

theorem mem_passed {n : Nat} {t : Task Bytes} (ht : (n, t) ∈ w.passed) :
    ∃ u, (n, u) ∈ w.tasksAt w.cursor ∧ u.laps ≠ 0 ∧ u.payload = t.payload ∧ u.key = t.key := by
  obtain ⟨⟨m, u⟩, hu, e⟩ := List.mem_map.mp ht
  cases e
  exact ⟨u, List.mem_of_mem_filter hu, by simpa using List.of_mem_filter hu, rfl, rfl⟩

theorem mem_passed_of_laps {n : Nat} {u : Task Bytes} (hu : (n, u) ∈ w.tasksAt w.cursor)
    (hl : u.laps ≠ 0) : ∃ t, (n, t) ∈ w.passed ∧ t.payload = u.payload := by
  refine ⟨(pass (n, u)).2, ?_, rfl⟩
  apply List.mem_map_of_mem (f := pass) (a := (n, u))
  rw [List.mem_filter]
  exact ⟨hu, by simpa using hl⟩

theorem mem_fired {t : Task Bytes} :
    t ∈ w.tick.2 ↔ ∃ n, (n, t) ∈ w.tasksAt w.cursor ∧ t.laps = 0 := by
  show t ∈ ((w.tasksAt w.cursor).filter (·.2.laps = 0)).map (·.2) ↔ _
  simp only [List.mem_map, List.mem_filter, decide_eq_true_eq, Prod.exists, exists_eq_right]

theorem getElem?_foldl_erase (keys : List Bytes) (m : Std.HashMap Bytes (Nat × Nat)) (key : Bytes) :
    (keys.foldl (·.erase ·) m)[key]? = if key ∈ keys then none else m[key]? := by
  induction keys generalizing m with
  | nil => simp
  | cons k keys ih =>
    rw [List.foldl_cons, ih, Std.HashMap.getElem?_erase]
    by_cases hk : k = key
    · simp [hk]
    · simp [hk, Ne.symm hk]

theorem Sound.mem_keys_fired (h : w.Sound) (key : Bytes) :
    key ∈ w.tick.2.filterMap (·.key) ↔ ∃ t ∈ w.tick.2, t.payload = key := by
  rw [List.mem_filterMap]
  apply exists_congr
  intro t
  apply and_congr_right
  intro ht
  obtain ⟨n, hn, -⟩ := mem_fired.mp ht
  rw [h.keyed _ n t hn]
  exact Option.some_inj

theorem Sound.index_tick (h : w.Sound) (key : Bytes) [Decidable (∃ t ∈ w.tick.2, t.payload = key)] :
    w.tick.1.index[key]? = if ∃ t ∈ w.tick.2, t.payload = key then none else w.index[key]? := by
  show ((w.tick.2.filterMap (·.key)).foldl (·.erase ·) w.index)[key]? = _
  rw [getElem?_foldl_erase]
  simp only [h.mem_keys_fired]

/-- A task still waits after the tick unless it was under the cursor and had no lap left. -/
theorem Sound.mem_tasksAt_tick (h : w.Sound) (key : Bytes) (s n : Nat) :
    (∃ t, (n, t) ∈ w.tick.1.tasksAt s ∧ t.payload = key) ↔
      (¬ ∃ t ∈ w.tick.2, t.payload = key) ∧ ∃ t, (n, t) ∈ w.tasksAt s ∧ t.payload = key := by
  rw [tasksAt_tick]
  constructor
  · rintro ⟨t, ht, rfl⟩
    split at ht
    · subst s
      obtain ⟨u, hu, hl, hp, -⟩ := mem_passed ht
      refine ⟨?_, u, hu, hp⟩
      rintro ⟨f, hf, hfp⟩
      obtain ⟨m, hm, hfl⟩ := mem_fired.mp hf
      have hi := (h.payload_eq_iff hm u.payload).mpr (by rw [hfp, hp])
      rw [h.index_eq hu] at hi
      cases hi
      exact hl (h.task_inj hm hu ▸ hfl)
    · rename_i hne
      refine ⟨?_, t, ht, rfl⟩
      rintro ⟨f, hf, hfp⟩
      obtain ⟨m, hm, -⟩ := mem_fired.mp hf
      have hi := (h.payload_eq_iff hm t.payload).mpr hfp
      rw [h.index_eq ht] at hi
      cases hi
      exact hne rfl
  · rintro ⟨hnot, t, ht, rfl⟩
    split
    · subst s
      apply mem_passed_of_laps ht
      intro hl
      exact hnot ⟨t, mem_fired.mpr ⟨n, ht, hl⟩, rfl⟩
    · exact ⟨t, ht, rfl⟩

theorem Sound.tick (h : w.Sound) : w.tick.1.Sound := by
  classical
  constructor
  · simpa [Wheel.tick] using h.size_pos
  · intro s n t ht
    rw [tasksAt_tick] at ht
    split at ht
    · obtain ⟨u, hu, -, hp, hk⟩ := mem_passed ht
      rw [← hp, ← hk]
      exact h.keyed _ n u hu
    · exact h.keyed s n t ht
  · intro k s n
    rw [h.index_tick, h.mem_tasksAt_tick, ← h.index_iff]
    split
    · rename_i hf
      simp [hf]
    · rename_i hf
      simp only [hf, not_false_eq_true, true_and]
  · intro s
    rw [tasksAt_tick]
    split
    · have : w.passed.map Prod.fst = ((w.tasksAt w.cursor).filter (·.2.laps ≠ 0)).map Prod.fst := by
        unfold passed
        rw [List.map_map]
        rfl
      rw [this]
      exact (h.numbered _).sublist (List.filter_sublist.map _)
    · exact h.numbered s
  · intro s n t ht
    show n < w.nextNumber
    rw [tasksAt_tick] at ht
    split at ht
    · obtain ⟨u, hu, -⟩ := mem_passed ht
      exact h.fresh _ n u hu
    · exact h.fresh s n t ht

/-! ## Wheels that agree on some keys -/

variable {L L' : Bytes → Bool}

structure Agree (L : Bytes → Bool) (w w' : Wheel Bytes) : Prop where
  interval : w.interval = w'.interval
  size : w.slots.size = w'.slots.size
  cursor : w.cursor = w'.cursor
  nextNumber : w.nextNumber = w'.nextNumber
  tasks : ∀ s, (w.tasksAt s).filter (L ·.2.payload) = (w'.tasksAt s).filter (L ·.2.payload)

theorem Agree.refl (L : Bytes → Bool) (w : Wheel Bytes) : w.Agree L w :=
  ⟨rfl, rfl, rfl, rfl, fun _ => rfl⟩

theorem Agree.symm (h : w.Agree L w') : w'.Agree L w :=
  ⟨h.interval.symm, h.size.symm, h.cursor.symm, h.nextNumber.symm, fun s => (h.tasks s).symm⟩

theorem Agree.trans {v : Wheel Bytes} (h : w.Agree L w') (h' : w'.Agree L v) : w.Agree L v where
  interval := h.interval.trans h'.interval
  size := h.size.trans h'.size
  cursor := h.cursor.trans h'.cursor
  nextNumber := h.nextNumber.trans h'.nextNumber
  tasks s := (h.tasks s).trans (h'.tasks s)

theorem filter_of_imp (hL : ∀ k, L' k = true → L k = true) (tasks : List (Nat × Task Bytes)) :
    (tasks.filter (L ·.2.payload)).filter (L' ·.2.payload) = tasks.filter (L' ·.2.payload) := by
  rw [List.filter_filter]
  apply List.filter_congr
  intro x _
  cases hx : L' x.2.payload with
  | false => rfl
  | true => simp [hL _ hx]

theorem Agree.mono (h : w.Agree L w') (hL : ∀ k, L' k = true → L k = true) : w.Agree L' w' where
  interval := h.interval
  size := h.size
  cursor := h.cursor
  nextNumber := h.nextNumber
  tasks := by
    intro s
    rw [← filter_of_imp hL, h.tasks, filter_of_imp hL]

theorem Agree.remove_left (h : w.Agree L w') (hw : w.Sound) {key : Bytes} (hk : L key = false) :
    (w.remove key).1.Agree L w' where
  interval := by rw [interval_remove, h.interval]
  size := by rw [size_remove, h.size]
  cursor := by rw [cursor_remove, h.cursor]
  nextNumber := by rw [nextNumber_remove, h.nextNumber]
  tasks := by
    intro s
    rw [← h.tasks, hw.tasksAt_remove, List.filter_filter]
    apply List.filter_congr
    intro x _
    by_cases hx : x.2.payload = key
    · simp [hx, hk]
    · simp [hx]

theorem Agree.position_eq (h : w.Agree L w') (delay : Duration) :
    w.position delay = w'.position delay := by
  unfold position ticks
  rw [h.interval, h.size, h.cursor]

theorem Agree.booked_eq (h : w.Agree L w') (delay : Duration) (key : Bytes) :
    w.booked delay key = w'.booked delay key := by
  unfold booked
  rw [h.position_eq, h.nextNumber]

/-- After a booking on both sides the wheels agree on its key besides. -/
theorem Agree.add (h : w.Agree L w') (hw : w.Sound) (hw' : w'.Sound) {key : Bytes}
    (hL : ∀ k, k ≠ key → L' k = true → L k = true) (delay : Duration) :
    (w.add delay (some key) key).Agree L' (w'.add delay (some key) key) where
  interval := by
    rw [add_eq, add_eq]
    simpa using h.interval
  size := by
    rw [add_eq, add_eq]
    simpa using h.size
  cursor := by
    rw [add_eq, add_eq]
    simpa using h.cursor
  nextNumber := by
    rw [add_eq, add_eq]
    simpa using h.nextNumber
  tasks := by
    intro s
    have others : ∀ tasks : List (Nat × Task Bytes),
        (tasks.filter (·.2.payload ≠ key)).filter (L' ·.2.payload) =
          ((tasks.filter (L ·.2.payload)).filter (·.2.payload ≠ key)).filter (L' ·.2.payload) := by
      intro tasks
      simp only [List.filter_filter]
      apply List.filter_congr
      intro x _
      by_cases hx : x.2.payload = key
      · simp [hx]
      · cases hx' : L' x.2.payload with
        | false => rfl
        | true => simp [hL _ hx hx']
    rw [hw.tasksAt_add, hw'.tasksAt_add, List.filter_append, List.filter_append, h.position_eq,
      h.booked_eq, others, h.tasks, ← others]

/-! ## Wheels that cannot be told apart -/

structure Alike (w w' : Wheel Bytes) : Prop where
  interval : w.interval = w'.interval
  slots : w.slots = w'.slots
  index : ∀ key : Bytes, w.index[key]? = w'.index[key]?
  cursor : w.cursor = w'.cursor
  nextNumber : w.nextNumber = w'.nextNumber

theorem Sound.contains_payload (h : w.Sound) {s : Nat} {x : Nat × Task Bytes}
    (hx : x ∈ w.tasksAt s) : w.contains x.2.payload := by
  have := h.index_eq hx
  unfold contains
  rw [Std.HashMap.contains_eq_isSome_getElem?, this]
  rfl

theorem Sound.index_congr (h : w.Sound) (h' : w'.Sound)
    (tasks : ∀ s, w.tasksAt s = w'.tasksAt s) (key : Bytes) :
    w.index[key]? = w'.index[key]? := by
  apply Option.ext
  rintro ⟨s, n⟩
  rw [h.index_iff, h'.index_iff, tasks]

/-- Agreement on every key that has a task on either side. -/
theorem Agree.alike (h : w.Agree L w') (hw : w.Sound) (hw' : w'.Sound)
    (hL : ∀ key, w.contains key → L key = true) (hL' : ∀ key, w'.contains key → L key = true) :
    w.Alike w' := by
  have tasks : ∀ s, w.tasksAt s = w'.tasksAt s := by
    intro s
    have ht := h.tasks s
    rwa [List.filter_eq_self.mpr fun x hx => hL _ (hw.contains_payload hx),
      List.filter_eq_self.mpr fun x hx => hL' _ (hw'.contains_payload hx)] at ht
  refine ⟨h.interval, ?_, hw.index_congr hw' tasks, h.cursor, h.nextNumber⟩
  apply Array.ext h.size
  intro s hs hs'
  simpa [tasksAt, hs, hs'] using tasks s

end KeyEngine.Wheel
