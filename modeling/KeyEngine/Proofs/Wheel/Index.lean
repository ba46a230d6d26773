import KeyEngine.Proofs.Dealing
import Mathlib.Data.List.Permutation

/-!
# The index of a wheel

After any history the index says of each key just where its task waits, by slot and number, and no two tasks that
wait have a key or a number in common. So what goes by the index alone, to fire a task, to take it off or to put
another one in its place, comes upon the task of the key and upon no other.
-/

namespace KeyEngine.Wheel

variable {α : Type} {w : Wheel α} {passed s number : Nat} {l : List (Nat × Booking α)} {key : Bytes}

structure Indexed (w : Wheel α) : Prop where
  index_iff : ∀ (key : Bytes) slot number, w.index[key]? = some (slot, number) ↔
    ∃ t, (number, t) ∈ w.tasksAt slot ∧ t.key = some key
  keys : (w.tasks.filterMap (·.2.key)).Nodup
  numbers : (w.tasks.map Prod.fst).Nodup
  fresh : ∀ x ∈ w.tasks, x.1 < w.nextNumber
  slot_lt : ∀ (key : Bytes) slot number, w.index[key]? = some (slot, number) → slot < w.slots.size
  cursor_lt : w.cursor < w.slots.size

/-! ## Bookings as tasks that wait -/

theorem mem_tasksAt_dealt (h : w.Deals passed l) {t : Task α} :
    (number, t) ∈ w.tasksAt s ↔
      ∃ x ∈ l, slotOf w.slots.size x.2 = s ∧ dealt w.slots.size passed x = (number, t) := by
  rw [h.tasks, List.mem_map]
  simp only [List.mem_filter, decide_eq_true_eq, and_assoc]

theorem Deals.index_iff (h : w.Deals passed l) : w.index[key]? = some (s, number) ↔
    ∃ t, (number, t) ∈ w.tasksAt s ∧ t.key = some key := by
  simp only [mem_tasksAt_dealt h]
  constructor
  · intro hi
    obtain ⟨x, hx, hk, hs, hn⟩ := h.find?_eq_some hi
    exact ⟨(dealt w.slots.size passed x).2, ⟨x, hx, hs, Prod.ext hn rfl⟩, of_decide_eq_true hk⟩
  · intro ⟨t, ⟨x, hx, hs, hd⟩, hk⟩
    cases hd
    have hu : x.2.isUnder key := decide_eq_true hk
    have hsome : (l.find? (·.2.isUnder key)).isSome := List.find?_isSome.mpr ⟨x, hx, hu⟩
    obtain ⟨y, hy⟩ := Option.isSome_iff_exists.mp hsome
    obtain rfl := h.keyed key y (List.mem_of_find?_eq_some hy) x hx
      (by simpa using List.find?_some hy) hu
    rw [h.index, hy, ← hs]
    rfl

theorem Deals.keys_nodup (h : w.Deals passed l) : (l.filterMap (·.2.key)).Nodup := by
  have hl : l.Nodup := .of_map _ h.numbered
  refine List.pairwise_filterMap.mpr (hl.imp_of_mem ?_)
  intro x y hx hy hne key hk key' hk' heq
  subst heq
  exact hne (h.keyed key x hx y hy (decide_eq_true hk) (decide_eq_true hk'))

theorem Deals.indexed (h : w.Deals passed l) : w.Indexed where
  index_iff _ _ _ := h.index_iff
  keys := by
    refine (h.tasks_perm.filterMap _).nodup_iff.mpr ?_
    rw [List.filterMap_map]
    exact h.keys_nodup
  numbers := by
    refine (h.tasks_perm.map _).nodup_iff.mpr ?_
    rw [List.map_map]
    exact h.numbered
  fresh := by
    intro x hx
    obtain ⟨y, hy, rfl⟩ := List.mem_map.mp (h.tasks_perm.subset hx)
    exact h.fresh y hy
  slot_lt := by
    intro key slot number hi
    obtain ⟨x, -, -, hs, -⟩ := h.find?_eq_some hi
    exact hs ▸ slotOf_lt h.size_pos x.2
  cursor_lt := by
    rw [h.cursor]
    exact Nat.mod_lt _ h.size_pos

/-! ## Going by the index -/

/-- The tasks that the next tick fires, with their numbers. -/
def due (w : Wheel α) : List (Nat × Task α) :=
  (w.tasksAt w.cursor).filter (·.2.laps = 0)

/-- The index without the keys of the tasks. -/
def without (index : Std.HashMap Bytes (Nat × Nat)) (tasks : List (Nat × Task α)) : Std.HashMap Bytes (Nat × Nat) :=
  (tasks.filterMap (·.2.key)).foldl (·.erase ·) index

theorem index_tick (w : Wheel α) : w.tick.1.index = without w.index w.due := by
  show (((w.due.map Prod.snd).filterMap (·.key)).foldl _ _) = _
  rw [List.filterMap_map]
  rfl

theorem tasksAt_sublist (w : Wheel α) (s : Nat) : (w.tasksAt s).Sublist w.tasks := by
  unfold tasksAt
  cases hs : w.slots[s]? with
  | none => exact List.nil_sublist _
  | some slot => exact List.sublist_flatten_of_mem (Array.mem_toList_iff.mpr (Array.mem_of_getElem? hs))

theorem Indexed.index_without (h : w.Indexed) {before after : List (Nat × Task α)} {x : Nat × Task α}
    (hdue : w.due = before ++ x :: after) (hk : x.2.key = some key) :
    (without w.index before)[key]? = some (w.cursor, x.1) := by
  have hsub : (before ++ x :: after).Sublist w.tasks :=
    hdue ▸ List.filter_sublist.trans (w.tasksAt_sublist w.cursor)
  have hkeys := h.keys.sublist (hsub.filterMap (·.2.key))
  have hcons : (x :: after).filterMap (·.2.key) = key :: after.filterMap (·.2.key) := List.filterMap_cons_some hk
  rw [List.filterMap_append, hcons] at hkeys
  have hother : key ∉ before.filterMap (·.2.key) := fun hmem =>
    List.disjoint_of_nodup_append hkeys hmem List.mem_cons_self
  unfold without
  rw [getElem?_foldl_erase, if_neg hother, h.index_iff]
  have hmem : x ∈ w.due := hdue ▸ List.mem_append_right _ List.mem_cons_self
  exact ⟨x.2, List.mem_of_mem_filter hmem, hk⟩

/-- Of the tasks of a slot those that do not have the key. -/
def others (key : Bytes) (tasks : List (Nat × Task α)) : List (Nat × Task α) :=
  tasks.filter (·.2.key ≠ some key)

theorem Deals.others_eq (h : w.Deals passed l) (key : Bytes) (s : Nat) :
    ((l.filter (!·.2.isUnder key)).filter (slotOf w.slots.size ·.2 = s)).map (dealt w.slots.size passed) =
      others key (w.tasksAt s) := by
  unfold others
  rw [h.tasks, List.filter_map, List.filter_filter, List.filter_filter]
  congr 1
  apply List.filter_congr
  intro x _
  by_cases hk : x.2.key = some key
  · simp [Booking.isUnder, dealt, hk]
  · simp [Booking.isUnder, dealt, hk]

theorem Deals.tasksAt_remove (h : w.Deals passed l) (key : Bytes) (s : Nat) :
    (w.remove key).1.tasksAt s = others key (w.tasksAt s) := by
  rw [(h.remove key).tasks, size_remove, h.others_eq]

theorem Deals.tasksAt_add (h : w.Deals passed l) (delay : Duration) (key : Bytes) (payload : α) (s : Nat) :
    (w.add delay (some key) payload).tasksAt s = others key (w.tasksAt s) ++
      if (w.position delay).1 = s then [(w.nextNumber, ⟨some key, (w.position delay).2, payload⟩)] else [] := by
  have hp := h.position_eq delay (some key) payload
  rw [(h.add delay (some key) payload).tasks, size_add, List.filter_append, List.map_append, cleared, h.others_eq, hp]
  congr 1
  dsimp only
  split
  · rename_i hs
    simp [hs, dealt]
  · rename_i hs
    simp [hs]

theorem Deals.remove_iff (h : w.Deals passed l) (key : Bytes) :
    (w.remove key).2 = true ↔ ∃ x ∈ w.tasks, x.2.key = some key := by
  rw [h.remove_snd, List.any_map, List.any_eq_true]
  constructor
  · intro ⟨x, hx, hk⟩
    exact ⟨_, h.tasks_perm.mem_iff.mpr (List.mem_map_of_mem hx), of_decide_eq_true hk⟩
  · intro ⟨x, hx, hk⟩
    obtain ⟨y, hy, rfl⟩ := List.mem_map.mp (h.tasks_perm.mem_iff.mp hx)
    exact ⟨y, hy, decide_eq_true hk⟩

/-- What goes by the index comes upon the task of the key. -/
structure GoesByIndex (w : Wheel α) : Prop where
  /-- A tick takes the keys of the tasks that it fires out of the index, one after another. Each time the entry is
  that of the task itself. -/
  fired : w.tick.2 = w.due.map Prod.snd ∧ w.tick.1.index = without w.index w.due ∧
    ∀ before x after key, w.due = before ++ x :: after → x.2.key = some key →
      (without w.index before)[key]? = some (w.cursor, x.1)
  removed : ∀ key, ((w.remove key).2 = true ↔ ∃ x ∈ w.tasks, x.2.key = some key) ∧
    ∀ s, (w.remove key).1.tasksAt s = others key (w.tasksAt s)
  replaced : ∀ key delay payload s, (w.add delay (some key) payload).tasksAt s = others key (w.tasksAt s) ++
    if (w.position delay).1 = s then [(w.nextNumber, ⟨some key, (w.position delay).2, payload⟩)] else []

theorem Deals.goesByIndex (h : w.Deals passed l) : w.GoesByIndex where
  fired := ⟨rfl, w.index_tick, fun _ _ _ _ => h.indexed.index_without⟩
  removed key := ⟨h.remove_iff key, h.tasksAt_remove key⟩
  replaced key delay payload := h.tasksAt_add delay key payload

/-! ## Any history -/

/-- Each booking, cancellation and tick leaves the index exact, and finds it so. -/
theorem index_exact (interval : Duration) {slotCount : Nat} (hslots : 1 ≤ slotCount) (steps : List (WheelStep α)) :
    let w := (perform Wheel.step (.empty interval slotCount) steps).1
    w.slots.size = slotCount ∧ w.Indexed ∧ w.GoesByIndex ∧ w.nextNumber ≤ steps.length := by
  intro w
  obtain ⟨-, hf⟩ := (follows_empty (α := α) interval hslots).perform steps
  obtain ⟨l, -, hd⟩ := hf.deals
  have hnumber := nextNumber_perform (.empty interval slotCount : Wheel α) steps
  exact ⟨hf.size, hd.indexed, hd.goesByIndex, hnumber.trans_eq (Nat.zero_add _)⟩

/-- On two slots: a task has taken the place of another one under its key, and it is the next to fire. -/
theorem index_exact_two_slots :
    let steps : List (WheelStep Nat) :=
      [.add (.ofMillis 40) (some [1]) 10, .add (.ofMillis 0) none 20, .tick,
        .add (.ofMillis 15) (some [1]) 30, .add (.ofMillis 5) (some [2]) 40, .remove [2], .tick, .tick]
    let w := (perform Wheel.step (.empty (.ofMillis 10) 2) steps).1
    1 ≤ 2 ∧ w.due = [(2, ⟨some [1], 0, 30⟩)] ∧ w.index[([1] : Bytes)]? = some (w.cursor, 2) ∧
      (w.remove [1]).2 = true ∧ (∀ s, (w.remove [2]).1.tasksAt s = w.tasksAt s) ∧ w.nextNumber ≤ 8 := by
  intro steps w
  have hslots : 1 ≤ 2 := by decide
  have hdue : w.due = [(2, ⟨some [1], 0, 30⟩)] := by cbv
  have htasks : w.tasks = [(2, ⟨some [1], 0, 30⟩)] := by cbv
  obtain ⟨-, -, hindex, hnumber⟩ := index_exact (.ofMillis 10) hslots steps
  refine ⟨hslots, hdue, hindex.fired.2.2 [] _ [] [1] hdue rfl, ?_, fun s => ?_, hnumber⟩
  · exact (hindex.removed [1]).1.mpr ⟨_, htasks ▸ List.mem_singleton_self _, rfl⟩
  · rw [(hindex.removed [2]).2 s]
    apply List.filter_eq_self.mpr
    intro x hx
    have hmem : x ∈ w.tasks := (w.tasksAt_sublist s).subset hx
    rw [htasks, List.mem_singleton] at hmem
    simp [hmem]

end KeyEngine.Wheel
