import KeyEngine.Proofs.Schedule
import KeyEngine.Proofs.Wheel
import Mathlib.Data.Nat.ModEq

/-!
# A schedule dealt out to slots

A wheel is a schedule dealt out to its slots: a booking waits in the slot that its tick has on the ring, and
its laps are those that the cursor has yet to complete before that tick. Each operation keeps this so, and
nothing that a wheel answers depends on the number of its slots.
-/

namespace KeyEngine

namespace Wheel

variable {α : Type}

def step (w : Wheel α) : WheelStep α → Wheel α × WheelAnswer α
  | .add delay key payload => (w.add delay key payload, .booked)
  | .remove key => ((w.remove key).1, .removed (w.remove key).2)
  | .tick => (w.tick.1, .fired (w.tick.2.map fun t => (t.key, t.payload)))

/-- The slot in which a booking waits on a ring of `n`. -/
def slotOf (n : Nat) (b : Booking α) : Nat :=
  (b.tick - 1) % n

/-- A numbered booking as it waits on a ring of `n` after so many ticks. -/
def dealt (n passed : Nat) (x : Nat × Booking α) : Nat × Task α :=
  (x.1, ⟨x.2.key, (x.2.tick - 1 - passed) / n, x.2.payload⟩)

/-- The wheel holds the numbered bookings after so many ticks, and nothing else. -/
structure Deals (w : Wheel α) (passed : Nat) (l : List (Nat × Booking α)) : Prop where
  size_pos : 0 < w.slots.size
  cursor : w.cursor = passed % w.slots.size
  tasks : ∀ s, w.tasksAt s = (l.filter (slotOf w.slots.size ·.2 = s)).map (dealt w.slots.size passed)
  index : ∀ key, w.index[key]? =
    (l.find? (·.2.isUnder key)).map fun x => (slotOf w.slots.size x.2, x.1)
  ahead : ∀ x ∈ l, passed < x.2.tick
  numbered : (l.map Prod.fst).Nodup
  fresh : ∀ x ∈ l, x.1 < w.nextNumber
  /-- No two bookings are under the same key. -/
  keyed : ∀ key, ∀ x ∈ l, ∀ y ∈ l, x.2.isUnder key → y.2.isUnder key → x = y

variable {w : Wheel α} {passed : Nat} {l : List (Nat × Booking α)}

theorem deals_empty (interval : Duration) {n : Nat} (hn : 0 < n) :
    (empty interval n : Wheel α).Deals 0 [] where
  size_pos := by simpa [empty] using hn
  cursor := by simp [empty]
  tasks := by
    intro s
    unfold tasksAt empty
    rw [Array.getElem?_replicate]
    split <;> rfl
  index := by simp [empty]
  ahead := nofun
  numbered := List.nodup_nil
  fresh := nofun
  keyed := nofun

theorem Deals.number_inj (h : w.Deals passed l) {x y : Nat × Booking α} (hx : x ∈ l) (hy : y ∈ l)
    (he : x.1 = y.1) : x = y :=
  List.inj_on_of_nodup_map h.numbered hx hy he

/-! ### Reading -/

theorem Deals.contains_eq (h : w.Deals passed l) (key : Bytes) :
    w.contains key = (l.map Prod.snd).any (·.isUnder key) := by
  unfold contains
  rw [Std.HashMap.contains_eq_isSome_getElem?, h.index, List.any_map, Option.isSome_map,
    List.isSome_find?]
  rfl

/-- All tasks that wait, slot by slot. -/
def tasks (w : Wheel α) : List (Nat × Task α) :=
  w.slots.toList.flatten

theorem toList_slots (w : Wheel α) : w.slots.toList = (List.range w.slots.size).map w.tasksAt := by
  apply List.ext_getElem
  · simp
  · intro s hs hs'
    rw [Array.length_toList] at hs
    simp [tasksAt, hs]

theorem perm_bins {β : Type} (f : β → Nat) (n : Nat) (l : List β) :
    ((List.range n).flatMap fun s => l.filter (f · = s)).Perm (l.filter (f · < n)) := by
  induction n with
  | zero => simp
  | succ n ih =>
    have hlow : (l.filter (f · < n + 1)).filter (f · < n) = l.filter (f · < n) := by
      rw [List.filter_filter]
      apply List.filter_congr
      grind
    have hhigh : (l.filter (f · < n + 1)).filter (fun x => !decide (f x < n)) = l.filter (f · = n) := by
      rw [List.filter_filter]
      apply List.filter_congr
      grind
    have hsplit := List.filter_append_perm (f · < n) (l.filter (f · < n + 1))
    rw [hlow, hhigh] at hsplit
    rw [List.range_succ, List.flatMap_append, List.flatMap_singleton]
    exact (ih.append_right _).trans hsplit

theorem Deals.tasks_perm (h : w.Deals passed l) : w.tasks.Perm (l.map (dealt w.slots.size passed)) := by
  have hbins := perm_bins (slotOf w.slots.size ·.2) w.slots.size l
  have hall : l.filter (slotOf w.slots.size ·.2 < w.slots.size) = l :=
    List.filter_eq_self.mpr fun x _ => decide_eq_true (Nat.mod_lt _ h.size_pos)
  rw [hall] at hbins
  unfold Wheel.tasks
  rw [toList_slots, funext h.tasks, ← List.flatMap_def, ← List.map_flatMap]
  exact hbins.map _

theorem Deals.pending_eq (h : w.Deals passed l) : w.pending = l.length := by
  show w.tasks.length = _
  rw [h.tasks_perm.length_eq, List.length_map]

theorem slotOf_lt (h : 0 < w.slots.size) (b : Booking α) : slotOf w.slots.size b < w.slots.size :=
  Nat.mod_lt _ h

theorem tasksAt_modify {w' : Wheel α} {i : Nat} (hi : i < w.slots.size)
    {f : List (Nat × Task α) → List (Nat × Task α)} (hs : w'.slots = w.slots.modify i f) (s : Nat) :
    w'.tasksAt s = if i = s then f (w.tasksAt s) else w.tasksAt s := by
  unfold tasksAt
  rw [hs, Array.getElem?_modify]
  split
  · subst s
    rw [Array.getElem?_eq_getElem hi]
    rfl
  · rfl

/-! ### Removing -/

theorem Deals.find?_eq_none (h : w.Deals passed l) {key : Bytes} (hi : w.index[key]? = none) :
    ∀ x ∈ l, x.2.isUnder key = false := by
  rw [h.index, Option.map_eq_none_iff, List.find?_eq_none] at hi
  intro x hx
  simpa using hi x hx

/-- What the index tells of a key is the slot and the number of its booking. -/
theorem Deals.find?_eq_some (h : w.Deals passed l) {key : Bytes} {slot number : Nat}
    (hi : w.index[key]? = some (slot, number)) :
    ∃ x ∈ l, x.2.isUnder key ∧ slotOf w.slots.size x.2 = slot ∧ x.1 = number := by
  rw [h.index] at hi
  obtain ⟨x, hx, he⟩ := Option.map_eq_some_iff.mp hi
  cases he
  exact ⟨x, List.mem_of_find?_eq_some hx, by simpa using List.find?_some hx, rfl, rfl⟩

theorem find?_drop (l : List (Nat × Booking α)) (key other : Bytes) :
    (l.filter (!·.2.isUnder key)).find? (·.2.isUnder other) =
      if key = other then none else l.find? (·.2.isUnder other) := by
  rw [List.find?_filter]
  split
  · subst other
    rw [List.find?_eq_none]
    intro x _
    simp
  · rename_i hne
    apply List.find?_congr
    intro x _
    cases ho : x.2.isUnder other with
    | false => simp
    | true =>
      have : x.2.isUnder key = false := by
        unfold Booking.isUnder at *
        simp only [decide_eq_true_eq, decide_eq_false_iff_not] at ho ⊢
        rw [ho, Option.some_inj]
        exact Ne.symm hne
      simp [this]

theorem Deals.filter (h : w.Deals passed l) (p : Nat × Booking α → Bool) {w' : Wheel α}
    {later : Nat} (hsize : w'.slots.size = w.slots.size) (hnumber : w'.nextNumber = w.nextNumber)
    (hcursor : w'.cursor = later % w.slots.size)
    (htasks : ∀ s, w'.tasksAt s =
      ((l.filter p).filter (slotOf w.slots.size ·.2 = s)).map (dealt w.slots.size later))
    (hindex : ∀ key, w'.index[key]? =
      ((l.filter p).find? (·.2.isUnder key)).map fun x => (slotOf w.slots.size x.2, x.1))
    (hahead : ∀ x ∈ l.filter p, later < x.2.tick) : w'.Deals later (l.filter p) where
  size_pos := by rw [hsize]; exact h.size_pos
  cursor := by rw [hsize]; exact hcursor
  tasks := by rw [hsize]; exact htasks
  index := by rw [hsize]; exact hindex
  ahead := hahead
  numbered := h.numbered.sublist (List.filter_sublist.map _)
  fresh x hx := by rw [hnumber]; exact h.fresh x (List.mem_of_mem_filter hx)
  keyed key x hx y hy := h.keyed key x (List.mem_of_mem_filter hx) y (List.mem_of_mem_filter hy)

theorem Deals.isUnder_iff (h : w.Deals passed l) {key : Bytes} {x y : Nat × Booking α} (hx : x ∈ l)
    (hk : x.2.isUnder key) (hy : y ∈ l) : y.2.isUnder key ↔ y.1 = x.1 := by
  constructor
  · intro hyk
    rw [h.keyed key y hy x hx hyk hk]
  · intro he
    rw [h.number_inj hy hx he]
    exact hk

theorem Deals.remove (h : w.Deals passed l) (key : Bytes) :
    (w.remove key).1.Deals passed (l.filter (!·.2.isUnder key)) := by
  unfold Wheel.remove
  cases hi : w.index[key]? with
  | none =>
    have hnone := h.find?_eq_none hi
    rwa [List.filter_eq_self.mpr fun x hx => by simp [hnone x hx]]
  | some place =>
    obtain ⟨slot, number⟩ := place
    obtain ⟨x, hx, hk, rfl, rfl⟩ := h.find?_eq_some hi
    apply h.filter
    · simp
    · rfl
    · exact h.cursor
    · intro s
      have hkey : ∀ y ∈ l, (!y.2.isUnder key) = decide (y.1 ≠ x.1) := by
        intro y hy
        simp [← h.isUnder_iff hx hk hy]
      rw [tasksAt_modify (slotOf_lt h.size_pos x.2) rfl, h.tasks, List.filter_congr hkey,
        List.filter_filter]
      split
      · rw [List.filter_map, List.filter_filter]
        congr 1
        apply List.filter_congr
        intro y _
        exact Bool.and_comm _ _
      · rename_i hne
        congr 1
        apply List.filter_congr
        intro y hy
        by_cases he : y.1 = x.1
        · rw [h.number_inj hy hx he]
          simp [hne]
        · simp [he]
    · intro other
      show (w.index.erase key)[other]? = _
      rw [Std.HashMap.getElem?_erase, find?_drop, h.index]
      by_cases he : key = other
      · simp [he]
      · simp [he]
    · intro y hy
      exact h.ahead y (List.mem_of_mem_filter hy)

theorem Deals.remove_snd (h : w.Deals passed l) (key : Bytes) :
    (w.remove key).2 = (l.map Prod.snd).any (·.isUnder key) := by
  rw [← h.contains_eq]
  unfold Wheel.remove contains
  rw [Std.HashMap.contains_eq_isSome_getElem?]
  cases hi : w.index[key]? with
  | none => rfl
  | some place =>
    obtain ⟨slot, number⟩ := place
    obtain ⟨x, hx, -, hs, rfl⟩ := h.find?_eq_some hi
    show (w.tasksAt slot).any _ = true
    rw [h.tasks, List.any_map, List.any_eq_true]
    refine ⟨x, List.mem_filter.mpr ⟨hx, by simpa using hs⟩, ?_⟩
    exact decide_eq_true rfl

/-! ### Booking -/

def enter (w : Wheel α) (slot : Nat) (t : Task α) : Wheel α :=
  { w with
    index := match t.key with
      | some k => w.index.insert k (slot, w.nextNumber)
      | none => w.index
    slots := w.slots.modify slot (· ++ [(w.nextNumber, t)])
    nextNumber := w.nextNumber + 1 }

theorem slots_enter (w : Wheel α) (slot : Nat) (t : Task α) :
    (w.enter slot t).slots = w.slots.modify slot (· ++ [(w.nextNumber, t)]) :=
  rfl

@[simp] theorem size_enter (w : Wheel α) (slot : Nat) (t : Task α) :
    (w.enter slot t).slots.size = w.slots.size := by
  rw [slots_enter, Array.size_modify]

theorem getElem?_index_enter (w : Wheel α) (slot : Nat) (t : Task α) (key : Bytes) :
    (w.enter slot t).index[key]? =
      if t.key = some key then some (slot, w.nextNumber) else w.index[key]? := by
  unfold enter
  cases hk : t.key with
  | none => simp
  | some k => simp [Std.HashMap.getElem?_insert]

theorem Deals.enter (h : w.Deals passed l) {b : Booking α} (hb : passed < b.tick)
    (hnew : ∀ key, b.isUnder key → ∀ x ∈ l, x.2.isUnder key = false) :
    (w.enter (slotOf w.slots.size b) (dealt w.slots.size passed (w.nextNumber, b)).2).Deals passed
      (l ++ [(w.nextNumber, b)]) where
  size_pos := by simpa using h.size_pos
  cursor := by
    rw [size_enter]
    exact h.cursor
  tasks := by
    intro s
    rw [size_enter, tasksAt_modify (slotOf_lt h.size_pos b) (slots_enter _ _ _), h.tasks,
      List.filter_append, List.map_append]
    split
    · rename_i hs
      simp [hs, dealt]
    · rename_i hs
      simp [hs]
  index := by
    intro key
    rw [size_enter, getElem?_index_enter, h.index, List.find?_append]
    show (if b.key = some key then _ else _) = _
    by_cases hk : b.key = some key
    · have hu : b.isUnder key = true := by simpa [Booking.isUnder] using hk
      have hnone : l.find? (·.2.isUnder key) = none := by
        rw [List.find?_eq_none]
        intro x hx
        simp [hnew key hu x hx]
      rw [if_pos hk, hnone]
      simp [hu]
    · have hu : b.isUnder key = false := by simpa [Booking.isUnder] using hk
      rw [if_neg hk]
      simp [hu]
  ahead := by
    intro x hx
    rcases List.mem_append.mp hx with hx | hx
    · exact h.ahead x hx
    · cases List.mem_singleton.mp hx
      exact hb
  numbered := by
    rw [List.map_append]
    apply List.nodup_append.mpr
    refine ⟨h.numbered, List.nodup_singleton _, ?_⟩
    intro n hn m hm
    obtain ⟨x, hx, rfl⟩ := List.mem_map.mp hn
    cases List.mem_singleton.mp hm
    exact Nat.ne_of_lt (h.fresh x hx)
  fresh := by
    intro x hx
    show x.1 < w.nextNumber + 1
    rcases List.mem_append.mp hx with hx | hx
    · exact Nat.lt_succ_of_lt (h.fresh x hx)
    · cases List.mem_singleton.mp hx
      exact Nat.lt_succ_self _
  keyed := by
    intro key x hx y hy hxk hyk
    rcases List.mem_append.mp hx with hx | hx
    · rcases List.mem_append.mp hy with hy | hy
      · exact h.keyed key x hx y hy hxk hyk
      · cases List.mem_singleton.mp hy
        simp [hnew key hyk x hx] at hxk
    · cases List.mem_singleton.mp hx
      rcases List.mem_append.mp hy with hy | hy
      · simp [hnew key hxk y hy] at hyk
      · exact (List.mem_singleton.mp hy).symm

theorem Deals.position_eq (h : w.Deals passed l) (delay : Duration) (key : Option Bytes)
    (payload : α) :
    w.position delay =
      let b : Booking α := ⟨passed + w.ticks delay + 1, key, payload⟩
      (slotOf w.slots.size b, (dealt w.slots.size passed (w.nextNumber, b)).2.laps) := by
  unfold position slotOf dealt
  dsimp only
  rw [h.cursor, Nat.add_sub_cancel, Nat.add_sub_cancel_left, ← Nat.add_mod]

/-- The bookings without the one under the key, if there is a key. -/
def cleared (key : Option Bytes) (l : List (Nat × Booking α)) : List (Nat × Booking α) :=
  match key with
  | some k => l.filter (!·.2.isUnder k)
  | none => l

theorem Deals.add (h : w.Deals passed l) (delay : Duration) (key : Option Bytes) (payload : α) :
    (w.add delay key payload).Deals passed
      (cleared key l ++ [(w.nextNumber, ⟨passed + w.ticks delay + 1, key, payload⟩)]) := by
  have hlt : passed < passed + w.ticks delay + 1 := by omega
  cases key with
  | none =>
    have hp := h.position_eq delay none payload
    unfold Wheel.add
    dsimp only
    rw [hp]
    exact h.enter hlt (by simp [Booking.isUnder])
  | some k =>
    have hr := h.remove k
    have hp := hr.position_eq delay (some k) payload
    have hticks : (w.remove k).1.ticks delay = w.ticks delay := by
      unfold ticks
      rw [interval_remove]
    rw [hticks] at hp
    unfold Wheel.add
    dsimp only
    rw [hp, ← nextNumber_remove w k]
    apply hr.enter hlt
    intro key hk x hx
    have : k = key := by simpa [Booking.isUnder] using hk
    subst this
    simpa using List.of_mem_filter hx

theorem interval_add (w : Wheel α) (delay : Duration) (key : Option Bytes) (payload : α) :
    (w.add delay key payload).interval = w.interval := by
  cases key with
  | none => rfl
  | some k => exact interval_remove w k

theorem size_add (w : Wheel α) (delay : Duration) (key : Option Bytes) (payload : α) :
    (w.add delay key payload).slots.size = w.slots.size := by
  cases key with
  | none => exact Array.size_modify
  | some k => exact Array.size_modify.trans (size_remove w k)

theorem nextNumber_add (w : Wheel α) (delay : Duration) (key : Option Bytes) (payload : α) :
    (w.add delay key payload).nextNumber = w.nextNumber + 1 := by
  cases key with
  | none => rfl
  | some k => exact congrArg (· + 1) (nextNumber_remove w k)

/-! ### Ticks -/

/-- The cursor comes to a booking in as many ticks as are left until it, give or take whole laps. -/
theorem Deals.slotOf_eq_cursor_iff (h : w.Deals passed l) {x : Nat × Booking α} (hx : x ∈ l) :
    slotOf w.slots.size x.2 = w.cursor ↔ w.slots.size ∣ x.2.tick - 1 - passed := by
  have hlt := h.ahead x hx
  rw [h.cursor, ← Nat.modEq_iff_dvd' (by omega)]
  exact eq_comm

theorem Deals.isDue_iff (h : w.Deals passed l) {x : Nat × Booking α} (hx : x ∈ l) :
    x.2.tick = passed + 1 ↔
      slotOf w.slots.size x.2 = w.cursor ∧ (dealt w.slots.size passed x).2.laps = 0 := by
  have hlt := h.ahead x hx
  rw [h.slotOf_eq_cursor_iff hx]
  show _ ↔ _ ∧ (x.2.tick - 1 - passed) / w.slots.size = 0
  constructor
  · intro ht
    have hzero : x.2.tick - 1 - passed = 0 := by omega
    rw [hzero]
    exact ⟨Nat.dvd_zero _, Nat.zero_div _⟩
  · rintro ⟨hd, hl⟩
    -- A distance of whole laps, none of them left.
    have := Nat.eq_zero_of_dvd_of_div_eq_zero hd hl
    omega

/-- The cursor takes one lap off what it passes by, and leaves the other slots alone. -/
theorem Deals.dealt_succ (h : w.Deals passed l) {x : Nat × Booking α} (hx : x ∈ l)
    (ht : x.2.tick ≠ passed + 1) :
    dealt w.slots.size (passed + 1) x =
      if slotOf w.slots.size x.2 = w.cursor then
        (x.1, { (dealt w.slots.size passed x).2 with
          laps := (dealt w.slots.size passed x).2.laps - 1 })
      else dealt w.slots.size passed x := by
  have hlt := h.ahead x hx
  -- The distance goes from `m + 1` to `m`: the quotient falls just where the ring divides `m + 1`.
  obtain ⟨m, hm⟩ : ∃ m, x.2.tick = passed + 2 + m := ⟨x.2.tick - (passed + 2), by omega⟩
  have hnow : x.2.tick - 1 - passed = m + 1 := by omega
  have hnext : x.2.tick - 1 - (passed + 1) = m := by omega
  simp only [h.slotOf_eq_cursor_iff hx, dealt]
  rw [hnow, hnext, Nat.succ_div]
  split <;> simp

theorem tasksAt_tick_fst (w : Wheel α) (s : Nat) :
    w.tick.1.tasksAt s =
      if w.cursor = s then
        ((w.tasksAt s).filter (·.2.laps ≠ 0)).map fun x => (x.1, { x.2 with laps := x.2.laps - 1 })
      else w.tasksAt s := by
  unfold tick tasksAt
  dsimp only
  rw [Array.getElem?_setIfInBounds]
  split
  · subst s
    split
    · rfl
    · rename_i hs
      rw [Array.getElem?_eq_none (Nat.le_of_not_lt hs)]
      rfl
  · rfl

theorem Deals.tick_snd (h : w.Deals passed l) :
    w.tick.2.map (fun t => (t.key, t.payload)) =
      (l.filter (·.2.tick = passed + 1)).map (·.2.task) := by
  show (((w.tasksAt w.cursor).filter (·.2.laps = 0)).map (·.2)).map _ = _
  rw [h.tasks, List.filter_map, List.filter_filter, List.map_map, List.map_map]
  have hdue : ∀ x ∈ l, decide (x.2.tick = passed + 1) =
      (decide ((dealt w.slots.size passed x).2.laps = 0) &&
        decide (slotOf w.slots.size x.2 = w.cursor)) := by
    intro x hx
    rw [← Bool.decide_and, decide_eq_decide, h.isDue_iff hx]
    exact and_comm
  rw [List.filter_congr hdue]
  rfl

theorem Deals.mem_keys_fired (h : w.Deals passed l) (key : Bytes) :
    key ∈ w.tick.2.filterMap (·.key) ↔ ∃ x ∈ l, x.2.tick = passed + 1 ∧ x.2.isUnder key := by
  have hkeys : w.tick.2.filterMap (·.key) = (w.tick.2.map fun t => (t.key, t.payload)).filterMap (·.1) := by
    rw [List.filterMap_map]
    rfl
  rw [hkeys, h.tick_snd, List.filterMap_map]
  simp only [List.mem_filterMap, List.mem_filter, decide_eq_true_eq, and_assoc, Booking.isUnder]
  rfl

theorem Deals.index_tick (h : w.Deals passed l) (key : Bytes) :
    w.tick.1.index[key]? =
      ((l.filter (·.2.tick ≠ passed + 1)).find? (·.2.isUnder key)).map
        fun x => (slotOf w.slots.size x.2, x.1) := by
  show ((w.tick.2.filterMap (·.key)).foldl (·.erase ·) w.index)[key]? = _
  rw [getElem?_foldl_erase, h.index, List.find?_filter]
  split
  · rename_i hf
    obtain ⟨x, hx, ht, hk⟩ := (h.mem_keys_fired key).mp hf
    symm
    rw [Option.map_eq_none_iff, List.find?_eq_none]
    intro y hy
    -- Another booking under the key would have to be the one that fires.
    by_cases hyk : y.2.isUnder key
    · rw [h.keyed key y hy x hx hyk hk]
      simp [ht]
    · simp [hyk]
  · rename_i hnot
    congr 1
    apply List.find?_congr
    intro y hy
    by_cases hyk : y.2.isUnder key
    · have : y.2.tick ≠ passed + 1 := fun ht => hnot ((h.mem_keys_fired key).mpr ⟨y, hy, ht, hyk⟩)
      simp [this]
    · simp [hyk]

theorem map_filter_congr {β γ : Type} {l : List β} {p q : β → Bool} {f g : β → γ}
    (h : ∀ x ∈ l, p x = q x ∧ (q x → f x = g x)) : (l.filter p).map f = (l.filter q).map g := by
  rw [List.filter_congr fun x hx => (h x hx).1]
  apply List.map_congr_left
  intro x hx
  exact (h x (List.mem_of_mem_filter hx)).2 (List.of_mem_filter hx)

theorem Deals.tasks_tick (h : w.Deals passed l) (s : Nat) :
    w.tick.1.tasksAt s =
      ((l.filter (·.2.tick ≠ passed + 1)).filter (slotOf w.slots.size ·.2 = s)).map
        (dealt w.slots.size (passed + 1)) := by
  rw [tasksAt_tick_fst, h.tasks, List.filter_filter]
  split
  · rename_i hs
    rw [List.filter_map, List.filter_filter, List.map_map]
    apply map_filter_congr
    intro x hx
    have hdue := h.isDue_iff hx
    rw [hs] at hdue
    refine ⟨by simp only [Function.comp]; grind, ?_⟩
    simp only [Bool.and_eq_true, decide_eq_true_eq, and_imp]
    intro hslot ht
    rw [h.dealt_succ hx ht, if_pos (hslot.trans hs.symm)]
    rfl
  · rename_i hne
    apply map_filter_congr
    intro x hx
    have hdue := h.isDue_iff hx
    refine ⟨by grind, ?_⟩
    simp only [Bool.and_eq_true, decide_eq_true_eq, and_imp]
    intro hslot ht
    rw [h.dealt_succ hx ht, if_neg (fun he => hne (he.symm.trans hslot))]

theorem Deals.tick (h : w.Deals passed l) :
    w.tick.1.Deals (passed + 1) (l.filter (·.2.tick ≠ passed + 1)) := by
  apply h.filter
  · exact Array.size_setIfInBounds
  · rfl
  · show (w.cursor + 1) % w.slots.size = _
    rw [h.cursor, Nat.mod_add_mod]
  · exact h.tasks_tick
  · exact h.index_tick
  · intro x hx
    have hlt := h.ahead x (List.mem_of_mem_filter hx)
    have hne : x.2.tick ≠ passed + 1 := by simpa using List.of_mem_filter hx
    omega

end Wheel

/-! ## Refinement -/

section

variable {α : Type} {interval : Duration} {n : Nat} {w : Wheel α} {s : Schedule α}

structure Follows (interval : Duration) (n : Nat) (w : Wheel α) (s : Schedule α) : Prop where
  interval : w.interval = interval
  size : w.slots.size = n
  deals : ∃ l, l.map Prod.snd = s.bookings ∧ w.Deals s.passed l

theorem follows_empty (interval : Duration) {n : Nat} (hn : 0 < n) :
    Follows interval n (.empty interval n : Wheel α) .empty where
  interval := rfl
  size := Array.size_replicate
  deals := ⟨[], rfl, Wheel.deals_empty interval hn⟩

theorem Wheel.ticks_eq_wait (w : Wheel α) (delay : Duration) :
    w.ticks delay = Schedule.wait w.interval delay := by
  unfold Wheel.ticks Schedule.wait
  rw [Nat.ceilDiv_eq_add_pred_div]

theorem map_snd_cleared (key : Bytes) (l : List (Nat × Booking α)) :
    (l.filter (!·.2.isUnder key)).map Prod.snd = (l.map Prod.snd).filter (!·.isUnder key) := by
  rw [List.filter_map]
  rfl

theorem Follows.contains_eq (h : Follows interval n w s) (key : Bytes) :
    w.contains key = s.contains key := by
  obtain ⟨l, hl, hd⟩ := h.deals
  rw [hd.contains_eq, hl]
  rfl

theorem Follows.pending_eq (h : Follows interval n w s) : w.pending = s.pending := by
  obtain ⟨l, hl, hd⟩ := h.deals
  unfold Schedule.pending
  rw [hd.pending_eq, ← hl, List.length_map]

theorem Follows.fired_eq (h : Follows interval n w s) :
    w.tick.2.map (fun t => (t.key, t.payload)) = s.tick.2.map Booking.task := by
  obtain ⟨l, hl, hd⟩ := h.deals
  rw [hd.tick_snd]
  show _ = (s.bookings.filter (·.tick = s.passed + 1)).map Booking.task
  rw [← hl, List.filter_map, List.map_map]
  rfl

theorem Follows.remove (h : Follows interval n w s) (key : Bytes) :
    Follows interval n (w.remove key).1 (s.remove key).1 := by
  obtain ⟨l, hl, hd⟩ := h.deals
  refine ⟨by simpa using h.interval, by simpa using h.size, _, ?_, hd.remove key⟩
  rw [map_snd_cleared, hl]
  rfl

theorem Follows.add (h : Follows interval n w s) (delay : Duration) (key : Option Bytes)
    (payload : α) : Follows interval n (w.add delay key payload) (s.add interval delay key payload) := by
  obtain ⟨l, hl, hd⟩ := h.deals
  have ha := hd.add delay key payload
  rw [w.ticks_eq_wait, h.interval] at ha
  refine ⟨(w.interval_add delay key payload).trans h.interval,
    (w.size_add delay key payload).trans h.size,
    Wheel.cleared key l ++ [(w.nextNumber, ⟨s.passed + Schedule.wait interval delay + 1, key, payload⟩)],
    ?_, ?_⟩
  · rw [List.map_append]
    cases key with
    | none =>
      show l.map Prod.snd ++ _ = s.bookings ++ _
      rw [hl]
      rfl
    | some k =>
      show (l.filter (!·.2.isUnder k)).map Prod.snd ++ _ = s.bookings.filter (!·.isUnder k) ++ _
      rw [map_snd_cleared, hl]
      rfl
  · cases key with
    | none => exact ha
    | some k => exact ha

theorem Follows.tick (h : Follows interval n w s) : Follows interval n w.tick.1 s.tick.1 := by
  obtain ⟨l, hl, hd⟩ := h.deals
  refine ⟨h.interval, Array.size_setIfInBounds.trans h.size, _, ?_, hd.tick⟩
  show _ = s.bookings.filter (·.tick ≠ s.passed + 1)
  rw [← hl, List.filter_map]
  rfl

theorem Follows.step (h : Follows interval n w s) (x : WheelStep α) :
    (w.step x).2 = (s.step interval x).2 ∧ Follows interval n (w.step x).1 (s.step interval x).1 := by
  cases x with
  | add delay key payload => exact ⟨rfl, h.add delay key payload⟩
  | remove key =>
    refine ⟨?_, h.remove key⟩
    obtain ⟨l, hl, hd⟩ := h.deals
    show WheelAnswer.removed _ = WheelAnswer.removed (s.bookings.any (·.isUnder key))
    rw [hd.remove_snd, hl]
  | tick => exact ⟨congrArg WheelAnswer.fired h.fired_eq, h.tick⟩

theorem Follows.perform (h : Follows interval n w s) (steps : List (WheelStep α)) :
    (perform Wheel.step w steps).2 = (perform (Schedule.step interval) s steps).2 ∧
      Follows interval n (perform Wheel.step w steps).1
        (perform (Schedule.step interval) s steps).1 := by
  induction steps generalizing w s with
  | nil => exact ⟨rfl, h⟩
  | cons x steps ih =>
    obtain ⟨ha, hf⟩ := h.step x
    obtain ⟨has, hfs⟩ := ih hf
    exact ⟨congrArg₂ List.cons ha has, hfs⟩

theorem Wheel.nextNumber_perform (w : Wheel α) (steps : List (WheelStep α)) :
    (perform Wheel.step w steps).1.nextNumber ≤ w.nextNumber + steps.length := by
  induction steps generalizing w with
  | nil => exact Nat.le_refl _
  | cons x steps ih =>
    have hx : (w.step x).1.nextNumber ≤ w.nextNumber + 1 := by
      cases x with
      | add delay key payload => exact (w.nextNumber_add delay key payload).le
      | remove key => exact (w.nextNumber_remove key).le.trans (Nat.le_succ _)
      | tick => exact Nat.le_succ _
    have := ih (w.step x).1
    show (perform Wheel.step (w.step x).1 steps).1.nextNumber ≤ _
    rw [List.length_cons]
    omega

theorem Wheel.fired_perform (interval : Duration) (hn : 0 < n) (steps : List (WheelStep α)) :
    (perform Wheel.step (.empty interval n) steps).1.tick.2.map (fun t => (t.key, t.payload)) =
      WheelStep.bookedFor interval (WheelStep.ticksIn steps + 1) 0 steps := by
  obtain ⟨-, hf⟩ := (follows_empty (α := α) interval hn).perform steps
  rw [hf.fired_eq]
  unfold Schedule.tick
  dsimp only
  rw [Schedule.passed_history, Schedule.bookings_history]
  exact Nat.lt_succ_self _

/-- A wheel holds a key if some tick to come is booked for it. -/
theorem Wheel.contains_perform (interval : Duration) (hn : 0 < n) (steps : List (WheelStep α)) (key : Bytes) :
    (perform Wheel.step (.empty interval n) steps).1.contains key = true ↔
      ∃ tick, WheelStep.ticksIn steps < tick ∧
        some key ∈ (WheelStep.bookedFor interval tick 0 steps).map Prod.fst := by
  obtain ⟨-, hf⟩ := (follows_empty (α := α) interval hn).perform steps
  rw [hf.contains_eq, Schedule.contains, List.any_eq_true]
  constructor
  · intro ⟨b, hb, hk⟩
    obtain ⟨l, hl, hd⟩ := hf.deals
    obtain ⟨x, hx, hxb⟩ := List.mem_map.mp (hl ▸ hb)
    have hlt := hd.ahead x hx
    rw [Schedule.passed_history, hxb] at hlt
    refine ⟨b.tick, hlt, ?_⟩
    rw [← Schedule.bookings_history interval steps hlt, List.map_map, List.mem_map]
    exact ⟨b, List.mem_filter.mpr ⟨hb, decide_eq_true rfl⟩, of_decide_eq_true hk⟩
  · intro ⟨tick, ht, hk⟩
    rw [← Schedule.bookings_history interval steps ht, List.map_map, List.mem_map] at hk
    obtain ⟨b, hb, hkey⟩ := hk
    exact ⟨b, List.mem_of_mem_filter hb, decide_eq_true hkey⟩

end

/-- A wheel answers every history of steps as a schedule does, in which the number of slots plays no part.
After the history it holds what the schedule holds, and the next tick fires the tasks that were added for
it and taken off by nothing since, in their order. No number that the wheel keeps or adds up on the way is
too large for a word. -/
theorem wheel_follows_schedule {α : Type} (interval : Duration) (slotCount : Nat)
    (steps : List (WheelStep α)) (hslots : 1 ≤ slotCount ∧ slotCount ≤ 2 ^ 63)
    (hsteps : steps.length < 2 ^ 64) :
    ∃ w s answers, perform Wheel.step (.empty interval slotCount) steps = (w, answers) ∧
      perform (Schedule.step interval) .empty steps = (s, answers) ∧
      (∀ key, w.contains key = s.contains key) ∧ w.pending = s.pending ∧
      w.tick.2.map (fun t => (t.key, t.payload)) =
        WheelStep.bookedFor interval (WheelStep.ticksIn steps + 1) 0 steps ∧
      w.nextNumber < 2 ^ 64 ∧ ∀ delay, w.cursor + w.ticks delay % slotCount < 2 ^ 64 := by
  obtain ⟨ha, hf⟩ := (follows_empty (α := α) interval hslots.1).perform steps
  refine ⟨_, _, _, rfl, Prod.ext rfl ha.symm, hf.contains_eq, hf.pending_eq,
    Wheel.fired_perform interval hslots.1 steps, ?_, ?_⟩
  · exact Nat.lt_of_le_of_lt (Wheel.nextNumber_perform _ steps) (by simpa [Wheel.empty] using hsteps)
  · intro delay
    obtain ⟨l, -, hd⟩ := hf.deals
    have hmod := Nat.mod_lt ((perform Wheel.step (.empty interval slotCount) steps).1.ticks delay) hslots.1
    have hcursor := Nat.mod_lt (perform (Schedule.step interval) .empty steps).1.passed hd.size_pos
    rw [← hd.cursor, hf.size] at hcursor
    omega

/-- On two slots: a booking two laps ahead gives way to a nearer one under its key, one without delay fires
at the next tick, and one is cancelled before its tick. -/
theorem wheel_follows_schedule_two_slots :
    let steps : List (WheelStep Nat) :=
      [.add (.ofMillis 40) (some [1]) 10, .add (.ofMillis 0) none 20, .tick,
        .add (.ofMillis 15) (some [1]) 30, .add (.ofMillis 5) (some [2]) 40, .remove [2], .tick, .tick]
    (1 ≤ 2 ∧ 2 ≤ 2 ^ 63) ∧ steps.length < 2 ^ 64 ∧
      (perform Wheel.step (.empty (.ofMillis 10) 2) steps).2 =
        [.booked, .booked, .fired [(none, 20)], .booked, .booked, .removed true, .fired [], .fired []] ∧
      (perform Wheel.step (.empty (.ofMillis 10) 2) steps).1.tick.2.map (fun t => (t.key, t.payload)) =
        [(some [1], 30)] := by
  intro steps
  have hslots : 1 ≤ 2 ∧ 2 ≤ 2 ^ 63 := by decide
  have hsteps : steps.length < 2 ^ 64 := by decide
  obtain ⟨w, s, answers, hw, hs, -, -, hfired, -⟩ :=
    wheel_follows_schedule (.ofMillis 10) 2 steps hslots hsteps
  refine ⟨hslots, hsteps, ?_, ?_⟩
  · have hanswers := congrArg Prod.snd hs
    rw [hw]
    exact hanswers.symm.trans (by decide)
  · rw [hw]
    exact hfired.trans (by decide)

end KeyEngine
