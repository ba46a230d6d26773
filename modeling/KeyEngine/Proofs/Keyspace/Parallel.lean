import KeyEngine.Proofs.Dealing
import KeyEngine.Proofs.Keyspace.Reachable
import KeyEngine.Proofs.SortedSet.Twins

/-!
# Parallel keyspaces

Keyspaces of any sizes run in parallel if they hold the same strings, sets on the same boards, the same
deadlines, and timers that follow one schedule. No set that is stored is without members. What a command does
to one key, a tick and a start keep keyspaces parallel.
-/

namespace KeyEngine

/-! ## Timers -/

/-- Timers on wheels of `n` and of `n'` slots: they wait with the same queue, or their wheels follow one
schedule, or both are stopped. -/
inductive TimerPhase.Parallel (interval : Duration) (n n' : Nat) :
    TimerPhase Bytes → TimerPhase Bytes → Prop
  | waiting (queue : List (TimerCommand Bytes)) : Parallel interval n n' (.waiting queue) (.waiting queue)
  | running {w w' : Wheel Bytes} {s : Schedule Bytes} (h : Follows interval n w s)
      (h' : Follows interval n' w' s) : Parallel interval n n' (.running w) (.running w')
  | stopped : Parallel interval n n' .stopped .stopped

theorem TimerPhase.Parallel.obey {interval : Duration} {n n' : Nat} {p p' : TimerPhase Bytes}
    (h : p.Parallel interval n n' p') (c : TimerCommand Bytes) :
    (Timer.obey p c).Parallel interval n n' (Timer.obey p' c) := by
  cases h with
  | waiting queue => exact .waiting _
  | running h h' =>
    cases c with
    | add delay key payload => exact .running (h.add delay key payload) (h'.add delay key payload)
    | cancel key => exact .running (h.remove key) (h'.remove key)
    | stop => exact .stopped
  | stopped => exact .stopped

namespace Timer

structure Parallel (t t' : Timer Bytes) : Prop where
  interval : t.interval = t'.interval
  slots : 0 < t.slotCount
  slots' : 0 < t'.slotCount
  phase : t.phase.Parallel t.interval t.slotCount t'.slotCount t'.phase

variable {t t' : Timer Bytes}

theorem parallel_new (interval : Duration) (n n' : Nat) : (new interval n).Parallel (new interval n') where
  interval := rfl
  slots := by simp [new]
  slots' := by simp [new]
  phase := .waiting []

theorem Parallel.send (h : t.Parallel t') (c : TimerCommand Bytes) : (t.send c).Parallel (t'.send c) where
  interval := h.interval
  slots := h.slots
  slots' := h.slots'
  phase := h.phase.obey c

theorem Parallel.cancel_if (h : t.Parallel t') (key : Bytes) (cancel : Bool) :
    (if cancel then t.cancel key else t).Parallel (if cancel then t'.cancel key else t') := by
  cases cancel with
  | false => exact h
  | true => exact h.send _

theorem Parallel.start (h : t.Parallel t') (hasRuntime : Bool) :
    (∃ e, t.start hasRuntime = .error e ∧ t'.start hasRuntime = .error e) ∨
      ∃ u u', t.start hasRuntime = .ok u ∧ t'.start hasRuntime = .ok u' ∧ u.Parallel u' := by
  unfold Timer.start
  cases hasRuntime with
  | false => exact .inl ⟨_, rfl, rfl⟩
  | true =>
    obtain ⟨interval, n, p⟩ := t
    obtain ⟨interval', n', p'⟩ := t'
    obtain ⟨rfl, hn, hn', hphase⟩ := h
    dsimp only at hn hn' hphase
    cases hphase with
    | waiting queue =>
      have hfold : ∀ {p p' : TimerPhase Bytes}, p.Parallel interval n n' p' →
          (queue.foldl obey p).Parallel interval n n' (queue.foldl obey p') := by
        induction queue with
        | nil => exact fun h => h
        | cons c queue ih => exact fun h => ih (h.obey c)
      exact .inr ⟨_, _, rfl, rfl, rfl, hn, hn', hfold (.running (follows_empty _ hn) (follows_empty _ hn'))⟩
    | running h h' => exact .inl ⟨_, rfl, rfl⟩
    | stopped => exact .inl ⟨_, rfl, rfl⟩

theorem Parallel.tick (h : t.Parallel t') : t.tick.2 = t'.tick.2 ∧ t.tick.1.Parallel t'.tick.1 := by
  obtain ⟨interval, n, p⟩ := t
  obtain ⟨interval', n', p'⟩ := t'
  obtain ⟨rfl, hn, hn', hphase⟩ := h
  dsimp only at hn hn' hphase
  cases hphase with
  | waiting queue => exact ⟨rfl, rfl, hn, hn', .waiting queue⟩
  | @running w w' s h h' =>
    refine ⟨?_, rfl, hn, hn', .running h.tick h'.tick⟩
    have hfired := h.fired_eq.trans h'.fired_eq.symm
    have := congrArg (List.map Prod.snd) hfired
    rwa [List.map_map, List.map_map] at this
  | stopped => exact ⟨rfl, rfl, hn, hn', .stopped⟩

/-- No place on a wheel is worked out with a number too large for a word. -/
theorem Parallel.position_lt (h : t.Parallel t') (hslots : t.slotCount ≤ 2 ^ 63) {w : Wheel Bytes}
    (hw : t.phase = .running w) (delay : Duration) : w.cursor + w.ticks delay % w.slots.size < 2 ^ 64 := by
  have hphase := h.phase
  rw [hw] at hphase
  generalize t'.phase = p' at hphase
  cases hphase with
  | running h h' =>
    obtain ⟨l, -, hd⟩ := h.deals
    have hmod := Nat.mod_lt (w.ticks delay) hd.size_pos
    have hcursor : w.cursor < w.slots.size := hd.cursor ▸ Nat.mod_lt _ hd.size_pos
    have hsize := h.size
    omega

end Timer

/-! ## Keyspaces -/

/-- The same string, or sets on one board that has rows. -/
inductive Value.Twins : Value → Value → Prop
  | text (bytes : Bytes) : Twins (.text bytes) (.text bytes)
  | sortedSet {s s' : SortedSet} {b : Board} (h : s.Tracks b) (h' : s'.Tracks b) (hb : b.rows ≠ []) :
      Twins (.sortedSet s) (.sortedSet s')

namespace Keyspace

structure Parallel (ks ks' : Keyspace) : Prop where
  left : ks.Sane
  right : ks'.Sane
  data : ∀ key, Option.Rel Value.Twins (ks.data.find? key) (ks'.data.find? key)
  deadlines : ∀ key, ks.deadlines.find? key = ks'.deadlines.find? key
  timer : ks.timer.Parallel ks'.timer

variable {ks ks' : Keyspace} {now : Nat}

theorem parallel_new {config config' : Config} (h : config.interval = config'.interval)
    (supply supply' : Nat → Towers) : (new config supply).Parallel (new config' supply') where
  left := sane_new config supply
  right := sane_new config' supply'
  data key := by
    unfold new
    rw [Store.find?_empty, Store.find?_empty]
    exact .none
  deadlines key := by
    unfold new
    rw [Store.find?_empty, Store.find?_empty]
  timer := by
    unfold new Config.normalized
    rw [h]
    exact Timer.parallel_new _ _ _

namespace Parallel

/-! ### What is the same -/

theorem isSome_of_rel {R : Value → Value → Prop} {v v' : Option Value} (h : Option.Rel R v v') :
    v.isSome = v'.isSome := by
  cases h with
  | none => rfl
  | some _ => rfl

theorem isSome_data (h : Parallel ks ks') (key : Bytes) :
    (ks.data.find? key).isSome = (ks'.data.find? key).isSome :=
  isSome_of_rel (h.data key)

theorem due_eq (h : Parallel ks ks') (key : Bytes) : ks.due now key = ks'.due now key := by
  unfold due
  rw [h.deadlines]

theorem size_eq (h : Parallel ks ks') : ks.size = ks'.size :=
  h.left.data.count_congr h.right.data h.isSome_data

theorem count_deadlines_eq (h : Parallel ks ks') : ks.deadlines.count = ks'.deadlines.count :=
  h.left.deadlines.count_congr h.right.deadlines fun key => by rw [h.deadlines]

theorem sortedKeys_congr {α : Type} {s s' : Store α} (h : s.Sound) (h' : s'.Sound)
    (hs : ∀ key, (s.find? key).isSome = (s'.find? key).isSome) : s.sortedKeys = s'.sortedKeys := by
  have hall : s.sortedKeys.filter (fun _ => true) = s'.sortedKeys.filter (fun _ => true) :=
    h.filter_sortedKeys h' fun key => by rw [hs]
  rwa [List.filter_true, List.filter_true] at hall

theorem sortedKeys_eq (h : Parallel ks ks') : ks.data.sortedKeys = ks'.data.sortedKeys :=
  sortedKeys_congr h.left.data h.right.data h.isSome_data

theorem dated_eq (h : Parallel ks ks') : ks.deadlines.sortedKeys = ks'.deadlines.sortedKeys :=
  sortedKeys_congr h.left.deadlines h.right.deadlines fun key => by rw [h.deadlines]

/-! ### Changes -/

theorem rel_drop (h : Parallel ks ks') (key other : Bytes) :
    Option.Rel Value.Twins ((ks.data.drop key).find? other) ((ks'.data.drop key).find? other) := by
  rw [Store.find?_drop h.left.data, Store.find?_drop h.right.data]
  split
  · exact .none
  · exact h.data other

theorem deadlines_drop (h : Parallel ks ks') (key other : Bytes) :
    (ks.deadlines.drop key).find? other = (ks'.deadlines.drop key).find? other := by
  rw [Store.find?_drop h.left.deadlines, Store.find?_drop h.right.deadlines, h.deadlines]

theorem erase (h : Parallel ks ks') {key : Bytes} {cancel : Bool} (hs : (ks.erase key cancel).Sane)
    (hs' : (ks'.erase key cancel).Sane) : Parallel (ks.erase key cancel) (ks'.erase key cancel) where
  left := hs
  right := hs'
  data := h.rel_drop key
  deadlines := h.deadlines_drop key
  timer := h.timer.cancel_if key cancel

theorem purge (h : Parallel ks ks') (key : Bytes) : Parallel (ks.purge now key) (ks'.purge now key) := by
  unfold Keyspace.purge
  rw [h.due_eq]
  split
  · exact h.erase (h.left.erase nofun) (h.right.erase nofun)
  · exact h

theorem remove (h : Parallel ks ks') (key : Bytes) :
    Parallel (ks.erase key (ks.deadlines.find? key).isSome)
      (ks'.erase key (ks'.deadlines.find? key).isSome) := by
  have hs := h.left.erase_recorded key
  rw [h.deadlines] at hs ⊢
  exact h.erase hs (h.right.erase_recorded key)

theorem undate (h : Parallel ks ks') (key : Bytes) : Parallel (ks.undate key) (ks'.undate key) where
  left := h.left.undate key
  right := h.right.undate key
  data := h.data
  deadlines := h.deadlines_drop key
  timer := by
    unfold Keyspace.undate
    rw [h.deadlines]
    exact h.timer.cancel_if key _

theorem date (h : Parallel ks ks') {key : Bytes} (hv : (ks.data.find? key).isSome) (time : Nat) :
    Parallel (ks.date now key time) (ks'.date now key time) where
  left := h.left.date hv now time
  right := h.right.date (h.isSome_data key ▸ hv) now time
  data := h.data
  deadlines other := by
    show (ks.deadlines.put key time).find? other = (ks'.deadlines.put key time).find? other
    rw [Store.find?_put h.left.deadlines, Store.find?_put h.right.deadlines, h.deadlines]
  timer := h.timer.send _

theorem place (h : Parallel ks ks') (key : Bytes) {v v' : Value} (hv : v.Twins v') :
    Parallel (ks.place key v) (ks'.place key v') where
  left := h.left.place key v
  right := h.right.place key v'
  data other := by
    show Option.Rel _ ((ks.data.put key v).find? other) ((ks'.data.put key v').find? other)
    rw [Store.find?_put h.left.data, Store.find?_put h.right.data]
    split
    · exact .some hv
    · exact h.data other
  deadlines := h.deadlines
  timer := h.timer

theorem make (h : Parallel ks ks') :
    Parallel { ks with made := ks.made + 1 } { ks' with made := ks'.made + 1 } where
  left := h.left.make
  right := h.right.make
  data := h.data
  deadlines := h.deadlines
  timer := h.timer

theorem timer_cancelAll {t t' : Timer Bytes} (h : t.Parallel t') (keys : List Bytes) :
    (cancelAll t keys).Parallel (cancelAll t' keys) := by
  induction keys generalizing t t' with
  | nil => exact h
  | cons key keys ih => exact ih (h.send (.cancel key))

theorem undateAll (h : Parallel ks ks') {data data' : Store Value} (hs : data.Sound) (hs' : data'.Sound)
    (hd : ∀ key, Option.Rel Value.Twins (data.find? key) (data'.find? key)) :
    Parallel (ks.undateAll data) (ks'.undateAll data') where
  left := h.left.undateAll hs
  right := h.right.undateAll hs'
  data := hd
  deadlines key := (Store.find?_clear ks.deadlines key).trans (Store.find?_clear ks'.deadlines key).symm
  timer := by
    unfold Keyspace.undateAll
    rw [h.dated_eq]
    exact timer_cancelAll h.timer _

theorem flush (h : Parallel ks ks') :
    Parallel (ks.undateAll ks.data.clear) (ks'.undateAll ks'.data.clear) := by
  apply h.undateAll h.left.data.clear h.right.data.clear
  intro key
  rw [Store.find?_clear, Store.find?_clear]
  exact .none

/-! ### Timers -/

theorem retime (h : Parallel ks ks') {t t' : Timer Bytes} (hs : Sane { ks with timer := t })
    (hs' : Sane { ks' with timer := t' }) (ht : t.Parallel t') :
    Parallel { ks with timer := t } { ks' with timer := t' } :=
  ⟨hs, hs', h.data, h.deadlines, ht⟩

theorem fire (h : Parallel ks ks') {key : Bytes} (hb : ks.timer.books key = false)
    (hb' : ks'.timer.books key = false) :
    (ks.fire now key).2 = (ks'.fire now key).2 ∧ Parallel (ks.fire now key).1 (ks'.fire now key).1 := by
  unfold Keyspace.fire
  rw [run_purgeIfDue h.left, run_purgeIfDue h.right, h.due_eq]
  cases ks'.due now key with
  | true => exact ⟨rfl, h.erase (h.left.erase fun _ => hb) (h.right.erase fun _ => hb')⟩
  | false => exact ⟨rfl, h⟩

theorem fireAll (h : Parallel ks ks') {keys : List Bytes} (hb : ∀ key ∈ keys, ks.timer.books key = false)
    (hb' : ∀ key ∈ keys, ks'.timer.books key = false) :
    (fireAll now keys ks).2 = (fireAll now keys ks').2 ∧
      Parallel (fireAll now keys ks).1 (fireAll now keys ks').1 := by
  induction keys generalizing ks ks' with
  | nil => exact ⟨rfl, h⟩
  | cons key keys ih =>
    rw [List.forall_mem_cons] at hb hb'
    obtain ⟨ho, hk⟩ : (ks.fire now key).2 = (ks'.fire now key).2 ∧ _ := h.fire hb.1 hb'.1
    have ht := (sane_fire h.left hb.1 now).2
    have ht' := (sane_fire h.right hb'.1 now).2
    obtain ⟨hos, hks⟩ := ih hk (by rw [ht]; exact hb.2) (by rw [ht']; exact hb'.2)
    exact ⟨congrArg₂ (fun outcome outcomes => (key, outcome) :: outcomes) ho hos, hks⟩

theorem tick (h : Parallel ks ks') :
    (ks.tick now).2 = (ks'.tick now).2 ∧ Parallel (ks.tick now).1 (ks'.tick now).1 := by
  obtain ⟨hkeys, ht⟩ := h.timer.tick
  unfold Keyspace.tick
  dsimp only
  rw [← hkeys]
  apply (h.retime h.left.tickTimer h.right.tickTimer ht).fireAll h.left.timer.books_fired
  rw [hkeys]
  exact h.right.timer.books_fired

theorem stop (h : Parallel ks ks') : Parallel ks.stop ks'.stop :=
  h.retime (sane_stop h.left) (sane_stop h.right) (h.timer.send .stop)

theorem start (h : Parallel ks ks') (hasRuntime : Bool) :
    (ks.start hasRuntime).map (fun _ => ()) = (ks'.start hasRuntime).map (fun _ => ()) ∧
      Parallel (ks.after (.start hasRuntime)) (ks'.after (.start hasRuntime)) := by
  have hs := sane_start h.left hasRuntime
  have hs' := sane_start h.right hasRuntime
  unfold Keyspace.after at hs hs' ⊢
  dsimp only at hs hs' ⊢
  unfold Keyspace.start at hs hs' ⊢
  rcases h.timer.start hasRuntime with ⟨e, he, he'⟩ | ⟨u, u', hu, hu', ht⟩
  · rw [he, he']
    exact ⟨rfl, h⟩
  · rw [hu] at hs ⊢
    rw [hu'] at hs' ⊢
    exact ⟨rfl, h.retime hs hs' ht⟩

end Parallel

end Keyspace

end KeyEngine
