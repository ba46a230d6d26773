import KeyEngine.Proofs.Keyspace.Deleted

/-!
# Renamed keys

A renaming takes the value of a key with its deadline to another key, in place of all that this one had. Three
stores are written one after another, and the task of the deadline is booked anew.
-/

namespace KeyEngine

/-! ## Wheels that are not stopped -/

namespace Keyspace

variable {now : Nat} {ks ks' t : Keyspace} {source target key : Bytes} {v : Value}

theorem isSome_wheel?_apply (h : ks.timer.wheel?.isSome) (c : Change) : (c.apply now ks).timer.wheel?.isSome := by
  cases c with
  | look key =>
    show (ks.purge now key).timer.wheel?.isSome
    unfold purge
    split
    · exact isSome_wheel?_cancel_if h key true
    · exact h
  | draw => exact h
  | place key value => exact h
  | remove key => exact isSome_wheel?_cancel_if h key _
  | undate key => exact isSome_wheel?_cancel_if h key _
  | date key time =>
    show (if (ks.data.find? key).isSome then ks.date now key time else ks).timer.wheel?.isSome
    split
    · simpa [Keyspace.date] using h
    · exact h
  | undateAll => exact isSome_wheel?_cancelAll h _
  | flush => exact isSome_wheel?_cancelAll h _

theorem isSome_wheel?_run {α : Type} (h : ks.Sane) (hw : ks.timer.wheel?.isSome) {c : Command α}
    (hc : Command.Careful now c) : (ks.run c).2.timer.wheel?.isSome := by
  have hstep : ∀ (t : Keyspace) (c : Change), True → t.timer.wheel?.isSome → (c.apply now t).timer.wheel?.isSome :=
    fun _ c _ ht => isSome_wheel?_apply ht c
  exact (hc ks h).1.keeps hstep hw

theorem isSome_wheel?_after (h : ks.Sane) (hw : ks.timer.wheel?.isSome) {e : Event} (he : e ≠ .stop) :
    (ks.after e).timer.wheel?.isSome := by
  cases e with
  | request now request => exact isSome_wheel?_run h hw (Command.careful_ofRequest request)
  | deadlineCall now call => exact isSome_wheel?_run h hw (Command.sure_ofDeadlineCall call).careful
  | tick now =>
    have ht : (ks.tick now).1.timer = ks.timer.tick.1 := timer_fireAll h.tickTimer h.timer.books_fired
    show (ks.tick now).1.timer.wheel?.isSome
    rw [ht]
    exact Timer.isSome_wheel?_tick hw
  | start hasRuntime =>
    obtain ⟨timer, hwheel, heq⟩ := after_start ks hasRuntime
    rw [heq]
    exact hwheel ▸ hw
  | stop => exact absurd rfl he

theorem isSome_wheel?_afterAll (h : ks.Sane) (hw : ks.timer.wheel?.isSome) {es : List Event}
    (hes : Event.stop ∉ es) : (ks.afterAll es).timer.wheel?.isSome := by
  induction es generalizing ks with
  | nil => exact hw
  | cons e es ih =>
    rw [List.mem_cons, not_or] at hes
    exact ih (h.after e) (isSome_wheel?_after h hw (Ne.symm hes.1)) hes.2

/-! ## Live keys -/

def live (now : Nat) (ks : Keyspace) : Finset Bytes :=
  ks.data.keys.toFinset.filter fun key => (ks.value now key).isSome

theorem mem_live (h : ks.Sane) : key ∈ ks.live now ↔ (ks.value now key).isSome := by
  unfold live
  rw [Finset.mem_filter, List.mem_toFinset, h.data.mem_keys, Command.isSome_value]
  simp

/-! ## What a renaming runs -/

theorem run_rename_none (h : ks.Sane) (hn : ks.value now source = none) (target : Bytes) :
    (ks.run (Command.rename now source target)).1 = .error .keyNotFound := by
  unfold Command.rename
  rw [run_bind_ok (run_checkLive h now source)]
  cases hd : ks.due now source with
  | true => rfl
  | false =>
    have hs := h.purge now source
    have hfind : ((ks.purge now source).purge now target).data.find? source = none := by
      have hdue := Close.due_purge_self h now source
      rw [(untouched_purge hs hdue target).value, Command.find?_purge h, hn]
    show ((ks.purge now source).run (_ >>= _)).1 = _
    rw [run_bind_ok (run_discard_ok (run_checkLive hs now target)), run_bind_ok (run_lookup (hs.purge now target) source),
      hfind]
    rfl

theorem run_rename (h : ks.Sane) (hv : ks.value now source = some v) (target : Bytes) :
    ks.run (Command.rename now source target) =
      (.ok (), if source = target then ks else (ks.purge now target).move now source target v) := by
  obtain ⟨hd, hfind⟩ := live_of_value hv
  have hfind' : (ks.purge now target).data.find? source = some v := (untouched_purge h hd target).value.trans hfind
  unfold Command.rename
  rw [run_bind_ok (run_checkLive_live h hd)]
  show ks.run (_ >>= _) = _
  rw [run_bind_ok (run_discard_ok (run_checkLive h now target)), run_bind_ok (run_lookup (h.purge now target) source),
    hfind']
  by_cases he : source = target
  · subst he
    rw [if_pos rfl]
    simp only [if_true, purge, hd]
    rfl
  · rw [if_neg he]
    simp only [if_neg he]
    exact Command.run_move (h.purge now target) source target v

/-! ## What a renaming does -/

/-- What has come of a live value under one key that was renamed to another. -/
structure Renamed (now : Nat) (source target : Bytes) (v : Value) (ks ks' : Keyspace) : Prop where
  value : ks'.data.find? target = some v
  record : ks'.deadlines.find? target = ks.deadlines.find? source
  gone : ks'.data.find? source = none ∧ ks'.deadlines.find? source = none ∧ ¬ ks'.timer.Waits source
  others : ∀ key, key ≠ source → key ≠ target → Untouched key ks ks'
  /-- A deadline is booked as for any key, and the tasks of other keys wait where they did. -/
  tasks : match ks.deadlines.find? source with
    | some time => ks'.timer.Agree (· ≠ source) (ks.timer.add (.ofMillis (time - now)) (some target) target)
    | none => ks'.timer.Agree (fun key => key ≠ source ∧ key ≠ target) ks.timer
  live : (ks'.live now).card + (if (ks.value now target).isSome then 1 else 0) = (ks.live now).card

theorem timer_move (h : t.Sane) (now : Nat) (source target : Bytes) (v : Value) : ∃ u : Timer Bytes, u.Sound ∧
    u.Agree (fun key => key ≠ source ∧ key ≠ target) t.timer ∧ (t.timer.wheel?.isSome → u.wheel?.isSome) ∧
    (t.move now source target v).timer = match t.deadlines.find? source with
      | some time => u.add (.ofMillis (time - now)) (some target) target
      | none => u := by
  have hs := h.remove source
  refine ⟨((t.remove source).remove target).timer, (hs.remove target).timer, ?_, fun hw => ?_, ?_⟩
  · have hone : (t.remove source).timer.Agree (fun key => key ≠ source ∧ key ≠ target) t.timer :=
      Close.agree_cancel_if (.refl _ _) h.timer (by simp) _
    exact Close.agree_cancel_if hone hs.timer (by simp) _
  · exact isSome_wheel?_cancel_if (isSome_wheel?_cancel_if hw source _) target _
  · unfold move
    cases t.deadlines.find? source <;> rfl

theorem sane_move (h : t.Sane) (now : Nat) (source target : Bytes) (v : Value) : (t.move now source target v).Sane := by
  have hp := ((h.remove source).remove target).place target v
  unfold move
  cases t.deadlines.find? source with
  | none => exact hp
  | some time => exact hp.date (Option.isSome_of_eq_some (find?_place ((h.remove source).remove target) target v)) now time

theorem value_move (h : t.Sane) (now : Nat) (source target : Bytes) (v : Value) :
    (t.move now source target v).data.find? target = some v := by
  have hp := find?_place ((h.remove source).remove target) target v
  unfold move
  cases t.deadlines.find? source <;> exact hp

theorem agree_purge (h : ks.Sane) {L : Bytes → Bool} (hL : L key = false) :
    (ks.purge now key).timer.Agree L ks.timer := by
  unfold purge
  split
  · exact Close.agree_cancel_if (.refl L _) h.timer hL true
  · exact .refl L _

/-- One live key is gone, and another one is live, which may have been so before. -/
theorem card_live_moved (h : ks.Sane) (h' : ks'.Sane) (hne : source ≠ target) (hsource : (ks.value now source).isSome)
    (hgone : ks'.value now source = none) (htarget : (ks'.value now target).isSome)
    (hothers : ∀ key, key ≠ source → key ≠ target → ks'.value now key = ks.value now key) :
    (ks'.live now).card + (if (ks.value now target).isSome then 1 else 0) = (ks.live now).card := by
  have hlive : ks'.live now = insert target ((ks.live now).erase source) := by
    ext key
    rw [mem_live h', Finset.mem_insert, Finset.mem_erase, mem_live h]
    by_cases hks : key = source
    · simp [hks, hgone, hne]
    · by_cases hkt : key = target
      · simp [hkt, htarget]
      · simp [hks, hkt, hothers key hks hkt]
  have herase := Finset.card_erase_add_one ((mem_live h).mpr hsource)
  rw [hlive]
  by_cases ht : (ks.value now target).isSome
  · rw [if_pos ht, Finset.insert_eq_of_mem, herase]
    exact Finset.mem_erase.mpr ⟨Ne.symm hne, (mem_live h).mpr ht⟩
  · rw [if_neg ht, Finset.card_insert_of_notMem, herase]
    rw [Finset.mem_erase, mem_live h]
    exact fun hmem => ht hmem.2

theorem renamed_move (h : ks.Sane) (hne : source ≠ target) (hv : ks.value now source = some v) :
    Renamed now source target v ks ((ks.purge now target).move now source target v) := by
  obtain ⟨hd, -⟩ := live_of_value hv
  have ht := h.purge now target
  have hs := sane_move ht now source target v
  obtain ⟨hothers, hgone, hrecord⟩ := @move_spec now _ ht _ _ hne v
  obtain ⟨hbare, hbooks⟩ := hs.cleared hgone
  obtain ⟨u, hu, hagree, -, htimer⟩ := timer_move ht now source target v
  rw [(untouched_purge h hd target).record] at hrecord htimer
  have huntouched : ∀ key, key ≠ source → key ≠ target →
      Untouched key ks ((ks.purge now target).move now source target v) := fun key hks hkt =>
    (untouched_purge_other h hkt).trans (hothers key hks hkt)
  refine ⟨value_move ht now source target v, hrecord, ⟨hgone, hbare, ?_⟩, huntouched, ?_, ?_⟩
  · rw [← hs.timer.books_iff, hbooks]
    exact Bool.false_ne_true
  · have hks := hagree.trans (agree_purge h (by simp))
    rw [htimer]
    cases ks.deadlines.find? source with
    | none => exact hks
    | some time => exact hks.add hu h.timer (fun key hkt hks => by simpa [hkt] using hks) _
  · have hdue : ((ks.purge now target).move now source target v).due now target = false := by
      unfold due at hd ⊢
      rwa [hrecord]
    apply card_live_moved h hs hne (Option.isSome_of_eq_some hv)
    · simp [value, hgone]
    · rw [Command.isSome_value, hdue, value_move ht now]
      rfl
    · exact fun key hks hkt => (huntouched key hks hkt).value_eq now

theorem waits_move (h : t.Sane) (hw : t.timer.wheel?.isSome) (now : Nat) (source target : Bytes) (v : Value) :
    (t.move now source target v).timer.Waits target ↔ (t.deadlines.find? source).isSome := by
  have hs := sane_move h now source target v
  obtain ⟨u, -, -, hwheel, htimer⟩ := timer_move h now source target v
  rw [← hs.timer.books_iff]
  cases hf : t.deadlines.find? source with
  | none =>
    -- The removals have left the target without a record, and so without a task.
    have hremoved := (gone_remove (h.remove source) target).2
    have hbooks := ((h.remove source).remove target).not_books hremoved
    unfold move
    rw [hf]
    exact iff_of_false (Bool.eq_false_iff.mp hbooks) Bool.false_ne_true
  | some time =>
    rw [hf] at htimer
    simp [htimer, Timer.books_add, hwheel hw]

/-! ## Any state -/

/-- Whatever has happened to a keyspace, a renaming fails just where there is no live value under the key. A live
value keeps its deadline under the other key, and no key but the two is touched. -/
theorem handle_rename (config : Config) (supply : Nat → Towers) (es : List Event) (now : Nat)
    (source target : Bytes) :
    let ks := (new config supply).afterAll es
    let result := ks.handle now (.rename source target)
    (result.1 = .error .keyNotFound ↔ ks.value now source = none) ∧
    ∀ v, ks.value now source = some v → result.1 = .ok .done ∧
      (source = target → result.2 = ks) ∧
      (source ≠ target → Renamed now source target v ks result.2 ∧
        (Event.stop ∉ es → (result.2.timer.Waits target ↔ (result.2.deadlines.find? target).isSome))) := by
  intro ks result
  have h : ks.Sane := (sane_new config supply).afterAll es
  have hresult : result = ks.run (Command.rename now source target >>= fun _ => pure Reply.done) := rfl
  have hlive : ∀ v, ks.value now source = some v →
      result = (.ok .done, if source = target then ks else (ks.purge now target).move now source target v) :=
    fun v hv => hresult.trans (run_bind_ok (run_rename h hv target) _)
  constructor
  · cases hv : ks.value now source with
    | none =>
      have herror := run_rename_none h hv target
      rw [hresult, run_bind]
      generalize ks.run (Command.rename now source target) = r at herror
      obtain ⟨answer, ks'⟩ := r
      cases herror
      exact iff_of_true rfl rfl
    | some v => simp [hlive v hv]
  · intro v hv
    rw [hlive v hv]
    refine ⟨rfl, fun he => if_pos he, fun hne => ?_⟩
    rw [if_neg hne]
    have hrenamed := renamed_move h hne hv
    refine ⟨hrenamed, fun hstop => ?_⟩
    have hwheel : ks.timer.wheel?.isSome := isSome_wheel?_afterAll (sane_new config supply) rfl hstop
    have hwaits := waits_move (h.purge now target) (isSome_wheel?_apply hwheel (.look target)) now source target v
    rw [hwaits, hrenamed.record, (untouched_purge h (live_of_value hv).1 target).record]

/-- To another key, to itself, and from a key that is not there. -/
theorem handle_rename_dated :
    let es := [.request 0 (.setFor [1] [2] 9)]
    let ks := standard.afterAll es
    let result := ks.handle 5 (.rename [1] [3])
    Event.stop ∉ es ∧ ks.value 5 [1] = some (.text [2]) ∧ result.1 = .ok .done ∧
      result.2.data.find? [3] = some (.text [2]) ∧ result.2.deadlines.find? [3] = some 9000 ∧
      result.2.timer.Waits [3] ∧ ¬ result.2.timer.Waits [1] ∧ (result.2.live 5).card = (ks.live 5).card ∧
      ks.handle 5 (.rename [1] [1]) = (.ok .done, ks) ∧
      (ks.handle 5 (.rename [3] [1])).1 = .error .keyNotFound := by
  intro es ks result
  have hstop : Event.stop ∉ es := by simp [es]
  have hset := standard_setFor [1] [2] 9
  have hdeadline : ks.deadlines.find? [1] = some 9000 := (hset [1]).2
  have hdue : ks.due 5 [1] = false := by
    rw [due, hdeadline]
    rfl
  have hv : ks.value 5 [1] = some (.text [2]) := (if_neg (by simp [hdue])).trans (hset [1]).1
  have hnone : ks.value 5 [3] = none := by
    have hfind : ks.data.find? [3] = none := (hset [3]).1
    simp [value, hfind]
  obtain ⟨-, hlive⟩ := handle_rename .standard Towers.seeded es 5 [1] [3]
  obtain ⟨hanswer, -, hother⟩ := hlive _ hv
  obtain ⟨hrenamed, hwaits⟩ := hother (by decide)
  obtain ⟨-, hself⟩ := handle_rename .standard Towers.seeded es 5 [1] [1]
  obtain ⟨hselfAnswer, hselfSame, -⟩ := hself _ hv
  obtain ⟨hfails, -⟩ := handle_rename .standard Towers.seeded es 5 [3] [1]
  have hrecord : result.2.deadlines.find? [3] = some 9000 := hrenamed.record.trans hdeadline
  have hcard := hrenamed.live
  refine ⟨hstop, hv, hanswer, hrenamed.value, hrecord, (hwaits hstop).mpr ?_, hrenamed.gone.2.2, ?_,
    Prod.ext hselfAnswer (hselfSame rfl), hfails.mpr hnone⟩
  · exact Option.isSome_of_eq_some hrecord
  · rwa [if_neg] at hcard
    simp [show value 5 ((new .standard Towers.seeded).afterAll es) [3] = none from hnone]

end Keyspace

end KeyEngine
