import KeyEngine.Proofs.Dealing
import KeyEngine.Proofs.Keyspace.Reachable

/-!
# Expiry is transparent

It never matters when a due key is removed, or by which path. A request is answered alike whether due keys
have been removed before it or not, a tick removes due keys alone, and so the answers to a sequence of
requests do not depend on when the timer ticks between them, if it is ever started at all. For that the clock
must not go back: a tick that has read it ahead of the requests takes keys that they would still find.
-/

namespace KeyEngine.Keyspace

variable {same : Prop} {now : Nat} {K : Set Bytes} {ks ks' : Keyspace}

/-! ## Removing due keys -/

/-- Without the keys, their values, deadlines and tasks. -/
def without (ks : Keyspace) (keys : List Bytes) : Keyspace :=
  keys.foldl (·.erase · true) ks

/-- Without any key that is due. -/
def sweep (now : Nat) (ks : Keyspace) : Keyspace :=
  ks.without (ks.deadlines.sortedKeys.filter (ks.due now))

theorem find?_deadlines_without (h : ks.Sane) (keys : List Bytes) (key : Bytes) :
    (ks.without keys).deadlines.find? key =
      if key ∈ keys then none else ks.deadlines.find? key := by
  induction keys generalizing ks with
  | nil => simp [Keyspace.without]
  | cons k keys ih =>
    have he : (ks.erase k true).Sane := h.erase nofun
    have := Store.find?_drop h.deadlines k key
    show ((ks.erase k true).without keys).deadlines.find? key = _
    rw [ih he]
    show (if key ∈ keys then none else (ks.deadlines.drop k).find? key) = _
    rw [this]
    by_cases hk : k = key
    · simp [hk]
    · simp [hk, Ne.symm hk]

theorem due_sweep (h : ks.Sane) (now : Nat) (key : Bytes) :
    (ks.sweep now).due now key = false := by
  unfold due sweep
  rw [find?_deadlines_without h]
  split
  · rfl
  · rename_i hnot
    rw [List.mem_filter, h.deadlines.mem_sortedKeys] at hnot
    cases hf : ks.deadlines.find? key with
    | none => rfl
    | some time =>
      simp only [hf, Option.isSome_some, true_and, due] at hnot
      simpa using hnot

theorem Close.without_left (h : Close same now K ks ks') {keys : List Bytes}
    (hk : ∀ key ∈ keys, ks.value now key = none ∧ ks.deadline now key = none) :
    Close same now K (ks.without keys) ks' := by
  induction keys generalizing ks with
  | nil => exact h
  | cons key keys ih =>
    obtain ⟨hv, hd⟩ := hk key List.mem_cons_self
    have he : (ks.erase key true).Sane := h.left.erase nofun
    apply ih (h.erase_left hv hd he)
    intro k hm
    by_cases he : k = key
    · rw [he]
      exact ⟨value_erase h.left key true, deadline_erase h.left key true⟩
    · have hb := SameBut.erase h.left key true
      rw [hb.value now he, hb.deadline now he]
      exact hk k (List.mem_cons_of_mem key hm)

theorem Close.without_due (h : Close same now K ks ks') {keys : List Bytes}
    (hk : ∀ key ∈ keys, ks.due now key = true) : Close same now K (ks.without keys) ks' :=
  h.without_left fun key hm => ⟨value_of_due (hk key hm), deadline_of_due (hk key hm)⟩

theorem Close.sweep (h : Close same now K ks ks') :
    Close same now K (ks.sweep now) (ks'.sweep now) := by
  have hdue : ∀ t : Keyspace, ∀ key ∈ t.deadlines.sortedKeys.filter (t.due now),
      t.due now key = true := by
    intro t key hm
    exact List.of_mem_filter hm
  exact ((h.without_due (hdue ks)).symm.without_due (hdue ks')).symm

/-! ## Keyspaces that cannot be told apart -/

structure Alike (ks ks' : Keyspace) : Prop where
  config : ks.config = ks'.config
  supply : ks.supply = ks'.supply
  made : ks.made = ks'.made
  locks : ks.locks = ks'.locks
  data : ∀ key, ks.data.find? key = ks'.data.find? key
  size : ks.size = ks'.size
  deadlines : ∀ key, ks.deadlines.find? key = ks'.deadlines.find? key
  timed : ks.deadlines.count = ks'.deadlines.count
  timer : ks.timer.Alike ks'.timer

theorem Close.alike (h : Close True now K ks ks') (hd : ∀ key, ks.due now key = false)
    (hd' : ∀ key, ks'.due now key = false) : Alike ks ks' := by
  have hall : Close True now Set.univ ks ks' :=
    { h with settled := fun key _ => ⟨hd key, hd' key⟩ }
  have hdata := fun key => hall.find?_data (Set.mem_univ key)
  have hdeadlines := fun key => hall.find?_deadlines (Set.mem_univ key)
  have hlive : ∀ key, ks.deadline now key = ks.deadlines.find? key := by
    intro key
    unfold Keyspace.deadline
    rw [hd]
    rfl
  refine ⟨h.config, h.supply, h.made, h.locks, hdata, ?_, hdeadlines, ?_, ?_⟩
  · apply h.left.data.count_congr h.right.data
    intro key
    rw [hdata]
  · apply h.left.deadlines.count_congr h.right.deadlines
    intro key
    rw [hdeadlines]
  · apply (h.timer trivial).alike h.left.timer h.right.timer
    · intro key hb
      rw [hlive]
      exact h.left.recorded key hb
    · intro key hb
      rw [hlive, hdeadlines]
      exact h.right.recorded key hb

/-! ## Sequences of events -/

theorem Lost.value_eq (h : Lost now ks ks') (key : Bytes) :
    ks'.value now key = ks.value now key := by
  unfold value due
  rcases h.keys key with ⟨hv, hd⟩ | ⟨hdue, hv, hd⟩
  · rw [hv, hd]
  · unfold due at hdue
    rw [hdue, hv, hd]
    rfl

theorem Lost.deadline_eq (h : Lost now ks ks') (key : Bytes) :
    ks'.deadline now key = ks.deadline now key := by
  unfold deadline due
  rcases h.keys key with ⟨-, hd⟩ | ⟨hdue, -, hd⟩
  · rw [hd]
  · unfold due at hdue
    rw [hdue, hd]
    rfl

theorem Close.lost_left (h : Close False now ∅ ks ks') {t : Keyspace} (ht : t.Sane)
    (hl : Lost now ks t) : Close False now ∅ t ks' where
  left := ht
  right := h.right
  config := hl.config.trans h.config
  supply := hl.supply.trans h.supply
  made := hl.made.trans h.made
  locks := hl.locks.trans h.locks
  value key := (hl.value_eq key).trans (h.value key)
  deadline key := (hl.deadline_eq key).trans (h.deadline key)
  settled key hk := absurd hk (Set.notMem_empty key)
  timer := False.elim

theorem lost_retime (now : Nat) (ks : Keyspace) (timer : Timer Bytes) :
    Lost now ks { ks with timer := timer } :=
  ⟨rfl, rfl, rfl, rfl, fun _ => .inl ⟨rfl, rfl⟩⟩

end Keyspace

namespace Event

def isRequest : Event → Bool
  | .request _ _ => true
  | _ => false

def isDeadlineCall : Event → Bool
  | .deadlineCall _ _ => true
  | _ => false

/-- The reading of the clock at the event. -/
def time? : Event → Option Nat
  | .request now _ => some now
  | .deadlineCall now _ => some now
  | .tick now => some now
  | .start _ => none
  | .stop => none

/-- The clock does not go back. -/
def InOrder (es : List Event) : Prop :=
  (es.filterMap time?).Pairwise (· ≤ ·)

end Event

namespace Keyspace

variable {now : Nat} {ks ks' : Keyspace}

/-- The answer to a request that does not count due keys. -/
def answer? (ks : Keyspace) : Event → Option (Except Error Reply)
  | .request now request => if request.countsDue then none else some (ks.handle now request).1
  | _ => none

def answers (ks : Keyspace) : List Event → List (Except Error Reply)
  | [] => []
  | e :: es => (ks.answer? e).toList ++ (ks.after e).answers es

theorem answers_request {request : Request} (hr : request.countsDue = false) (ks : Keyspace) (now : Nat)
    (es : List Event) : ks.answers (.request now request :: es) =
      (ks.handle now request).1 :: (ks.handle now request).2.answers es := by
  show (ks.answer? (.request now request)).toList ++ (ks.handle now request).2.answers es = _
  unfold answer?
  dsimp only
  rw [hr]
  rfl

theorem answers_other {e : Event} (he : e.isRequest = false) (ks : Keyspace) (es : List Event) :
    ks.answers (e :: es) = (ks.after e).answers es := by
  cases e with
  | request _ _ => cases he
  | _ => rfl

/-- An event that is no request and no call on deadlines takes away due keys at most. -/
theorem lost_after (h : ks.Sane) {e : Event} (hr : e.isRequest = false)
    (hc : e.isDeadlineCall = false) (ht : ∀ t ∈ e.time?, t = now) : Lost now ks (ks.after e) := by
  cases e with
  | request now request => cases hr
  | deadlineCall now call => cases hc
  | tick time =>
    have : time = now := ht time rfl
    rw [← this]
    exact (tick_spec h time).2
  | start hasRuntime =>
    obtain ⟨timer, -, he⟩ := after_start ks hasRuntime
    rw [he]
    exact lost_retime now ks timer
  | stop => exact lost_retime now ks _

theorem exists_time {e : Event} {es : List Event}
    (hes : (now :: (e :: es).filterMap Event.time?).Pairwise (· ≤ ·)) :
    ∃ later, now ≤ later ∧ (∀ t ∈ e.time?, t = later) ∧
      (later :: es.filterMap Event.time?).Pairwise (· ≤ ·) := by
  cases ht : e.time? with
  | none =>
    rw [List.filterMap_cons_none ht] at hes
    exact ⟨now, Nat.le_refl now, nofun, hes⟩
  | some time =>
    rw [List.filterMap_cons_some ht] at hes
    obtain ⟨hnow, hes⟩ := List.pairwise_cons.mp hes
    refine ⟨time, hnow time List.mem_cons_self, ?_, hes⟩
    intro t h
    exact (Option.some.inj h).symm

/-- What comes between the requests does not matter. -/
theorem Close.answers_eq (h : Close False now ∅ ks ks') {es : List Event}
    (hes : (now :: es.filterMap Event.time?).Pairwise (· ≤ ·))
    (hc : ∀ e ∈ es, e.isDeadlineCall = false) :
    ks.answers es = ks'.answers (es.filter Event.isRequest) := by
  induction es generalizing now ks ks' with
  | nil => rfl
  | cons e es ih =>
    obtain ⟨later, hle, ht, hes⟩ := exists_time hes
    have hc' : ∀ f ∈ es, f.isDeadlineCall = false := fun f hf => hc f (List.mem_cons_of_mem e hf)
    have hl := h.later hle
    cases hr : e.isRequest with
    | true =>
      cases e with
      | request time request =>
        obtain rfl := ht time rfl
        rw [List.filter_cons_of_pos hr]
        have hrest := ih (hl.handle request) hes hc'
        have hanswer : ks.answer? (.request time request) = ks'.answer? (.request time request) := by
          unfold answer?
          dsimp only
          split
          · rfl
          · rename_i hcount
            rw [hl.answer_eq (eq_false_of_ne_true hcount)]
        unfold answers
        rw [hanswer]
        exact congrArg _ hrest
      | deadlineCall _ _ => cases hr
      | tick _ => cases hr
      | start _ => cases hr
      | stop => cases hr
    | false =>
      have hlost := lost_after h.left hr (hc e List.mem_cons_self) ht
      rw [List.filter_cons_of_neg (by simp [hr]), ← ih (hl.lost_left (h.left.after e) hlost) hes hc', answers_other hr]

/-! ## Strings with deadlines -/

theorem run_storeText (h : ks.Sane) (key value : Bytes) :
    ks.run (Command.storeText key value) =
      match ks.data.find? key with
      | some (.sortedSet _) => (.error .wrongType, ks)
      | _ => (.ok (), (ks.place key (.text value)).undate key) := by
  have hstored : ks.run (do Command.put key (.text value); discard <| Command.dropDeadline key) =
      (.ok (), (ks.place key (.text value)).undate key) := by
    rw [run_bind_ok (run_put h key _), run_discard_ok (run_dropDeadline (h.place key _) key)]
  unfold Command.storeText
  rw [run_bind_ok (run_lookup h key)]
  rcases ks.data.find? key with _ | _ | _
  · exact hstored
  · exact hstored
  · rfl

/-- The string under the key until the time. -/
def keepUntil (now : Nat) (ks : Keyspace) (key value : Bytes) (time : Nat) : Keyspace :=
  ((ks.place key (.text value)).undate key).date now key time

section
variable (h : ks.Sane) (now : Nat) (key value : Bytes) (time : Nat)
include h

theorem find?_data_keepUntil : (ks.keepUntil now key value time).data.find? key = some (.text value) :=
  find?_place h key _

theorem find?_deadlines_keepUntil : (ks.keepUntil now key value time).deadlines.find? key = some time :=
  Close.find?_deadlines_date ((h.place key _).undate key) now key time

theorem Sane.keepUntil : (ks.keepUntil now key value time).Sane :=
  ((h.place key _).undate key).date (Option.isSome_of_eq_some (find?_place h key _)) now time

end

theorem timer_keepUntil {key : Bytes} (hn : ks.deadlines.find? key = none) (now : Nat) (value : Bytes) (time : Nat) :
    (ks.keepUntil now key value time).timer = ks.timer.add (.ofMillis (time - now)) (some key) key := by
  unfold keepUntil date undate place
  simp [hn]

/-- A string that has just been stored is given its deadline. -/
theorem run_setTtl_text (h : ks.Sane) (key value : Bytes) (seconds : Nat) :
    ((ks.place key (.text value)).undate key).run (discard <| Command.setTtl now key seconds) =
      (.ok (), ((ks.place key (.text value)).undate key).date now key
        (laterBy now (millisOfSeconds seconds))) := by
  have hstored : (((ks.place key (.text value)).undate key).data.find? key).isSome :=
    Option.isSome_of_eq_some (find?_place h key _)
  unfold Command.setTtl Command.setTtlMillis
  rw [run_discard, run_expireAt ((h.place key _).undate key), if_pos hstored]
  rfl

theorem run_setFor_new (h : ks.Sane) {key : Bytes} (hd : ks.due now key = false)
    (hv : ks.data.find? key = none) (value : Bytes) (seconds : Nat) :
    ks.run (Command.setFor now key value seconds) =
      (.ok (), ks.keepUntil now key value (laterBy now (millisOfSeconds seconds))) := by
  have hstore : ks.run (Command.storeText key value) = (.ok (), (ks.place key (.text value)).undate key) := by
    rw [run_storeText h, hv]
  unfold Command.setFor
  rw [run_bind_ok (run_discard_ok (run_checkLive_live h hd)), run_bind_ok hstore, run_setTtl_text h]
  rfl

theorem after_setFor_new (h : ks.Sane) {key : Bytes} (hd : ks.due now key = false)
    (hv : ks.data.find? key = none) (value : Bytes) (seconds : Nat) :
    ks.after (.request now (.setFor key value seconds)) =
      ks.keepUntil now key value (laterBy now (millisOfSeconds seconds)) := by
  show (ks.run (Command.setFor now key value seconds >>= fun _ => pure Reply.done)).2 = _
  rw [run_bind_ok (run_setFor_new h hd hv value seconds)]
  rfl

theorem standard_setFor (key value : Bytes) (seconds : Nat) (other : Bytes) :
    let ks := standard.after (.request 0 (.setFor key value seconds))
    ks.data.find? other = (if key = other then some (.text value) else none) ∧
      ks.deadlines.find? other = if key = other then some (laterBy 0 (millisOfSeconds seconds)) else none := by
  have hs : standard.Sane := sane_new _ _
  have hplace := hs.place key (.text value)
  have hnone : ∀ k, standard.deadlines.find? k = none := fun k => Store.find?_empty _ k
  intro ks
  have hks : ks = standard.keepUntil 0 key value (laterBy 0 (millisOfSeconds seconds)) :=
    after_setFor_new hs (Close.due_of_absent (hnone key)) (Store.find?_empty _ _) value seconds
  rw [hks]
  constructor
  · refine (Store.find?_put hs.data key _ other).trans ?_
    rw [show standard.data.find? other = none from Store.find?_empty _ other]
  · refine (Store.find?_put (hplace.undate key).deadlines key _ other).trans ?_
    by_cases hk : key = other
    · rw [if_pos hk, if_pos hk]
    · rw [if_neg hk, if_neg hk]
      exact ((SameBut.undate hplace key).deadlines other (Ne.symm hk)).trans (hnone other)

theorem run_expireMillis (h : ks.Sane) (key : Bytes) (millis : Nat) (condition : ExpireCondition) :
    ks.run (Command.expireMillis now key millis condition) =
      if (ks.value now key).isSome && condition.allows (ks.deadlines.find? key) (laterBy now millis) then
        (.ok true, ks.date now key (laterBy now millis))
      else (.ok false, ks.purge now key) := by
  unfold Command.expireMillis
  rw [run_bind_ok (run_checkLive h now key), Command.isSome_value]
  cases hd : ks.due now key with
  | true => rfl
  | false =>
    have hp : ks.purge now key = ks := by simp [purge, hd]
    rw [hp]
    show ks.run (_ >>= _) = _
    rw [run_bind_ok (run_contains h key)]
    cases hv : (ks.data.find? key).isSome with
    | false => rfl
    | true =>
      show ks.run (Command.deadline? key >>= _) = _
      rw [run_bind_ok (run_deadline? h key)]
      cases condition.allows (ks.deadlines.find? key) (laterBy now millis) with
      | false => rfl
      | true =>
        show ks.run (Command.expireAt now key _) = _
        rw [run_expireAt h, if_pos hv]
        rfl

theorem handle_expireMillis (ks : Keyspace) (now : Nat) (key : Bytes) (millis : Nat) (condition : ExpireCondition) :
    ks.handle now (.expireMillis key millis condition) =
      ((ks.run (Command.expireMillis now key millis condition)).1.map .flag,
        (ks.run (Command.expireMillis now key millis condition)).2) :=
  run_map ks _ _

theorem answers_get (h : ks.Sane) {key : Bytes} (hd : ks.due now key = false) :
    ks.answers [.request now (.get key)] =
      [match ks.data.find? key with
        | some (.text value) => .ok (.text? (some value))
        | some (.sortedSet _) => .error .wrongType
        | none => .ok (.text? none)] := by
  rw [answers_request rfl]
  show (ks.run (Reply.text? <$> Command.get now key)).1 :: [] = _
  unfold Command.get
  rw [run_map, run_bind_ok (run_discard_ok (run_checkLive_live h hd)), run_bind_ok (run_lookup h key)]
  rcases ks.data.find? key with _ | _ | _ <;> rfl

/-- A string is stored and then given a deadline. -/
theorem answers_keepUntil (h : ks.Sane) {key : Bytes} (hn : ks.deadlines.find? key = none)
    (hv : ks.data.find? key = none) (value : Bytes) (millis : Nat) (es : List Event) :
    ks.answers (.request now (.set key value) :: .request now (.expireMillis key millis .always) :: es) =
      .ok .done :: .ok (.flag true) :: (ks.keepUntil now key value (laterBy now millis)).answers es := by
  have hs : ((ks.place key (.text value)).undate key).Sane := (h.place key _).undate key
  have hset : ks.handle now (.set key value) = (.ok .done, (ks.place key (.text value)).undate key) := by
    have hdue : ks.due now key = false := Close.due_of_absent hn
    have hstore : ks.run (Command.storeText key value) = (.ok (), (ks.place key (.text value)).undate key) := by
      rw [run_storeText h, hv]
    show ks.run (Command.set now key value >>= fun _ => pure Reply.done) = _
    unfold Command.set
    rw [run_bind_ok ((run_bind_ok (run_discard_ok (run_checkLive_live h hdue)) _).trans hstore)]
    rfl
  have hlive : ((ks.place key (.text value)).undate key).value now key = some (.text value) := by
    have hd : ((ks.place key (.text value)).undate key).deadlines.find? key = none :=
      (Store.find?_drop h.deadlines key key).trans (if_pos rfl)
    unfold Keyspace.value
    rw [Close.due_of_absent hd]
    exact find?_place h key _
  rw [answers_request rfl, hset, answers_request rfl, handle_expireMillis, run_expireMillis hs, hlive]
  rfl

/-! ## Single ticks -/

theorem tick_idle (hf : ks.timer.tick.2 = []) (now : Nat) : (ks.tick now).1 = { ks with timer := ks.timer.tick.1 } := by
  show (fireAll now ks.timer.tick.2 _).1 = _
  rw [hf]
  rfl

/-- The tick fires the task of one key, and takes the key if it is due. -/
theorem gone_tick (h : ks.Sane) {key : Bytes} (hf : ks.timer.tick.2 = [key]) (hd : ks.due now key = true) :
    (ks.tick now).1.data.find? key = none ∧ (ks.tick now).1.deadlines.find? key = none := by
  have htick : (ks.tick now).1 = { ks with timer := ks.timer.tick.1 }.erase key false := by
    show (fireAll now ks.timer.tick.2 _).1 = _
    rw [hf]
    show (fire now { ks with timer := ks.timer.tick.1 } key).1 = _
    rw [fire_eq h.tickTimer]
    exact if_pos hd
  rw [htick]
  exact ⟨(Store.find?_drop h.data key key).trans (if_pos rfl), (Store.find?_drop h.deadlines key key).trans (if_pos rfl)⟩

end Keyspace

/-- What a timer fires at its next tick, by the history of its wheel. -/
theorem Timer.tick_history {t : Timer Bytes} {interval : Duration} {n : Nat} (hn : 0 < n)
    (steps : List (WheelStep Bytes)) (ht : t.phase = .running (perform Wheel.step (.empty interval n) steps).1) :
    t.tick.2 = (WheelStep.bookedFor interval (WheelStep.ticksIn steps + 1) 0 steps).map Prod.snd ∧
      t.tick.1.phase = .running (perform Wheel.step (.empty interval n) (steps ++ [.tick])).1 := by
  have hfired := congrArg (List.map Prod.snd) (Wheel.fired_perform interval hn steps)
  rw [List.map_map] at hfired
  unfold Timer.tick
  rw [ht, perform_append]
  exact ⟨hfired, rfl⟩

namespace Keyspace

variable {now : Nat} {ks : Keyspace}

/-- A string that lasts for one tick of a fresh wheel is taken at the second, if that reads the clock past the
deadline. -/
theorem gone_keepUntil (h : ks.Sane) {key : Bytes} (hn : ks.deadlines.find? key = none) {interval : Duration} {n : Nat}
    (hpos : 0 < n) (hphase : ks.timer.phase = .running (.empty interval n)) {time later : Nat}
    (hwait : Schedule.wait interval (.ofMillis (time - now)) = 1) (value : Bytes) (hle : time ≤ later) :
    let t := (((ks.keepUntil now key value time).tick later).1.tick later).1
    t.Sane ∧ t.data.find? key = none ∧ t.deadlines.find? key = none := by
  have hs : (ks.keepUntil now key value time).Sane := h.keepUntil now key value time
  have hd := find?_deadlines_keepUntil h now key value time
  have htimer := timer_keepUntil hn now value time
  generalize ks.keepUntil now key value time = t at hs hd htimer ⊢
  have hrun : t.timer.phase =
      .running (perform Wheel.step (.empty interval n) [.add (.ofMillis (time - now)) (some key) key]).1 := by
    rw [htimer]
    unfold Timer.add Timer.send
    rw [hphase]
    rfl
  obtain ⟨hidle, hrun⟩ := Timer.tick_history hpos _ hrun
  have htick : (t.tick later).1 = { t with timer := t.timer.tick.1 } := by
    refine tick_idle (hidle.trans ?_) later
    simp [WheelStep.bookedFor, WheelStep.ticksIn, hwait]
  have hfired : (t.tick later).1.timer.tick.2 = [key] := by
    rw [htick]
    refine (Timer.tick_history hpos _ hrun).1.trans ?_
    simp [WheelStep.bookedFor, WheelStep.ticksIn, WheelStep.clears, hwait]
  have hdue : (t.tick later).1.due later key = true := by
    rw [htick]
    show (t.deadlines.find? key).any (· ≤ later) = true
    rw [hd]
    exact decide_eq_true hle
  have hs' : (t.tick later).1.Sane := hs.after (.tick later)
  exact ⟨hs'.after (.tick later), gone_tick hs' hfired hdue⟩

/-! ## Transparency -/

/-- Due keys may be removed before a request, in any choice, at no loss: it is answered the same, and once
all due keys are gone the keyspaces after it cannot be told apart. A tick removes due keys alone. So of
two sequences of events with the same requests, as long as the clock does not go back, each request is
answered the same in both, wherever the timer is started, ticks or is stopped. -/
theorem expiry_transparent (hreach : Reachable ks) :
    (∀ now keys request, (∀ key ∈ keys, ks.due now key = true) →
      (request.countsDue = false →
        (ks.handle now request).1 = ((ks.without keys).handle now request).1) ∧
      Alike ((ks.handle now request).2.sweep now)
        (((ks.without keys).handle now request).2.sweep now)) ∧
    (∀ now, Lost now ks (ks.tick now).1) ∧
    (∀ es es', Event.InOrder es → Event.InOrder es' →
      (∀ e ∈ es, e.isDeadlineCall = false) → (∀ e ∈ es', e.isDeadlineCall = false) →
      es.filter Event.isRequest = es'.filter Event.isRequest → ks.answers es = ks.answers es') := by
  have h := hreach.sane
  refine ⟨?_, ?_, ?_⟩
  · intro now keys request hk
    have hc : Close True now ∅ (ks.without keys) ks := (Close.refl h).without_due hk
    refine ⟨fun hr => (hc.answer_eq hr).symm, ?_⟩
    have hs := (hc.handle request).symm.sweep
    exact hs.alike (due_sweep (hc.handle request).right now)
      (due_sweep (hc.handle request).left now)
  · intro now
    exact (tick_spec h now).2
  · intro es es' hes hes' hc hc' heq
    have hstart : ∀ l : List Event, Event.InOrder l → (0 :: l.filterMap Event.time?).Pairwise (· ≤ ·) := by
      intro l hl
      exact List.pairwise_cons.mpr ⟨fun t _ => Nat.zero_le t, hl⟩
    have h0 : Close False 0 ∅ ks ks := .refl h
    rw [h0.answers_eq (hstart es hes) hc, h0.answers_eq (hstart es' hes') hc', heq]

/-- A clock that goes back lets ticks be noticed: the key lasts until 15, a tick at 20 takes it, and a request at 12,
which would have found it, does not. -/
theorem expiry_seen_if_clock_goes_back :
    let es : List Event := [.start true, .request 10 (.set [1] [2]), .request 10 (.expireMillis [1] 5 .always),
      .tick 20, .tick 20, .request 12 (.get [1])]
    let requests : List Event := [.request 10 (.set [1] [2]), .request 10 (.expireMillis [1] 5 .always),
      .request 12 (.get [1])]
    Reachable standard ∧ (∀ e ∈ es, e.isDeadlineCall = false) ∧ es.filter Event.isRequest = requests ∧
      Event.InOrder requests ∧ ¬ Event.InOrder es ∧
      standard.answers requests = [.ok .done, .ok (.flag true), .ok (.text? (some [2]))] ∧
      standard.answers es = [.ok .done, .ok (.flag true), .ok (.text? none)] := by
  intro es requests
  have hsane : standard.Sane := sane_new _ _
  have hdata : standard.data.find? [1] = none := Store.find?_empty _ _
  have hdeadline : standard.deadlines.find? [1] = none := Store.find?_empty _ _
  refine ⟨.new _ _, by simp [es, Event.isDeadlineCall], rfl, ?_, ?_, ?_, ?_⟩
  · unfold Event.InOrder
    decide
  · unfold Event.InOrder
    decide
  · have hlive : due 12 (standard.keepUntil 10 [1] [2] 15) [1] = false := by
      unfold due
      rw [find?_deadlines_keepUntil hsane]
      rfl
    show standard.answers (_ :: _ :: _) = _
    rw [answers_keepUntil hsane hdeadline hdata]
    show _ :: _ :: (standard.keepUntil 10 [1] [2] 15).answers [_] = _
    rw [answers_get (hsane.keepUntil 10 [1] [2] 15) hlive, find?_data_keepUntil hsane]
  · have hstarted : (standard.after (.start true)).Sane := hsane.after (.start true)
    have hdeadline : (standard.after (.start true)).deadlines.find? [1] = none := hdeadline
    show standard.answers (_ :: _ :: _ :: _) = _
    rw [answers_other rfl, answers_keepUntil hstarted hdeadline hdata]
    show _ :: _ :: (keepUntil 10 (standard.after (.start true)) [1] [2] 15).answers _ = _
    have hwait : Schedule.wait (.ofMillis 100) (.ofMillis (15 - 10)) = 1 := by decide
    obtain ⟨hs, hv, hd⟩ := gone_keepUntil hstarted hdeadline (by decide) rfl hwait [2] (show 15 ≤ 20 by decide)
    rw [answers_other rfl, answers_other rfl]
    show _ :: _ :: (tick 20 (tick 20 (keepUntil 10 (standard.after (.start true)) [1] [2] 15)).1).1.answers [_] = _
    rw [answers_get hs (Close.due_of_absent hd), hv]

theorem expiry_transparent_setFor :
    let ks := standard.after (.request 0 (.setFor [1] [2] 0))
    Reachable ks ∧ ks.due 7 [1] = true ∧
      (ks.handle 7 (.get [1])).1 = ((ks.without [[1]]).handle 7 (.get [1])).1 ∧
      Alike ((ks.handle 7 (.get [1])).2.sweep 7) (((ks.without [[1]]).handle 7 (.get [1])).2.sweep 7) ∧
      Lost 7 ks (ks.tick 7).1 ∧
      ks.answers [.start true, .tick 7, .request 8 (.get [1])] =
        ks.answers [.request 8 (.get [1])] := by
  intro ks
  have hreach : Reachable ks := .step _ (.new _ _)
  have hdue : ks.due 7 [1] = true := by
    rw [due, (standard_setFor [1] [2] 0 [1]).2]
    rfl
  obtain ⟨hpurge, htick, hanswers⟩ := expiry_transparent hreach
  obtain ⟨hanswer, halike⟩ := hpurge 7 [[1]] (.get [1]) (by simpa using hdue)
  refine ⟨hreach, hdue, hanswer rfl, halike, htick 7, ?_⟩
  apply hanswers
  · unfold Event.InOrder
    decide
  · unfold Event.InOrder
    decide
  · simp [Event.isDeadlineCall]
  · simp [Event.isDeadlineCall]
  · rfl

end Keyspace

end KeyEngine
