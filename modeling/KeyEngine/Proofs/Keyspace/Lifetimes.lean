import KeyEngine.Proofs.Keyspace.Renamed
import Mathlib.Data.ENat.Basic

/-!
# Lifetimes under conditions

A key without a deadline lasts for ever, so that any two lifetimes can be compared. A conditional call gives a live
key a new deadline just where the condition allows the step from the old one. What conditions allow is all that
happens to a key that nothing else writes, so a key that is only put off lives on, and one that is only hastened
does not.
-/

namespace KeyEngine

/-- The condition on the deadlines as points of time, the last of which is never. -/
def ExpireCondition.Permits : ExpireCondition → ℕ∞ → ℕ∞ → Prop
  | always, _, _ => True
  | unset, current, _ => current = ⊤
  | present, current, _ => current ≠ ⊤
  | later, current, time => current < time
  | earlier, current, time => time < current

namespace Keyspace

variable {now time : Nat} {ks ks' t : Keyspace} {key : Bytes} {condition : ExpireCondition} {given : Bool}

/-- The time until which the key lasts. -/
def expiry (ks : Keyspace) (key : Bytes) : ℕ∞ :=
  (ks.deadlines.find? key).elim ⊤ (↑)

theorem expiry_eq (h : ks.deadlines.find? key = some time) : ks.expiry key = time := by
  rw [expiry, h]
  rfl

theorem allows_iff (condition : ExpireCondition) (ks : Keyspace) (key : Bytes) (time : Nat) :
    condition.allows (ks.deadlines.find? key) time = true ↔ condition.Permits (ks.expiry key) time := by
  unfold expiry
  cases ks.deadlines.find? key <;> cases condition <;> simp [ExpireCondition.allows, ExpireCondition.Permits]

theorem Untouched.expiry_eq (h : Untouched key ks ks') : ks'.expiry key = ks.expiry key := by
  unfold expiry
  rw [h.record]

theorem isSome_of_value (h : (ks.value now key).isSome) : (ks.data.find? key).isSome := by
  obtain ⟨v, hv⟩ := Option.isSome_iff_exists.mp h
  exact Option.isSome_of_eq_some (live_of_value hv).2

/-! ## One call -/

theorem handle_expire_seconds (ks : Keyspace) (now : Nat) (key : Bytes) (seconds : Nat) (condition : ExpireCondition) :
    ks.handle now (.expire key seconds condition) =
      ks.handle now (.expireMillis key (millisOfSeconds seconds) condition) :=
  rfl

/-- What has come of a call that gives the key the deadline if the condition allows it. -/
structure Expired (now : Nat) (key : Bytes) (time : Nat) (condition : ExpireCondition) (ks : Keyspace) (given : Bool)
    (ks' : Keyspace) : Prop where
  given_iff : given = true ↔ (ks.value now key).isSome ∧ condition.Permits (ks.expiry key) time
  dated : given = true → ks'.data.find? key = ks.data.find? key ∧ ks'.deadlines.find? key = some time
  waits : given = true → ks.timer.wheel?.isSome → ks'.timer.Waits key
  refused : given = false → ks.due now key = false → ks' = ks
  others : ∀ other, other ≠ key → Untouched other ks ks'

theorem expired_run (h : ks.Sane) (now : Nat) (key : Bytes) (millis : Nat) (condition : ExpireCondition) :
    ∃ given ks', ks.run (Command.expireMillis now key millis condition) = (.ok given, ks') ∧
      Expired now key (laterBy now millis) condition ks given ks' := by
  have hiff : ((ks.value now key).isSome && condition.allows (ks.deadlines.find? key) (laterBy now millis)) = true ↔
      (ks.value now key).isSome ∧ condition.Permits (ks.expiry key) (laterBy now millis) := by
    rw [Bool.and_eq_true, allows_iff]
  rw [run_expireMillis h]
  split
  · rename_i hgiven
    have hs := h.date (isSome_of_value (hiff.mp hgiven).1) now (laterBy now millis)
    refine ⟨true, _, rfl, iff_of_true rfl (hiff.mp hgiven), fun _ => ⟨rfl, ?_⟩, fun _ hw => ?_,
      fun hfalse => absurd hfalse.symm Bool.false_ne_true, fun other hne => ?_⟩
    · exact Close.find?_deadlines_date h now key _
    · rw [← hs.timer.books_iff]
      simp [date, Timer.books_add, hw]
    · exact (SameBut.date h now key _).untouched hne
  · rename_i hrefused
    refine ⟨false, _, rfl, iff_of_false Bool.false_ne_true fun hgiven => hrefused (hiff.mpr hgiven),
      fun htrue => absurd htrue Bool.false_ne_true, fun htrue => absurd htrue Bool.false_ne_true, fun _ hd => ?_,
      fun other hne => untouched_purge_other h hne⟩
    simp [purge, hd]

/-! ## Runs of events -/

end Keyspace

/-- The request writes the key only to give it a deadline, and under the condition. -/
def Request.KeepsTo (condition : ExpireCondition) (key : Bytes) (request : Request) : Prop :=
  key ∈ request.writes →
    (∃ seconds, request = .expire key seconds condition) ∨ ∃ millis, request = .expireMillis key millis condition

def Event.KeepsTo (condition : ExpireCondition) (key : Bytes) : Event → Prop
  | .request _ r => r.KeepsTo condition key
  | .deadlineCall .. => False
  | .tick _ | .start _ | .stop => True

namespace Keyspace

variable {now : Nat} {ks ks' t : Keyspace} {key : Bytes} {condition : ExpireCondition} {request : Request} {e : Event}
  {es : List Event}

/-- The value of the key is gone, or it is there as before and the condition allows what has become of its
lifetime, if anything has. -/
inductive Shifted (condition : ExpireCondition) (key : Bytes) (ks ks' : Keyspace) : Prop where
  | gone (h : ks'.data.find? key = none)
  | kept (h : Untouched key ks ks')
  | dated (hv : (ks.data.find? key).isSome) (h : condition.Permits (ks.expiry key) (ks'.expiry key))

theorem untouched_or_gone_purge (h : ks.Sane) (now : Nat) (other : Bytes) :
    Untouched key ks (ks.purge now other) ∨ (ks.purge now other).data.find? key = none := by
  by_cases hk : key = other
  · subst hk
    unfold purge
    split
    · exact .inr ((Store.find?_drop h.data key key).trans (if_pos rfl))
    · exact .inl (.refl key ks)
  · exact .inl (untouched_purge_other h hk)

/-- Looks take a key away if it is due, and leave it alone otherwise. -/
theorem Changed.untouched_or_gone (h : Changed Change.IsLook now ks ks') (hks : ks.Sane) :
    Untouched key ks ks' ∨ ks'.data.find? key = none := by
  have hstep : ∀ (t : Keyspace) (c : Change), c.IsLook →
      t.Sane ∧ (Untouched key ks t ∨ t.data.find? key = none) →
      (c.apply now t).Sane ∧ (Untouched key ks (c.apply now t) ∨ (c.apply now t).data.find? key = none) := by
    intro t c hc ⟨ht, hor⟩
    refine ⟨ht.apply c, ?_⟩
    cases c with
    | look other =>
      have hpurge : Untouched key t (t.purge now other) ∨ (t.purge now other).data.find? key = none :=
        untouched_or_gone_purge ht now other
      rcases hpurge with hu | hgone
      · exact hor.imp (·.trans hu) fun hnone => hu.value.trans hnone
      · exact .inr hgone
    | draw => exact hor.imp (·.trans ⟨rfl, rfl⟩) id
    | _ => cases hc
  exact (h.keeps hstep ⟨hks, .inl (.refl key ks)⟩).2

theorem shifted_of_or (h : Untouched key ks ks' ∨ ks'.data.find? key = none) : Shifted condition key ks ks' :=
  h.elim .kept .gone

theorem shifted_expireMillis (h : ks.Sane) (key : Bytes) (millis : Nat) (condition : ExpireCondition) :
    Shifted condition key ks (ks.handle now (.expireMillis key millis condition)).2 := by
  rw [handle_expireMillis, run_expireMillis h]
  split
  · rename_i hgiven
    rw [Bool.and_eq_true, allows_iff] at hgiven
    have hdated : (ks.date now key (laterBy now millis)).expiry key = laterBy now millis :=
      expiry_eq (Close.find?_deadlines_date h now key _)
    exact .dated (isSome_of_value hgiven.1) (hdated ▸ hgiven.2)
  · exact shifted_of_or (untouched_or_gone_purge h now key)

theorem shifted_handle (hreach : Reachable ks) (hw : key ∉ request.writes) :
    Shifted condition key ks (ks.handle now request).2 := by
  by_cases hr : request = .flush
  · subst hr
    refine .gone ?_
    show (ks.run (Command.flush >>= _)).2.data.find? key = none
    rw [run_bind_ok (run_flush ks)]
    exact Store.find?_clear ks.data key
  · have hacts : Acts now request ks := handle_acts hreach.parallel hr
    obtain ⟨t, hlooks, heffect⟩ := hacts
    have hu := heffect.untouched (hlooks.sane hreach.sane) hw
    have hpurge : Untouched key ks t ∨ t.data.find? key = none := hlooks.untouched_or_gone hreach.sane
    rcases hpurge with hlook | hgone
    · exact .kept (hlook.trans hu)
    · exact .gone (hu.value.trans hgone)

theorem shifted_after (hreach : Reachable ks) (he : e.KeepsTo condition key) :
    Shifted condition key ks (ks.after e) := by
  cases e with
  | request now request =>
    by_cases hw : key ∈ request.writes
    · rcases he hw with ⟨seconds, rfl⟩ | ⟨millis, rfl⟩
      · show Shifted condition key ks (ks.handle now (.expire key seconds condition)).2
        rw [handle_expire_seconds]
        exact shifted_expireMillis hreach.sane key _ condition
      · exact shifted_expireMillis hreach.sane key millis condition
    · exact shifted_handle hreach hw
  | deadlineCall now call => cases he
  | tick now =>
    rcases (tick_spec hreach.sane now).2.keys key with ⟨hv, hd⟩ | ⟨-, hgone, -⟩
    · exact .kept ⟨hv, hd⟩
    · exact .gone hgone
  | start hasRuntime =>
    obtain ⟨timer, -, heq⟩ := after_start ks hasRuntime
    rw [heq]
    exact .kept ⟨rfl, rfl⟩
  | stop => exact .kept ⟨rfl, rfl⟩

theorem Reachable.afterAll (h : Reachable ks) (es : List Event) : Reachable (ks.afterAll es) := by
  induction es generalizing ks with
  | nil => exact h
  | cons e es ih => exact ih (h.step e)

/-- A key that is there after such a run has been there all along, and the condition has allowed each step of its
lifetime. -/
theorem lifetime_afterAll (hreach : Reachable ks) (hes : ∀ e ∈ es, e.KeepsTo condition key)
    (hlive : ((ks.afterAll es).data.find? key).isSome) :
    (ks.data.find? key).isSome ∧
      Relation.ReflTransGen condition.Permits (ks.expiry key) ((ks.afterAll es).expiry key) := by
  induction es generalizing ks with
  | nil => exact ⟨hlive, .refl⟩
  | cons e es ih =>
    obtain ⟨he, hes⟩ := List.forall_mem_cons.mp hes
    obtain ⟨hv, hsteps⟩ := ih (.step e hreach) hes hlive
    cases shifted_after hreach he with
    | gone h => simp [h] at hv
    | kept h => exact ⟨h.value ▸ hv, h.expiry_eq ▸ hsteps⟩
    | dated hv h => exact ⟨hv, hsteps.head h⟩

theorem le_of_later {a b : ℕ∞} (h : Relation.ReflTransGen ExpireCondition.later.Permits a b) : a ≤ b := by
  induction h with
  | refl => exact le_rfl
  | tail _ hstep ih => exact ih.trans (le_of_lt hstep)

theorem ge_of_earlier {a b : ℕ∞} (h : Relation.ReflTransGen ExpireCondition.earlier.Permits a b) : b ≤ a := by
  induction h with
  | refl => exact le_rfl
  | tail _ hstep ih => exact (le_of_lt hstep).trans ih

/-- Whatever has happened to a keyspace, a conditional call gives a live key the deadline just where the condition
allows it, and does nothing to a key otherwise but purge it if it is due. As long as a key lives that is only put
off, its deadline moves to no earlier time, and that of one that is only hastened to no later time. -/
theorem handle_expire (config : Config) (supply : Nat → Towers) (es : List Event) (now : Nat) (key : Bytes) :
    let ks := (new config supply).afterAll es
    (∀ millis condition, ∃ given ks', ks.handle now (.expireMillis key millis condition) = (.ok (.flag given), ks') ∧
      Expired now key (min (now + millis) wordMax) condition ks given ks' ∧
      (given = true → Event.stop ∉ es → ks'.timer.Waits key)) ∧
    (∀ seconds condition, ks.handle now (.expire key seconds condition) =
      ks.handle now (.expireMillis key (min (1000 * seconds) wordMax) condition)) ∧
    (∀ es', (∀ e ∈ es', e.KeepsTo .later key) → ((ks.afterAll es').data.find? key).isSome →
      (ks.data.find? key).isSome ∧ ks.expiry key ≤ (ks.afterAll es').expiry key) ∧
    ∀ es', (∀ e ∈ es', e.KeepsTo .earlier key) → ((ks.afterAll es').data.find? key).isSome →
      (ks.data.find? key).isSome ∧ (ks.afterAll es').expiry key ≤ ks.expiry key := by
  intro ks
  have hreach : Reachable ks := .afterAll (.new config supply) es
  refine ⟨fun millis condition => ?_, fun seconds condition => ?_, fun es' hes hlive => ?_, fun es' hes hlive => ?_⟩
  · obtain ⟨given, ks', hrun, hexpired⟩ := expired_run hreach.sane now key millis condition
    refine ⟨given, ks', ?_, hexpired, fun hgiven hstop => ?_⟩
    · rw [handle_expireMillis, hrun]
      rfl
    · exact hexpired.waits hgiven (isSome_wheel?_afterAll (sane_new config supply) rfl hstop)
  · rw [handle_expire_seconds, millisOfSeconds, Nat.mul_comm]
  · obtain ⟨hv, hsteps⟩ := lifetime_afterAll hreach hes hlive
    exact ⟨hv, le_of_later hsteps⟩
  · obtain ⟨hv, hsteps⟩ := lifetime_afterAll hreach hes hlive
    exact ⟨hv, ge_of_earlier hsteps⟩

/-- A deadline that is put off and not hastened under the one condition, and hastened under the other. -/
theorem handle_expire_twice :
    let es := [.request 0 (.setFor [1] [2] 9)]
    let ks := standard.afterAll es
    let putOff := [.request 3 (.expireMillis [1] 20000 .later)]
    let hastened := [.request 3 (.expire [1] 2 .earlier)]
    Event.stop ∉ es ∧ ks.expiry [1] = (9000 : Nat) ∧
      ks.handle 3 (.expireMillis [1] 5000 .later) = (.ok (.flag false), ks) ∧
      (ks.afterAll putOff).deadlines.find? [1] = some 20003 ∧ (ks.afterAll putOff).timer.Waits [1] ∧
      (∀ e ∈ putOff, e.KeepsTo .later [1]) ∧ ks.expiry [1] ≤ (ks.afterAll putOff).expiry [1] ∧
      (ks.afterAll hastened).deadlines.find? [1] = some 2003 ∧
      (∀ e ∈ hastened, e.KeepsTo .earlier [1]) ∧ (ks.afterAll hastened).expiry [1] ≤ ks.expiry [1] := by
  intro es ks putOff hastened
  have hstop : Event.stop ∉ es := by simp [es]
  obtain ⟨hdata, hrecord⟩ := standard_setFor [1] [2] 9 [1]
  have hexpiry : ks.expiry [1] = (9000 : Nat) := expiry_eq hrecord
  have hdue : ks.due 3 [1] = false := by
    rw [due, show ks.deadlines.find? [1] = some 9000 from hrecord]
    rfl
  have hlive : (ks.value 3 [1]).isSome := by
    rw [Command.isSome_value, hdue, show ks.data.find? [1] = some (.text [2]) from hdata]
    rfl
  obtain ⟨hcall, hseconds, hlater, hearlier⟩ := handle_expire .standard Towers.seeded es 3 [1]
  obtain ⟨refused, ks₀, hrun₀, hnot, -⟩ := hcall 5000 .later
  obtain ⟨given, ks₁, hrun₁, hyes, hwaits⟩ := hcall 20000 .later
  obtain ⟨given', ks₂, hrun₂, hyes', -⟩ := hcall 2000 .earlier
  have hputs : ks.expiry [1] < (20003 : Nat) := hexpiry ▸ Nat.cast_lt.mpr (by decide)
  have hputs' : ((2003 : Nat) : ℕ∞) < ks.expiry [1] := hexpiry ▸ Nat.cast_lt.mpr (by decide)
  have hstays : ¬ ks.expiry [1] < (5003 : Nat) := hexpiry ▸ fun h => absurd (Nat.cast_lt.mp h) (by decide)
  have hoff : given = true := hyes.given_iff.mpr ⟨hlive, hputs⟩
  have hsoon : given' = true := hyes'.given_iff.mpr ⟨hlive, hputs'⟩
  have hkept : refused = false := by
    by_contra hgiven
    exact hstays (hnot.given_iff.mp (eq_true_of_ne_false hgiven)).2
  have hputOff : ks.afterAll putOff = ks₁ := congrArg Prod.snd hrun₁
  have hhastened : ks.afterAll hastened = ks₂ := congrArg Prod.snd ((hseconds 2 .earlier).trans hrun₂)
  have hwrites : ∀ e ∈ putOff, e.KeepsTo .later [1] := by
    simp only [putOff, List.mem_singleton, forall_eq]
    exact fun _ => .inr ⟨_, rfl⟩
  have hwrites' : ∀ e ∈ hastened, e.KeepsTo .earlier [1] := by
    simp only [hastened, List.mem_singleton, forall_eq]
    exact fun _ => .inl ⟨_, rfl⟩
  have hthere : ((ks.afterAll putOff).data.find? [1]).isSome := by
    rw [hputOff, (hyes.dated hoff).1]
    exact isSome_of_value hlive
  have hthere' : ((ks.afterAll hastened).data.find? [1]).isSome := by
    rw [hhastened, (hyes'.dated hsoon).1]
    exact isSome_of_value hlive
  refine ⟨hstop, hexpiry, ?_, ?_, ?_, hwrites, (hlater putOff hwrites hthere).2, ?_, hwrites',
    (hearlier hastened hwrites' hthere').2⟩
  · have hsame : ks₀ = ks := hnot.refused hkept hdue
    exact hrun₀.trans (by rw [hkept, hsame])
  · rw [hputOff]
    exact (hyes.dated hoff).2
  · rw [hputOff]
    exact hwaits hoff hstop
  · rw [hhastened]
    exact (hyes'.dated hsoon).2

end Keyspace

end KeyEngine
