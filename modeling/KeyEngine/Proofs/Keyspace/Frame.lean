import KeyEngine.Proofs.Keyspace.Effects
import KeyEngine.Proofs.Keyspace.Failures

/-!
# What requests leave alone

A request changes nothing but the keys that it writes, due keys apart, and it changes the deadline of a key
that is there afterwards only if it is meant to. A set that loses members keeps its deadline as long as one
of them is left.
-/

namespace KeyEngine.Keyspace

variable {now : Nat} {ks ks' ks'' t t' : Keyspace} {key other : Bytes} {request : Request}
  {result : Except Error Reply}

structure Untouched (key : Bytes) (ks ks' : Keyspace) : Prop where
  value : ks'.data.find? key = ks.data.find? key
  record : ks'.deadlines.find? key = ks.deadlines.find? key

theorem Untouched.refl (key : Bytes) (ks : Keyspace) : Untouched key ks ks :=
  ⟨rfl, rfl⟩

theorem Untouched.trans (h : Untouched key ks ks') (h' : Untouched key ks' ks'') : Untouched key ks ks'' :=
  ⟨h'.value.trans h.value, h'.record.trans h.record⟩

theorem Untouched.due_eq (h : Untouched key ks ks') : ks'.due now key = ks.due now key := by
  unfold due
  rw [h.record]

theorem Untouched.value_eq (h : Untouched key ks ks') (now : Nat) : ks'.value now key = ks.value now key := by
  unfold Keyspace.value
  rw [h.due_eq, h.value]

theorem live_of_value {v : Value} (h : ks.value now key = some v) :
    ks.due now key = false ∧ ks.data.find? key = some v := by
  unfold value at h
  by_cases hd : ks.due now key = true
  · simp [hd] at h
  · rw [if_neg hd] at h
    exact ⟨eq_false_of_ne_true hd, h⟩

theorem SameBut.untouched (h : SameBut other ks ks') (hne : key ≠ other) : Untouched key ks ks' :=
  ⟨h.data key hne, h.deadlines key hne⟩

/-- Members were taken from the set of the key. Value and record go together with the last of them, and until
then the record stays. A key without a set is left alone. -/
def Taken (key : Bytes) (ks : Keyspace) (result : Except Error Reply) (ks' : Keyspace) : Prop :=
  match ks.data.find? key with
  | some (.sortedSet s) => ∃ reply, result = .ok reply ∧
    if reply.taken = s.count then ks'.data.find? key = none ∧ ks'.deadlines.find? key = none
    else (∃ s', ks'.data.find? key = some (.sortedSet s') ∧ reply.taken + s'.count = s.count) ∧
      ks'.deadlines.find? key = ks.deadlines.find? key
  | _ => Untouched key ks ks'

/-- What a request with its result may have done to a key. -/
structure Framed (now : Nat) (key : Bytes) (request : Request) (ks : Keyspace) (result : Except Error Reply)
    (ks' : Keyspace) : Prop where
  others : key ∉ request.writes → Untouched key ks ks'
  record : (ks'.data.find? key).isSome → ks'.deadlines.find? key = ks.deadlines.find? key ∨
    ∃ reply record, result = .ok reply ∧ Redates now ks key request reply record
  redated : ∀ reply record, result = .ok reply → Redates now ks key request reply record →
    ks'.deadlines.find? key = record
  added : request.setUse? = some (.add, key) → ks'.deadlines.find? key = ks.deadlines.find? key
  taken : request.setUse? = some (.take, key) → Taken key ks result ks'
  refused : ∀ value, request = .setNew key value → (ks.data.find? key).isSome → Untouched key ks ks'

/-! ## Looks -/

theorem untouched_purge (h : ks.Sane) (hd : ks.due now key = false) (other : Bytes) :
    Untouched key ks (ks.purge now other) := by
  unfold purge
  split
  · rename_i hdue
    apply (SameBut.erase h other true).untouched
    rintro rfl
    rw [hd] at hdue
    cases hdue
  · exact .refl key ks

theorem Changed.untouched (h : Changed Change.IsLook now ks ks') (hks : ks.Sane)
    (hd : ks.due now key = false) : Untouched key ks ks' := by
  have hstep : ∀ (t : Keyspace) (c : Change), c.IsLook → t.Sane ∧ Untouched key ks t →
      (c.apply now t).Sane ∧ Untouched key ks (c.apply now t) := by
    intro t c hc ⟨ht, hu⟩
    refine ⟨ht.apply c, hu.trans ?_⟩
    cases c with
    | look other => exact untouched_purge ht (hu.due_eq.trans hd) other
    | draw => exact ⟨rfl, rfl⟩
    | _ => cases hc
  exact (h.keeps hstep ⟨hks, .refl key ks⟩).2

theorem untouched_purge_other (h : ks.Sane) (hne : key ≠ other) : Untouched key ks (ks.purge now other) := by
  unfold purge
  split
  · exact (SameBut.erase h other true).untouched hne
  · exact .refl key ks

/-! ## Writes -/

theorem gone_remove (h : t.Sane) (key : Bytes) :
    (t.remove key).data.find? key = none ∧ (t.remove key).deadlines.find? key = none :=
  ⟨(Store.find?_drop h.data key key).trans (if_pos rfl), Close.find?_deadlines_drop h key⟩

theorem untouched_remove (h : t.Sane) (hne : key ≠ other) : Untouched key t (t.remove other) :=
  (SameBut.erase h other _).untouched hne

theorem untouched_removeAll (h : t.Sane) {keys : List Bytes} (hk : key ∉ keys) :
    Untouched key t (t.removeAll keys) := by
  induction keys generalizing t with
  | nil => exact .refl key t
  | cons k keys ih =>
    obtain ⟨hne, hk⟩ := List.ne_and_not_mem_of_not_mem_cons hk
    exact (untouched_remove h hne).trans (ih (h.remove k) hk)

theorem gone_removeAll (h : t.Sane) {keys : List Bytes} (hk : key ∈ keys) :
    (t.removeAll keys).data.find? key = none := by
  induction keys generalizing t with
  | nil => cases hk
  | cons k keys ih =>
    by_cases hrest : key ∈ keys
    · exact ih (h.remove k) hrest
    · obtain rfl : key = k := (List.mem_cons.mp hk).resolve_right hrest
      exact (untouched_removeAll (h.remove key) hrest).value.trans (gone_remove h key).1

theorem untouched_place (h : t.Sane) (hne : key ≠ other) (v : Value) : Untouched key t (t.place other v) :=
  (SameBut.place h other v).untouched hne

theorem untouched_text (h : t.Sane) (hne : key ≠ other) (v : Value) :
    Untouched key t ((t.place other v).undate other) :=
  (untouched_place h hne v).trans ((SameBut.undate (h.place other v) other).untouched hne)

/-- The removals come before the value is put down, and the record after it. -/
theorem move_spec (h : t.Sane) {source target : Bytes} (hne : source ≠ target) (v : Value) :
    (∀ key, key ≠ source → key ≠ target → Untouched key t (t.move now source target v)) ∧
      (t.move now source target v).data.find? source = none ∧
      (t.move now source target v).deadlines.find? target = t.deadlines.find? source := by
  have hs := h.remove source
  have ht := hs.remove target
  have hp := ht.place target v
  have hother : ∀ key, key ≠ source → key ≠ target →
      Untouched key t (((t.remove source).remove target).place target v) := fun key hks hkt =>
    (untouched_remove h hks).trans ((untouched_remove hs hkt).trans (untouched_place ht hkt v))
  have hgone : (((t.remove source).remove target).place target v).data.find? source = none :=
    ((untouched_remove hs hne).trans (untouched_place ht hne v)).value.trans (gone_remove h source).1
  have hundated : (((t.remove source).remove target).place target v).deadlines.find? target = none :=
    (gone_remove hs target).2
  unfold move
  cases t.deadlines.find? source with
  | none => exact ⟨hother, hgone, hundated⟩
  | some time =>
    have hdated := SameBut.date hp now target time
    refine ⟨fun key hks hkt => (hother key hks hkt).trans (hdated.untouched hkt), ?_, ?_⟩
    · exact (hdated.untouched hne).value.trans hgone
    · exact Close.find?_deadlines_date hp now target time

/-! ## Effects -/

theorem Effect.untouched (he : Effect now request t result t') (h : t.Sane) (hk : key ∉ request.writes) :
    Untouched key t t' := by
  have hother : ∀ use other, request.setUse? = some (use, other) → key ≠ other := by
    rintro use other hu rfl
    rw [Request.writes_of_setUse hu] at hk
    exact hk (List.mem_singleton_self key)
  cases he with
  | idle => exact .refl key t
  | set _ other value => exact untouched_text h (List.ne_of_not_mem_cons hk) _
  | setFor _ other value seconds =>
    have hne := List.ne_of_not_mem_cons hk
    have hdated := SameBut.date ((h.place other (.text value)).undate other) now other
      (laterBy now (millisOfSeconds seconds))
    exact (untouched_text h hne _).trans (hdated.untouched hne)
  | setNew value => exact untouched_place h (List.ne_of_not_mem_cons hk) _
  | delete => exact untouched_removeAll h hk
  | expire _ other => exact (SameBut.date h now other _).untouched (List.ne_of_not_mem_cons hk)
  | expireMillis _ other => exact (SameBut.date h now other _).untouched (List.ne_of_not_mem_cons hk)
  | persist _ other => exact (SameBut.undate h other).untouched (List.ne_of_not_mem_cons hk)
  | rename hne =>
    obtain ⟨hks, hk⟩ := List.ne_and_not_mem_of_not_mem_cons hk
    exact (move_spec h hne _).1 key hks (List.ne_of_not_mem_cons hk)
  | add _ _ s hu => exact untouched_place h (hother _ _ hu) _
  | shrink hu => exact untouched_place h (hother _ _ hu) _
  | drain hu => exact untouched_remove h (hother _ _ hu)
  | storeNone _ n hu => exact untouched_remove h (hother _ _ hu)
  | store _ n s hu =>
    exact (untouched_remove h (hother _ _ hu)).trans (untouched_place (h.remove _) (hother _ _ hu) _)

theorem Effect.redated (he : Effect now request t result t') (h : t.Sane) {reply : Reply}
    {record : Option Nat} (hr : result = .ok reply) (hd : Redates now t key request reply record) :
    t'.deadlines.find? key = record := by
  cases he with
  | idle hi => exact hi key reply record hr hd
  | set =>
    cases hd
    exact Close.find?_deadlines_drop h key
  | setFor =>
    cases hd
    exact Close.find?_deadlines_date ((h.place key _).undate key) now key _
  | setNew => cases hd
  | delete => cases hd
  | expire =>
    cases hd
    exact Close.find?_deadlines_date h now key _
  | expireMillis =>
    cases hd
    exact Close.find?_deadlines_date h now key _
  | persist =>
    cases hd
    exact Close.find?_deadlines_drop h key
  | rename hne hlive =>
    cases hd
    rw [(move_spec h hne _).2.2]
    unfold deadline
    rw [hlive]
    rfl
  | add _ _ s hu => cases (hd.of_setUse hu).1
  | shrink hu => cases (hd.of_setUse hu).1
  | drain hu => cases (hd.of_setUse hu).1
  | storeNone _ n hu =>
    obtain ⟨-, rfl, rfl⟩ := hd.of_setUse hu
    exact (gone_remove h _).2
  | store _ n s hu =>
    obtain ⟨-, rfl, rfl⟩ := hd.of_setUse hu
    exact (gone_remove h _).2

theorem Effect.kept_or_redates (he : Effect now request t result t') (h : t.Sane)
    (hv : (t'.data.find? key).isSome) :
    t'.deadlines.find? key = t.deadlines.find? key ∨
      ∃ reply record, result = .ok reply ∧ Redates now t key request reply record := by
  by_cases hk : key ∈ request.writes
  · have hself : ∀ use other, request.setUse? = some (use, other) → key = other := by
      intro use other hu
      rw [Request.writes_of_setUse hu] at hk
      exact List.mem_singleton.mp hk
    cases he with
    | idle => exact .inl rfl
    | set _ other value =>
      obtain rfl := List.mem_singleton.mp hk
      exact .inr ⟨_, _, rfl, .set value⟩
    | setFor _ other value seconds =>
      obtain rfl := List.mem_singleton.mp hk
      exact .inr ⟨_, _, rfl, .setFor value seconds⟩
    | setNew => exact .inl rfl
    | delete _ keys =>
      have hgone : (t.removeAll keys).data.find? key = none := gone_removeAll h hk
      rw [hgone] at hv
      cases hv
    | expire _ other seconds condition =>
      obtain rfl := List.mem_singleton.mp hk
      exact .inr ⟨_, _, rfl, .expire seconds condition⟩
    | expireMillis _ other millis condition =>
      obtain rfl := List.mem_singleton.mp hk
      exact .inr ⟨_, _, rfl, .expireMillis millis condition⟩
    | persist =>
      obtain rfl := List.mem_singleton.mp hk
      cases hf : t.deadlines.find? key with
      | none => exact .inl (Close.find?_deadlines_drop h key)
      | some time => exact .inr ⟨_, _, rfl, .persist⟩
    | rename hne =>
      rcases List.mem_cons.mp hk with rfl | hk
      · rw [(move_spec h hne _).2.1] at hv
        cases hv
      · obtain rfl := List.mem_singleton.mp hk
        exact .inr ⟨_, _, rfl, .rename _⟩
    | add => exact .inl rfl
    | shrink => exact .inl rfl
    | drain hu =>
      obtain rfl := hself _ _ hu
      rw [(gone_remove h key).1] at hv
      cases hv
    | storeNone _ n hu =>
      obtain rfl := hself _ _ hu
      exact .inr ⟨_, _, rfl, redates_store hu n⟩
    | store _ n s hu =>
      obtain rfl := hself _ _ hu
      exact .inr ⟨_, _, rfl, redates_store hu n⟩
  · exact .inl (he.untouched h hk).record

/-- An addition leaves the record alone, whether it goes through or not. -/
theorem Effect.added (he : Effect now request t result t') (hu : request.setUse? = some (.add, key)) :
    t'.deadlines.find? key = t.deadlines.find? key := by
  cases he with
  | idle => rfl
  | add => rfl
  | shrink hu' | drain hu' | storeNone _ _ hu' | store _ _ _ hu' =>
    rw [hu] at hu'
    cases hu'
  | _ => cases hu

theorem Effect.taken (he : Effect now request t result t') (h : t.Sane)
    (hu : request.setUse? = some (.take, key)) : Taken key t result t' := by
  unfold Taken
  cases he with
  | idle _ hno =>
    split
    · rename_i s hs
      exact absurd hs (hno key s hu)
    · exact .refl key t
  | @shrink _ _ _ reply s s' hu' hs hc hpos =>
    rw [hu] at hu'
    cases hu'
    rw [hs]
    refine ⟨reply, rfl, ?_⟩
    rw [if_neg (by omega)]
    exact ⟨⟨s', find?_place h key _, hc⟩, rfl⟩
  | @drain _ _ _ reply s hu' hs hc =>
    rw [hu] at hu'
    cases hu'
    rw [hs]
    refine ⟨reply, rfl, ?_⟩
    rw [if_pos hc]
    exact gone_remove h key
  | add _ _ _ hu' | storeNone _ _ hu' | store _ _ _ hu' =>
    rw [hu] at hu'
    cases hu'
  | _ => cases hu

theorem Effect.refused {value : Bytes} (he : Effect now (.setNew key value) t result t')
    (hv : (t.data.find? key).isSome) : Untouched key t t' := by
  cases he with
  | idle => exact .refl key t
  | setNew _ hn =>
    rw [hn] at hv
    cases hv
  | add _ _ _ hu | shrink hu | drain hu | storeNone _ _ hu | store _ _ _ hu => cases hu

theorem Effect.framed (he : Effect now request t result t') (h : t.Sane) (key : Bytes) :
    Framed now key request t result t' where
  others := he.untouched h
  record := he.kept_or_redates h
  redated _ _ := he.redated h
  added := he.added
  taken := he.taken h
  refused := by
    rintro value rfl hv
    exact he.refused hv

/-! ## Requests -/

theorem Redates.congr {reply : Reply} {record : Option Nat} (hd : ∀ key, t.deadline now key = ks.deadline now key)
    (h : Redates now t key request reply record) : Redates now ks key request reply record := by
  cases h with
  | rename source => exact hd source ▸ .rename source
  | _ => constructor

/-- Looks that come first leave the frame as it is. -/
theorem Framed.after_looks (hf : Framed now key request t result t') (hlooks : Changed Change.IsLook now ks t)
    (h : ks.Sane) (hd : ks.due now key = false) : Framed now key request ks result t' := by
  have hu := hlooks.untouched h hd
  have hdeadline : ∀ k, t.deadline now k = ks.deadline now k := (hlooks.close h).deadline
  constructor
  · exact fun hk => hu.trans (hf.others hk)
  · intro hv
    rcases hf.record hv with hsame | ⟨reply, record, hr, hrd⟩
    · exact .inl (hsame.trans hu.record)
    · exact .inr ⟨reply, record, hr, hrd.congr hdeadline⟩
  · exact fun reply record hr hrd => hf.redated reply record hr (hrd.congr fun k => (hdeadline k).symm)
  · exact fun hk => (hf.added hk).trans hu.record
  · intro hk
    have htaken := hf.taken hk
    unfold Taken at *
    rw [hu.value, hu.record] at htaken
    split at htaken
    · exact htaken
    · exact hu.trans htaken
  · exact fun value hr hv => hu.trans (hf.refused value hr (hu.value ▸ hv))

theorem Reachable.parallel (h : Reachable ks) : Parallel ks ks := by
  induction h with
  | new config supply => exact parallel_new rfl supply supply
  | step e _ ih => exact (ih.step e).2

/-- Whatever state a keyspace has come to, a request other than a flush leaves a key that is not due in the
frame. -/
theorem handle_framed (hreach : Reachable ks) (hr : request ≠ .flush) (hd : ks.due now key = false) :
    Framed now key request ks (ks.handle now request).1 (ks.handle now request).2 := by
  obtain ⟨t, hlooks, he⟩ := handle_acts hreach.parallel hr
  exact (he.framed (hlooks.sane hreach.sane) key).after_looks hlooks hreach.sane hd

/-- The value and its deadline, still to come, stand while another key is deleted. -/
theorem handle_framed_delete :
    let ks := standard.after (.request 0 (.setFor [1] [2] 9))
    let ks' := (ks.handle 5 (.delete [[3]])).2
    Reachable ks ∧ Request.delete [[3]] ≠ .flush ∧ ks.due 5 [1] = false ∧
      ks'.data.find? [1] = some (.text [2]) ∧ ks'.deadlines.find? [1] = some 9000 := by
  intro ks ks'
  have hreach : Reachable ks := .step _ (.new _ _)
  obtain ⟨hvalue, hrecord⟩ := standard_setFor [1] [2] 9 [1]
  have hdue : ks.due 5 [1] = false := by
    rw [due, hrecord]
    rfl
  have hflush : Request.delete [[3]] ≠ .flush := by
    intro h
    cases h
  obtain ⟨hv, hr⟩ := (handle_framed hreach hflush hdue).others (by simp [Request.writes])
  exact ⟨hreach, hflush, hdue, hv.trans hvalue, hr.trans hrecord⟩

end KeyEngine.Keyspace
