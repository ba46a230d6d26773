import KeyEngine.Proofs.Keyspace.Sane
import Mathlib.Data.Set.Insert

/-!
# Close keyspaces

Two keyspaces are close at a time if they hold the same but for keys that are due: such a key counts as
gone, whether it has been purged yet or not. A command that purges a key before it uses it cannot tell
close keyspaces apart, and leaves them close. Timers are compared only where `same` holds, so that
keyspaces whose timers have nothing to do with one another may be close as well.
-/

namespace KeyEngine.Keyspace

def value (now : Nat) (ks : Keyspace) (key : Bytes) : Option Value :=
  if ks.due now key then none else ks.data.find? key

def deadline (now : Nat) (ks : Keyspace) (key : Bytes) : Option Nat :=
  if ks.due now key then none else ks.deadlines.find? key

/-- The keys in `K` have been looked at, and are not due on either side. -/
structure Close (same : Prop) (now : Nat) (K : Set Bytes) (ks ks' : Keyspace) : Prop where
  left : ks.Sane
  right : ks'.Sane
  config : ks.config = ks'.config
  supply : ks.supply = ks'.supply
  made : ks.made = ks'.made
  locks : ks.locks = ks'.locks
  value : ∀ key, ks.value now key = ks'.value now key
  deadline : ∀ key, ks.deadline now key = ks'.deadline now key
  settled : ∀ key ∈ K, ks.due now key = false ∧ ks'.due now key = false
  timer : same → ks.timer.Agree (fun key => (ks.deadline now key).isSome) ks'.timer

variable {same : Prop} {now : Nat} {K K' : Set Bytes} {ks ks' : Keyspace}

namespace Close

theorem symm (h : Close same now K ks ks') : Close same now K ks' ks where
  left := h.right
  right := h.left
  config := h.config.symm
  supply := h.supply.symm
  made := h.made.symm
  locks := h.locks.symm
  value key := (h.value key).symm
  deadline key := (h.deadline key).symm
  settled key hk := (h.settled key hk).symm
  timer hs := by
    simp only [← h.deadline]
    exact (h.timer hs).symm

theorem mono (h : Close same now K ks ks') (hK : K' ⊆ K) : Close same now K' ks ks' :=
  { h with settled := fun key hk => h.settled key (hK hk) }

theorem refl (h : ks.Sane) : Close same now ∅ ks ks where
  left := h
  right := h
  config := rfl
  supply := rfl
  made := rfl
  locks := rfl
  value _ := rfl
  deadline _ := rfl
  settled _ hk := absurd hk (Set.notMem_empty _)
  timer _ := .refl _ _

theorem trans {ks'' : Keyspace} (h : Close same now K ks ks') (h' : Close same now K ks' ks'') :
    Close same now K ks ks'' where
  left := h.left
  right := h'.right
  config := h.config.trans h'.config
  supply := h.supply.trans h'.supply
  made := h.made.trans h'.made
  locks := h.locks.trans h'.locks
  value key := (h.value key).trans (h'.value key)
  deadline key := (h.deadline key).trans (h'.deadline key)
  settled key hk := ⟨(h.settled key hk).1, (h'.settled key hk).2⟩
  timer hs := by
    have ht' := h'.timer hs
    simp only [← h.deadline] at ht'
    exact (h.timer hs).trans ht'

/-! ### Keys that have been looked at -/

theorem find?_data (h : Close same now K ks ks') {key : Bytes} (hk : key ∈ K) :
    ks.data.find? key = ks'.data.find? key := by
  obtain ⟨hd, hd'⟩ := h.settled key hk
  have := h.value key
  unfold Keyspace.value at this
  rwa [hd, hd'] at this

theorem find?_deadlines (h : Close same now K ks ks') {key : Bytes} (hk : key ∈ K) :
    ks.deadlines.find? key = ks'.deadlines.find? key := by
  obtain ⟨hd, hd'⟩ := h.settled key hk
  have := h.deadline key
  unfold Keyspace.deadline at this
  rwa [hd, hd'] at this

end Close

/-! ## Changes of one key -/

/-- The keyspaces differ in what they hold under the key, and in their timers. -/
structure SameBut (key : Bytes) (ks ks' : Keyspace) : Prop where
  config : ks'.config = ks.config
  supply : ks'.supply = ks.supply
  made : ks'.made = ks.made
  locks : ks'.locks = ks.locks
  data : ∀ other, other ≠ key → ks'.data.find? other = ks.data.find? other
  deadlines : ∀ other, other ≠ key → ks'.deadlines.find? other = ks.deadlines.find? other

namespace SameBut

variable {key : Bytes}

theorem refl (key : Bytes) (ks : Keyspace) : SameBut key ks ks :=
  ⟨rfl, rfl, rfl, rfl, fun _ _ => rfl, fun _ _ => rfl⟩

theorem due (h : SameBut key ks ks') (now : Nat) {other : Bytes} (ho : other ≠ key) :
    ks'.due now other = ks.due now other := by
  unfold Keyspace.due
  rw [h.deadlines other ho]

theorem value (h : SameBut key ks ks') (now : Nat) {other : Bytes} (ho : other ≠ key) :
    ks'.value now other = ks.value now other := by
  unfold Keyspace.value
  rw [h.due now ho, h.data other ho]

theorem deadline (h : SameBut key ks ks') (now : Nat) {other : Bytes} (ho : other ≠ key) :
    ks'.deadline now other = ks.deadline now other := by
  unfold Keyspace.deadline
  rw [h.due now ho, h.deadlines other ho]

theorem erase (h : ks.Sane) (key : Bytes) (cancel : Bool) : SameBut key ks (ks.erase key cancel) where
  config := rfl
  supply := rfl
  made := rfl
  locks := rfl
  data other ho := (Store.find?_drop h.data key other).trans (if_neg (Ne.symm ho))
  deadlines other ho := (Store.find?_drop h.deadlines key other).trans (if_neg (Ne.symm ho))

theorem undate (h : ks.Sane) (key : Bytes) : SameBut key ks (ks.undate key) where
  config := rfl
  supply := rfl
  made := rfl
  locks := rfl
  data _ _ := rfl
  deadlines other ho := (Store.find?_drop h.deadlines key other).trans (if_neg (Ne.symm ho))

theorem date (h : ks.Sane) (now : Nat) (key : Bytes) (time : Nat) :
    SameBut key ks (ks.date now key time) where
  config := rfl
  supply := rfl
  made := rfl
  locks := rfl
  data _ _ := rfl
  deadlines other ho := (Store.find?_put h.deadlines key time other).trans (if_neg (Ne.symm ho))

theorem place (h : ks.Sane) (key : Bytes) (v : Value) : SameBut key ks (ks.place key v) where
  config := rfl
  supply := rfl
  made := rfl
  locks := rfl
  data other ho := (Store.find?_put h.data key v other).trans (if_neg (Ne.symm ho))
  deadlines _ _ := rfl

end SameBut

/-- Changes of one key on both sides keep keyspaces close if they leave the same under it. -/
theorem Close.change (h : Close same now K ks ks') {key : Bytes} {t t' : Keyspace}
    (ht : t.Sane) (ht' : t'.Sane) (hb : SameBut key ks t) (hb' : SameBut key ks' t')
    (hv : t.value now key = t'.value now key) (hd : t.deadline now key = t'.deadline now key)
    (hK : ∀ k ∈ K', if k = key then t.due now key = false ∧ t'.due now key = false else k ∈ K)
    (htimer : same → t.timer.Agree (fun k => (t.deadline now k).isSome) t'.timer) :
    Close same now K' t t' where
  left := ht
  right := ht'
  config := by rw [hb.config, hb'.config, h.config]
  supply := by rw [hb.supply, hb'.supply, h.supply]
  made := by rw [hb.made, hb'.made, h.made]
  locks := by rw [hb.locks, hb'.locks, h.locks]
  value := by
    intro k
    by_cases hk : k = key
    · rw [hk, hv]
    · rw [hb.value now hk, hb'.value now hk, h.value]
  deadline := by
    intro k
    by_cases hk : k = key
    · rw [hk, hd]
    · rw [hb.deadline now hk, hb'.deadline now hk, h.deadline]
  settled := by
    intro k hk
    have := hK k hk
    split at this
    · rename_i he
      rw [he]
      exact this
    · rename_i hne
      rw [hb.due now hne, hb'.due now hne]
      exact h.settled k this
  timer := htimer

namespace Close

variable {key : Bytes}

theorem due_of_absent (hn : ks.deadlines.find? key = none) : ks.due now key = false := by
  unfold due
  rw [hn]
  rfl

theorem deadline_of_absent (hn : ks.deadlines.find? key = none) : ks.deadline now key = none := by
  unfold Keyspace.deadline
  rw [due_of_absent hn]
  exact hn

theorem find?_deadlines_drop (h : ks.Sane) (key : Bytes) :
    (ks.deadlines.drop key).find? key = none := by
  rw [Store.find?_drop h.deadlines, if_pos rfl]

/-! ### Erasing -/

theorem due_erase (h : ks.Sane) (key : Bytes) (cancel : Bool) :
    (ks.erase key cancel).due now key = false :=
  due_of_absent (find?_deadlines_drop h key)

theorem value_erase (h : ks.Sane) (key : Bytes) (cancel : Bool) :
    (ks.erase key cancel).value now key = none := by
  unfold Keyspace.value
  rw [due_erase h]
  show (ks.data.drop key).find? key = none
  rw [Store.find?_drop h.data, if_pos rfl]

theorem deadline_erase (h : ks.Sane) (key : Bytes) (cancel : Bool) :
    (ks.erase key cancel).deadline now key = none :=
  deadline_of_absent (find?_deadlines_drop h key)

theorem deadline_of_sameBut {t : Keyspace} (hb : SameBut key ks t)
    (hn : t.deadline now key = none) {k : Bytes} (hk : (t.deadline now k).isSome) :
    (ks.deadline now k).isSome := by
  by_cases he : k = key
  · rw [he, hn] at hk
    cases hk
  · rwa [hb.deadline now he] at hk

theorem agree_cancel_if {L : Bytes → Bool} {t t' : Timer Bytes} (h : t.Agree L t') (ht : t.Sound)
    (hL : L key = false) (cancel : Bool) : (if cancel then t.cancel key else t).Agree L t' := by
  cases cancel with
  | false => exact h
  | true => exact h.cancel_left ht hL

theorem agree_cancel_both {L : Bytes → Bool} {t t' : Timer Bytes} (h : t.Agree L t')
    (ht : t.Sound) (ht' : t'.Sound) (hL : L key = false) (cancel cancel' : Bool) :
    (if cancel then t.cancel key else t).Agree L (if cancel' then t'.cancel key else t') := by
  apply agree_cancel_if _ ht hL
  apply Timer.Agree.symm
  apply agree_cancel_if _ ht' hL
  exact h.symm

/-- A key that counts as gone may be erased on one side only. -/
theorem erase_left (h : Close same now K ks ks') (hv : ks.value now key = none)
    (hd : ks.deadline now key = none) {cancel : Bool} (hs : (ks.erase key cancel).Sane) :
    Close same now K (ks.erase key cancel) ks' := by
  have hb := SameBut.erase h.left key cancel
  apply h.change hs h.right hb (.refl key ks')
  · rw [value_erase h.left, ← h.value, hv]
  · rw [deadline_erase h.left, ← h.deadline, hd]
  · intro k hk
    split
    · rename_i he
      exact ⟨due_erase h.left key cancel, (h.settled key (he ▸ hk)).2⟩
    · exact hk
  · intro hsame
    apply agree_cancel_if _ h.left.timer
    · rw [deadline_erase h.left]
      rfl
    · apply (h.timer hsame).mono
      intro k
      exact deadline_of_sameBut hb (deadline_erase h.left key cancel)

theorem value_of_due (hd : ks.due now key = true) : ks.value now key = none := by
  unfold Keyspace.value
  rw [hd]
  rfl

theorem deadline_of_due (hd : ks.due now key = true) : ks.deadline now key = none := by
  unfold Keyspace.deadline
  rw [hd]
  rfl

theorem purge_left (h : Close same now K ks ks') (key : Bytes) :
    Close same now K (ks.purge now key) ks' := by
  unfold purge
  split
  · rename_i hd
    exact h.erase_left (value_of_due hd) (deadline_of_due hd) (h.left.erase nofun)
  · exact h

theorem due_purge_self (h : ks.Sane) (now : Nat) (key : Bytes) :
    (ks.purge now key).due now key = false := by
  unfold purge
  split
  · exact due_erase h key true
  · rename_i hd
    exact eq_false_of_ne_true hd

theorem purge (h : Close same now K ks ks') (key : Bytes) :
    Close same now (insert key K) (ks.purge now key) (ks'.purge now key) := by
  have hp := (h.purge_left key).symm.purge_left key
  have hp := hp.symm
  refine { hp with settled := ?_ }
  rintro k (rfl | hk)
  · exact ⟨due_purge_self h.left now k, due_purge_self h.right now k⟩
  · exact hp.settled k hk

theorem erase (h : Close same now K ks ks') {cancel cancel' : Bool}
    (hs : (ks.erase key cancel).Sane) (hs' : (ks'.erase key cancel').Sane) :
    Close same now (insert key K) (ks.erase key cancel) (ks'.erase key cancel') := by
  have hb := SameBut.erase h.left key cancel
  have hb' := SameBut.erase h.right key cancel'
  have hL : ((ks.erase key cancel).deadline now key).isSome = false := by
    rw [deadline_erase h.left]
    rfl
  apply h.change hs hs' hb hb'
  · rw [value_erase h.left, value_erase h.right]
  · rw [deadline_erase h.left, deadline_erase h.right]
  · intro k hk
    split
    · exact ⟨due_erase h.left key cancel, due_erase h.right key cancel'⟩
    · rename_i hne
      exact hk.resolve_left hne
  · intro hsame
    apply agree_cancel_both _ h.left.timer h.right.timer hL
    apply (h.timer hsame).mono
    intro k
    exact deadline_of_sameBut hb (deadline_erase h.left key cancel)

/-! ### Deadlines -/

theorem due_undate (h : ks.Sane) (key : Bytes) : (ks.undate key).due now key = false :=
  due_of_absent (find?_deadlines_drop h key)

theorem value_undate (h : ks.Sane) (key : Bytes) :
    (ks.undate key).value now key = ks.data.find? key := by
  unfold Keyspace.value
  rw [due_undate h]
  rfl

theorem deadline_undate (h : ks.Sane) (key : Bytes) : (ks.undate key).deadline now key = none :=
  deadline_of_absent (find?_deadlines_drop h key)

theorem undate (h : Close same now K ks ks') (hk : key ∈ K) :
    Close same now K (ks.undate key) (ks'.undate key) := by
  have hb := SameBut.undate h.left key
  have hL : ((ks.undate key).deadline now key).isSome = false := by
    rw [deadline_undate h.left]
    rfl
  apply h.change (h.left.undate key) (h.right.undate key) hb (.undate h.right key)
  · rw [value_undate h.left, value_undate h.right, h.find?_data hk]
  · rw [deadline_undate h.left, deadline_undate h.right]
  · intro k hkK
    split
    · exact ⟨due_undate h.left key, due_undate h.right key⟩
    · exact hkK
  · intro hsame
    apply agree_cancel_both _ h.left.timer h.right.timer hL
    apply (h.timer hsame).mono
    intro k
    exact deadline_of_sameBut hb (deadline_undate h.left key)

theorem undate_absent (h : ks.Sane) (hn : ks.deadlines.find? key = none) :
    Close same now ∅ (ks.undate key) ks := by
  have hd : ks.due now key = false := due_of_absent hn
  apply (refl h).change (h.undate key) h (.undate h key) (.refl key ks)
  · rw [value_undate h]
    unfold Keyspace.value
    rw [hd]
    rfl
  · rw [deadline_undate h, deadline_of_absent hn]
  · intro k hk
    exact absurd hk (Set.notMem_empty k)
  · intro _
    unfold Keyspace.undate
    rw [hn]
    exact .refl _ _

theorem find?_deadlines_date (h : ks.Sane) (now : Nat) (key : Bytes) (time : Nat) :
    (ks.date now key time).deadlines.find? key = some time :=
  (Store.find?_put h.deadlines key time key).trans (if_pos rfl)

/-- A new deadline may be due at once, so its key has to be looked at again. -/
theorem date (h : Close same now K ks ks') (hk : key ∈ K) (hv : (ks.data.find? key).isSome)
    (time : Nat) :
    Close same now (K \ {key}) (ks.date now key time) (ks'.date now key time) := by
  have hv' : (ks'.data.find? key).isSome := by rwa [← h.find?_data hk]
  have hb := SameBut.date h.left now key time
  have hf := find?_deadlines_date h.left now key time
  have hf' := find?_deadlines_date h.right now key time
  have hd : (ks.date now key time).due now key = (ks'.date now key time).due now key := by
    unfold due
    rw [hf, hf']
  apply h.change (h.left.date hv now time) (h.right.date hv' now time) hb
    (.date h.right now key time)
  · unfold Keyspace.value
    rw [hd]
    show (if _ then none else ks.data.find? key) = if _ then none else ks'.data.find? key
    rw [h.find?_data hk]
  · unfold Keyspace.deadline
    rw [hd, hf, hf']
  · intro k hkK
    have hne : k ≠ key := hkK.2
    rw [if_neg hne]
    exact hkK.1
  · intro hsame
    apply (h.timer hsame).add h.left.timer h.right.timer
    intro k hne hl
    rwa [hb.deadline now hne] at hl

/-! ### Values -/

theorem due_place (ks : Keyspace) (key : Bytes) (v : Value) :
    (ks.place key v).due now = ks.due now :=
  rfl

theorem place (h : Close same now K ks ks') (hk : key ∈ K) (v : Value) :
    Close same now K (ks.place key v) (ks'.place key v) := by
  obtain ⟨hd, hd'⟩ := h.settled key hk
  have hvalue : ∀ s : Keyspace, s.Sane → s.due now key = false →
      (s.place key v).value now key = some v := by
    intro s hs hn
    unfold Keyspace.value
    rw [due_place, hn]
    exact find?_place hs key v
  apply h.change (h.left.place key v) (h.right.place key v) (.place h.left key v)
    (.place h.right key v)
  · rw [hvalue ks h.left hd, hvalue ks' h.right hd']
  · exact h.deadline key
  · intro k hkK
    split
    · exact ⟨hd, hd'⟩
    · exact hkK
  · exact h.timer

theorem make (h : Close same now K ks ks') :
    Close same now K { ks with made := ks.made + 1 } { ks' with made := ks'.made + 1 } where
  left := h.left.make
  right := h.right.make
  config := h.config
  supply := h.supply
  made := congrArg (· + 1) h.made
  locks := h.locks
  value := h.value
  deadline := h.deadline
  settled := h.settled
  timer := h.timer

/-! ### All keys at once -/

theorem cancelAll_left {L : Bytes → Bool} {t t' : Timer Bytes} (h : t.Agree L t') (ht : t.Sound)
    (hL : ∀ k, L k = false) (keys : List Bytes) : (cancelAll t keys).Agree L t' := by
  induction keys generalizing t with
  | nil => exact h
  | cons key keys ih => exact ih (h.cancel_left ht (hL key)) (ht.cancel key)

theorem due_undateAll (ks : Keyspace) (data : Store Value) (key : Bytes) :
    (ks.undateAll data).due now key = false := by
  unfold due
  show (ks.deadlines.clear.find? key).any _ = false
  rw [Store.find?_clear]
  rfl

theorem deadline_undateAll (ks : Keyspace) (data : Store Value) (key : Bytes) :
    (ks.undateAll data).deadline now key = none := by
  unfold Keyspace.deadline
  rw [due_undateAll]
  exact Store.find?_clear _ _

theorem flush (h : Close same now K ks ks') :
    Close same now K (ks.undateAll ks.data.clear) (ks'.undateAll ks'.data.clear) where
  left := h.left.undateAll h.left.data.clear
  right := h.right.undateAll h.right.data.clear
  config := h.config
  supply := h.supply
  made := h.made
  locks := h.locks
  value := by
    intro key
    unfold Keyspace.value
    rw [due_undateAll, due_undateAll]
    exact (Store.find?_clear _ _).trans (Store.find?_clear _ _).symm
  deadline := by
    intro key
    rw [deadline_undateAll, deadline_undateAll]
  settled key _ := ⟨due_undateAll _ _ _, due_undateAll _ _ _⟩
  timer := by
    intro hsame
    simp only [deadline_undateAll]
    apply cancelAll_left _ h.left.timer (fun _ => rfl)
    apply Timer.Agree.symm
    apply cancelAll_left _ h.right.timer (fun _ => rfl)
    apply Timer.Agree.symm
    exact (h.timer hsame).mono nofun

/-! ### The clock -/

theorem due_mono {later : Nat} (hl : now ≤ later) {key : Bytes} (hd : ks.due now key = true) :
    ks.due later key = true := by
  unfold due at *
  cases hf : ks.deadlines.find? key with
  | none => simp [hf] at hd
  | some time =>
    simp only [hf, Option.any_some, decide_eq_true_eq] at hd ⊢
    exact Nat.le_trans hd hl

theorem value_later {later : Nat} (hl : now ≤ later) (ks : Keyspace) (key : Bytes) :
    ks.value later key =
      if (ks.deadline now key).any (· ≤ later) then none else ks.value now key := by
  unfold Keyspace.value Keyspace.deadline
  cases hd : ks.due now key with
  | true =>
    rw [due_mono hl hd]
    rfl
  | false => rfl

theorem deadline_later {later : Nat} (hl : now ≤ later) (ks : Keyspace) (key : Bytes) :
    ks.deadline later key =
      if (ks.deadline now key).any (· ≤ later) then none else ks.deadline now key := by
  unfold Keyspace.deadline
  cases hd : ks.due now key with
  | true =>
    rw [due_mono hl hd]
    rfl
  | false => rfl

/-- Close keyspaces stay close as time goes by, though more keys become due. -/
theorem later {later : Nat} (h : Close same now K ks ks') (hl : now ≤ later) :
    Close same later ∅ ks ks' :=
  { h with
    value := by
      intro key
      rw [value_later hl, value_later hl, h.value, h.deadline]
    deadline := by
      intro key
      rw [deadline_later hl, deadline_later hl, h.deadline]
    settled := fun _ hk => absurd hk (Set.notMem_empty _)
    timer := by
      intro hsame
      apply (h.timer hsame).mono
      intro key hk
      rw [deadline_later hl] at hk
      split at hk
      · cases hk
      · exact hk }

end Close

end KeyEngine.Keyspace
