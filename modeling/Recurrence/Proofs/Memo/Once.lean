import Recurrence.Proofs.Memo.Ledger

/-!
# Computed once

In a plain cache a result stays for ever. So in the ledger of a plain memoizer a key has at most one
success, and whatever is answered for it is the value of that success, however the computations
come by their values and whatever they do with errors.

Entries come with the computations that begin and go only with those that fail, so the numbers of
both are tied to the size of the cache.
-/

namespace Recurrence.Memo

open Cache (Slot)

variable {n : Nat} {K V W : Type}

/-! ## Acts of a kind -/

/-- A call for the key comes back with a value. -/
def Act.Returns (key : K) (v : V) (a : Act K V) : Prop := a = .answered key v ∨ a = .succeeded key v

/-- Has a computation begun, or failed? -/
def Act.isStart : Act K V → Bool
  | .started _ => true
  | _ => false

def Act.isFailure : Act K V → Bool
  | .failed _ _ => true
  | _ => false

variable [DecidableEq K]

/-- Has a computation of the key succeeded? -/
def Act.isSuccessOf (key : K) : Act K V → Bool
  | .succeeded k _ => k = key
  | _ => false

/-! ## Results that stay -/

/-- In a ledger without drops a result stays. -/
theorem held_cons {a : Act K V} {acts : List (Act K V)} (h : Lawful false (a :: acts)) {key : K}
    {v : V} (hheld : held false acts key = some (.resolved v)) :
    held false (a :: acts) key = some (.resolved v) := by
  cases h.turns key with
  | started _ hbefore | succeeded _ hbefore | failed _ hbefore => cases hbefore.symm.trans hheld
  | dropped hbyHand => cases hbyHand
  | kept _ _ hsame => rw [hsame, hheld]

theorem held_of_suffix {acts acts' : List (Act K V)} (h : Lawful false acts')
    (hsuffix : acts <:+ acts') {key : K} {v : V}
    (hheld : held false acts key = some (.resolved v)) :
    held false acts' key = some (.resolved v) := by
  obtain ⟨later, rfl⟩ := hsuffix
  induction later with
  | nil => exact hheld
  | cons a later ih => exact held_cons h (ih h.2)

/-- What a call has come back with is what is held. -/
theorem held_of_returns {acts : List (Act K V)} (h : Lawful false acts) {a : Act K V} {key : K}
    {v : V} (ha : a ∈ acts) (hreturns : a.Returns key v) :
    held false acts key = some (.resolved v) := by
  induction acts with
  | nil => cases ha
  | cons b acts ih =>
    rcases List.mem_cons.mp ha with rfl | ha
    · rcases hreturns with rfl | rfl
      · exact h.1
      · simp [held, Act.turn]
    · exact held_cons h (ih h.2 ha)

theorem Act.isSuccessOf_iff {key : K} {a : Act K V} :
    a.isSuccessOf key = true ↔ ∃ v, a = .succeeded key v := by
  cases a <;> simp [Act.isSuccessOf]

/-- The successes for a key are what is held for it. -/
theorem successes_eq {acts : List (Act K V)} (h : Lawful false acts) (key : K) :
    acts.filter (Act.isSuccessOf key) = match held false acts key with
      | some (.resolved v) => [.succeeded key v]
      | _ => [] := by
  induction acts with
  | nil => rfl
  | cons a acts ih =>
    have hrest := ih h.2
    cases h.turns key with
    | started ha hbefore hafter | failed ha hbefore hafter =>
      rw [hbefore] at hrest
      rw [hafter, List.filter_cons_of_neg (by simp [ha, Act.isSuccessOf]), hrest]
    | succeeded ha hbefore hafter =>
      rw [hbefore] at hrest
      rw [hafter, List.filter_cons_of_pos (by simp [ha, Act.isSuccessOf]), hrest, ha]
    | dropped hbyHand => cases hbyHand
    | kept hno _ hsame =>
      have hfail : ¬ a.isSuccessOf key = true := fun hsuccess =>
        have ⟨v, ha⟩ := Act.isSuccessOf_iff.mp hsuccess
        hno v ha
      rw [hsame, List.filter_cons_of_neg hfail, hrest]

theorem length_successes_le {acts : List (Act K V)} (h : Lawful false acts) (key : K) :
    (acts.filter (Act.isSuccessOf key)).length ≤ 1 := by
  rw [successes_eq h]
  split <;> simp

/-! ## Entries -/

/-- The keys for which something is held. -/
def entries (acts : List (Act K V)) : Finset K :=
  (calledKeys acts).filter fun key => held false acts key ≠ none

theorem mem_entries {acts : List (Act K V)} (h : Lawful false acts) {key : K} :
    key ∈ entries acts ↔ held false acts key ≠ none := by
  rw [entries, Finset.mem_filter]
  exact and_iff_right_of_imp (mem_calledKeys_of_held h)

theorem entries_started {k : K} {acts : List (Act K V)} (h : Lawful false (.started k :: acts)) :
    entries (.started k :: acts) = insert k (entries acts) := by
  ext key
  rw [mem_entries h, Finset.mem_insert, mem_entries h.2, held, Act.turn]
  by_cases hk : k = key
  · simp [hk]
  · simp [hk, Ne.symm hk]

theorem entries_failed {k : K} {e : MemoError K} {acts : List (Act K V)}
    (h : Lawful false (.failed k e :: acts)) :
    entries (.failed k e :: acts) = (entries acts).erase k := by
  ext key
  rw [mem_entries h, Finset.mem_erase, mem_entries h.2, held, Act.turn]
  by_cases hk : k = key
  · simp [hk]
  · simp [hk, Ne.symm hk]

/-- Other acts leave the entries as they are. -/
theorem entries_cons {a : Act K V} {acts : List (Act K V)} (h : Lawful false (a :: acts))
    (hstart : a.isStart = false) (hfailure : a.isFailure = false) :
    entries (a :: acts) = entries acts := by
  ext key
  rw [mem_entries h, mem_entries h.2]
  cases h.turns key with
  | started ha | failed ha => simp [ha, Act.isStart, Act.isFailure] at hstart hfailure
  | succeeded _ hbefore hafter => simp [hbefore, hafter]
  | dropped hbyHand => cases hbyHand
  | kept _ _ hsame => rw [hsame]

/-- Every computation that has begun has its entry, unless it has failed. -/
theorem starts_eq {acts : List (Act K V)} (h : Lawful false acts) :
    acts.countP Act.isStart = (entries acts).card + acts.countP Act.isFailure := by
  induction acts with
  | nil => rfl
  | cons a acts ih =>
    have hsum := ih h.2
    cases a with
    | answered | refused | succeeded | cleared | invalidated =>
      rw [entries_cons h rfl rfl]
      simpa [Act.isStart, Act.isFailure] using hsum
    | started k =>
      have hfree : k ∉ entries acts := by
        rw [mem_entries h.2]
        exact not_not.mpr h.1
      rw [entries_started h, Finset.card_insert_of_notMem hfree,
        List.countP_cons_of_pos rfl, List.countP_cons_of_neg (by simp [Act.isFailure])]
      omega
    | failed k e =>
      have hmark : held false acts k = some .inFlight := h.1
      have hmem : k ∈ entries acts := by
        rw [mem_entries h.2, hmark]
        simp
      have hcard := Finset.card_erase_add_one hmem
      rw [entries_failed h, List.countP_cons_of_neg (by simp [Act.isStart]),
        List.countP_cons_of_pos rfl]
      omega

/-! ## Plain memoizers -/

variable {body : Fin n → K → Computation n K V W}

/-- A plain memoizer at some moment of a tale. -/
structure Plain (m : Fin n) (x : Tale n K V W) : Prop where
  policy : x.now.state.policy m = .plain
  steady : Steady m x

theorem Plain.slot? {m : Fin n} {x : Tale n K V W} (h : Plain m x) (key : K) :
    x.now.state.slot? m key = held false (actsOf m x.past) key := by
  rw [h.steady.booked.holds, h.policy]
  rfl

theorem Plain.lawful {m : Fin n} {x : Tale n K V W} (h : Plain m x) :
    Lawful false (actsOf m x.past) := by
  have hlawful := h.steady.booked.lawful
  rwa [h.policy] at hlawful

/-- **Kept by every step.** -/
theorem plain_tells {m : Fin n} {x y : Tale n K V W} (ht : Tells body x y) (h : Plain m x) :
    Plain m y :=
  ⟨(policy_tells ht m).trans h.policy, steady_tells ht h.steady⟩

/-- The size of a plain memoizer is the number of its entries. -/
theorem Plain.size_eq {m : Fin n} {x : Tale n K V W} (h : Plain m x) :
    x.now.state.size m = (entries (actsOf m x.past)).card := by
  have hkeys : (x.now.state.memo m).cache.keys = entries (actsOf m x.past) := by
    ext key
    rw [Cache.mem_keys, mem_entries h.lawful, ← h.slot?]
    rfl
  rw [← hkeys, Cache.card_keys]
  rfl

/-- A result stays for the rest of the tale. -/
theorem Plain.stays {m : Fin n} {x y : Tale n K V W} (h : Plain m x) (hlater : Told body x y)
    {key : K} {v : V} (hslot : x.now.state.slot? m key = some (.resolved v)) :
    y.now.state.slot? m key = some (.resolved v) := by
  have hy : Plain m y := hlater.keeps (fun _ _ => plain_tells) h
  rw [h.slot?] at hslot
  rw [hy.slot?]
  exact held_of_suffix hy.lawful (actsOf_suffix hlater.past_suffix) hslot

/-! ## Computations are counted -/

section

variable (s : State n K V W) (m m' : Fin n)

omit [DecidableEq K] in
theorem State.runs_setCache (c : Cache K V) :
    ((s.setCache m' c).memo m).runs = (s.memo m).runs := by
  unfold setCache
  rw [memo_setMemo]
  by_cases hm : m = m' <;> simp [hm]

theorem State.runs_started (key : K) :
    (((s.lookup m' key).2.begin m' key).memo m).runs
      = (s.memo m).runs + if m = m' then 1 else 0 := by
  have hlookup (k : Fin n) : ((s.lookup m' key).2.memo k).runs = (s.memo k).runs :=
    s.runs_setCache k m' _
  unfold begin
  rw [memo_setMemo]
  by_cases hm : m = m'
  · rw [if_pos hm, if_pos hm, hm, ← hlookup]
  · rw [if_neg hm, if_neg hm, hlookup]
    rfl

end

/-- A memoizer has counted the computations that it has started. -/
def Counted (m : Fin n) (x : Tale n K V W) : Prop :=
  (x.now.state.memo m).runs = (actsOf m x.past).countP Act.isStart

theorem counted_start (program : Computation n K V W) (policies : Vector Cache.Policy n)
    (outside : W) (m : Fin n) : Counted m (.start program policies outside) := by
  show (State.memo (State.start _ _) m).runs = 0
  rw [State.memo_start]

omit [DecidableEq K] in
/-- Something else is done than to begin a computation. -/
theorem Counted.act {m m' : Fin n} {a : Act K V} {x y : Tale n K V W} (h : Counted m x)
    (hpast : y.past = ⟨m', a⟩ :: x.past) (ha : a.isStart = false)
    (hruns : (y.now.state.memo m).runs = (x.now.state.memo m).runs) : Counted m y := by
  rw [Counted, hruns, h, hpast, actsOf]
  split
  · rw [List.countP_cons_of_neg (by simp [ha])]
  · rfl

/-- **Kept by every step.** -/
theorem counted_tells {m : Fin n} {x y : Tale n K V W} (ht : Tells body x y) (h : Counted m x) :
    Counted m y := by
  cases ht with
  | @worked a b past hs hwork =>
    cases hs with
    | @hit m' key next stack s v hl =>
      have hpast : Moment.deeds ⟨.call m' key next, stack, s⟩ = [⟨m', .answered key v⟩] := by
        rw [deeds_call, hl, Act.called]
      exact h.act (congrArg (· ++ past) hpast) rfl (s.runs_setCache m m' _)
    | @refused m' key next stack s hl =>
      have hpast : Moment.deeds ⟨.call m' key next, stack, s⟩ = [⟨m', .refused key⟩] := by
        rw [deeds_call, hl, Act.called]
      exact h.act (congrArg (· ++ past) hpast) rfl (s.runs_setCache m m' _)
    | @started m' key next stack s hl =>
      rw [Counted, deeds_call, hl, Act.called, s.runs_started m m' key, List.singleton_append,
        actsOf, h]
      by_cases hm : m' = m
      · rw [if_pos hm, if_pos hm.symm, List.countP_cons_of_pos rfl]
      · rw [if_neg hm, if_neg (Ne.symm hm), Nat.add_zero]
    | succeeded | failed | clear | invalidate => exact h.act rfl rfl (State.runs_setCache _ m _ _)
    | advance hd =>
      obtain ⟨clock, -, rfl⟩ := Option.map_eq_some_iff.mp hd
      exact h
    | probe | runs | look | leave => exact h
    | wait _ => exact absurd ⟨_, rfl⟩ hwork
  | waited _ hwait =>
    obtain ⟨t, rfl⟩ := hwait
    exact h
  | caught _ => exact h

theorem counted_told {program : Computation n K V W} {policies : Vector Cache.Policy n}
    {outside : W} {x : Tale n K V W} (h : Told body (.start program policies outside) x)
    (m : Fin n) : Counted m x :=
  h.keeps (fun _ _ => counted_tells) (counted_start program policies outside m)

/--
**A plain memoizer computes each key successfully at most once**, whatever the computations depend
on and whatever they do with errors.

The successes for a key are at most one; whatever a call for the key has come back with is the value
of that success, and so is what a call comes back with that is made now. A key that is cached stays
cached for the rest of the tale, and through every call. And of the computations that have begun,
each one has its entry or has failed.
-/
theorem plain_computes_once {program : Computation n K V W} {policies : Vector Cache.Policy n}
    {outside : W} {x : Tale n K V W} (h : Told body (.start program policies outside) x)
    {m : Fin n} (hplain : policies.get m = .plain) :
    (∀ key, ((actsOf m x.past).filter (Act.isSuccessOf key)).length ≤ 1)
    ∧ (∀ a ∈ actsOf m x.past, ∀ key v, a.Returns key v →
        (actsOf m x.past).filter (Act.isSuccessOf key) = [.succeeded key v]
        ∧ ∀ fuel w s, call body fuel m key x.now.state = .returned (.ok w) s → w = v)
    ∧ (∀ key, x.now.state.isCached m key = true →
        (∀ y, Told body x y → y.now.state.isCached m key = true)
        ∧ ∀ fuel m' k result s, call body fuel m' k x.now.state = .returned result s →
          s.isCached m key = true)
    ∧ (actsOf m x.past).countP Act.isStart
        = x.now.state.size m + (actsOf m x.past).countP Act.isFailure
    ∧ (x.now.state.memo m).runs = (actsOf m x.past).countP Act.isStart := by
  have hx : Plain m x :=
    ⟨(policy_told h m).trans hplain, steady_told h (by rw [hplain]; trivial)⟩
  -- a call that is made now finds the same caches, whatever the tale goes on with
  have hcalling (m' : Fin n) (k : K) :
      Plain m ⟨⟨.call m' k .done, x.now.stack, x.now.state⟩, x.past⟩ :=
    ⟨hx.policy, hx.steady.of_same⟩
  have hstays {fuel : Nat} {m' : Fin n} {k key : K} {result : MemoResult K V} {s : State n K V W}
      (hcall : call body fuel m' k x.now.state = .returned result s) {v : V}
      (hslot : x.now.state.slot? m key = some (.resolved v)) :
      s.slot? m key = some (.resolved v) := by
    obtain ⟨past', htold⟩ := told_of_call_returned hcall .done x.now.stack x.past
    exact (hcalling m' k).stays htold hslot
  refine ⟨length_successes_le hx.lawful, ?_, ?_, ?_, counted_told h m⟩
  · intro a ha key v hreturns
    have hheld := held_of_returns hx.lawful ha hreturns
    refine ⟨by rw [successes_eq hx.lawful, hheld], fun fuel w s hcall => ?_⟩
    have hslot := hstays hcall ((hx.slot? key).trans hheld)
    rw [slot?_of_call_returned hx.steady.lasting hcall] at hslot
    cases hslot
    rfl
  · intro key hcached
    obtain ⟨v, hslot⟩ := (State.isCached_iff hx.steady.retains.fresh).mp hcached
    refine ⟨fun y hlater => ?_, fun fuel m' k result s hcall => ?_⟩
    · have hy : Plain m y := hlater.keeps (fun _ _ => plain_tells) hx
      exact (State.isCached_iff hy.steady.retains.fresh).mpr ⟨v, hx.stays hlater hslot⟩
    · obtain ⟨past', htold⟩ := told_of_call_returned hcall .done x.now.stack x.past
      have hs : Plain m _ := htold.keeps (fun _ _ => plain_tells) (hcalling m' k)
      exact (State.isCached_iff hs.steady.retains.fresh).mpr ⟨v, hstays hcall hslot⟩
  · rw [starts_eq hx.lawful, hx.size_eq]

/-- Counts how often it runs, fails the first time, and then comes to its count. -/
def moody (_ : Fin 1) (_ : Unit) : Computation 1 Unit Nat Nat :=
  .look fun count => .leave (count + 1) <|
    .done (if count = 0 then .error (.failed "not yet") else .ok count)

/-- Asks three times. -/
def askAgain (m : Fin 1) : Computation 1 Unit Nat Nat :=
  .call m () fun _ => .call m () fun _ => .call m () .done

theorem told_askAgain : ∃ x : Tale 1 Unit Nat Nat,
    Told moody (.start (askAgain 0) #v[.plain] 0) x
    ∧ actsOf 0 x.past = [.answered () 1, .succeeded () 1, .started (),
        .failed () (.failed "not yet"), .started ()] := by
  have hfirst : Told moody (.start (askAgain 0) #v[.plain] 0) _ :=
    (((Relation.ReflTransGen.single
      (.worked (.started (by decide +kernel)) (not_waits_of_stack_ne (List.cons_ne_nil _ _)))).tail
      .look).tail
      (.worked .leave (not_waits_of_left .leave))).tail
      (.worked .failed (not_waits_of_stack_ne (List.cons_ne_nil _ _).symm))
  have hsecond : Told moody (.start (askAgain 0) #v[.plain] 0) _ :=
    (((hfirst.tail
      (.worked (.started (by decide +kernel)) (not_waits_of_stack_ne (List.cons_ne_nil _ _)))).tail
      .look).tail
      (.worked .leave (not_waits_of_left .leave))).tail
      (.worked .succeeded (not_waits_of_stack_ne (List.cons_ne_nil _ _).symm))
  have hthird : Told moody (.start (askAgain 0) #v[.plain] 0) _ :=
    hsecond.tail (.worked (.hit (v := 1) (by decide +kernel)) (not_waits_of_left (.call _)))
  exact ⟨_, hthird, by decide +kernel⟩

/-- Two computations have begun, of which one has failed; there is one entry. -/
theorem plain_computes_once_askAgain : ∃ x : Tale 1 Unit Nat Nat,
    Told moody (.start (askAgain 0) #v[.plain] 0) x
    ∧ (actsOf 0 x.past).filter (Act.isSuccessOf ()) = [.succeeded () 1]
    ∧ (actsOf 0 x.past).countP Act.isStart = 2
    ∧ x.now.state.size 0 = 1
    ∧ (x.now.state.memo 0).runs = 2 := by
  obtain ⟨x, hx, hacts⟩ := told_askAgain
  obtain ⟨-, hreturns, -, hsum, hruns⟩ := plain_computes_once hx (m := 0) rfl
  have hanswered : Act.answered () 1 ∈ actsOf 0 x.past := by
    rw [hacts]
    exact List.mem_cons_self
  have hstarts : (actsOf 0 x.past).countP Act.isStart = 2 := by
    rw [hacts]
    rfl
  have hfailures : (actsOf 0 x.past).countP Act.isFailure = 1 := by
    rw [hacts]
    rfl
  refine ⟨x, hx, (hreturns _ hanswered () 1 (.inl rfl)).1, hstarts, by omega, by omega⟩

end Recurrence.Memo
