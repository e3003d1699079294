import Recurrence.Proofs.Cache.Erase
import Recurrence.Proofs.Memo.CallStack
import Recurrence.Proofs.Memo.History

/-!
# Failed calls leave nothing behind

A call whose computation fails has set a mark before it and takes the mark back after it. In between
anything may have happened to the cache: other keys have been computed, results have been evicted,
pruned or dropped by hand. What is taken back is still that mark, since no other computation can
have touched it, and with it goes nothing else. A result of the key that had expired is gone as
well: the mark took its place.

A call that the guard refuses has not even set a mark.
-/

namespace Recurrence

variable {n : Nat} {K V W : Type}

/-- The computation leaves all memoizers alone: it calls none and drops nothing by hand. It may look
at them, move the clock and keep its own accounts. -/
inductive Computation.Untouching : Computation n K V W → Prop
  | done (result) : Untouching (.done result)
  | probe {m key next} : (∀ cached size, Untouching (next cached size)) →
      Untouching (.probe m key next)
  | runs {m next} : (∀ count, Untouching (next count)) → Untouching (.runs m next)
  | advance {d next} : Untouching next → Untouching (.advance d next)
  | look {next} : (∀ w, Untouching (next w)) → Untouching (.look next)
  | leave {w next} : Untouching next → Untouching (.leave w next)
  | unwind (cause) : Untouching (.unwind cause)

namespace Memo

variable [DecidableEq K] {body : Fin n → K → Computation n K V W}

/-! ## A state without a key -/

namespace State

/-- A memoizer has lost a key, and nothing else has changed. -/
def without (s : State n K V W) (m : Fin n) (key : K) : State n K V W :=
  s.setCache m ((s.memo m).cache.erase key)

variable {s : State n K V W} {m m' : Fin n} {key : K}

omit [DecidableEq K] in
theorem memo_setCache (s : State n K V W) (m m' : Fin n) (c : Cache K V) :
    (s.setCache m c).memo m' = if m' = m then ⟨c, (s.memo m).runs⟩ else s.memo m' :=
  s.memo_setMemo m m' _

theorem memo_without_self (s : State n K V W) (m : Fin n) (key : K) :
    (s.without m key).memo m = ⟨(s.memo m).cache.erase key, (s.memo m).runs⟩ := by
  rw [without, memo_setCache, if_pos rfl]

theorem memo_without_of_ne (h : m' ≠ m) : (s.without m key).memo m' = s.memo m' := by
  rw [without, memo_setCache, if_neg h]

theorem slot?_without_self (s : State n K V W) (m : Fin n) (key : K) :
    (s.without m key).slot? m key = none := by
  rw [slot?, memo_without_self, Cache.slot?_erase, if_pos rfl]

theorem isCached_without_self (s : State n K V W) (m : Fin n) (key : K) :
    (s.without m key).isCached m key = false := by
  rw [isCached, memo_without_self, Cache.contains_erase]

/-- To take back a mark is to lose its key. -/
theorem abandon_of_inFlight (h : s.InFlight m key) : s.abandon m key = s.without m key := by
  rw [abandon, Cache.abandon_eq_erase h, without]

/-- What a computation finds in the memoizers: its key is marked, and apart from that they are as
the call found them. -/
theorem memo_begin_lookup (h : (s.lookup m key).1 = .absent) (m' : Fin n) :
    ((s.lookup m key).2.begin m key).memo m'
      = if m' = m then ⟨(s.memo m).cache.begin key, (s.memo m).runs + 1⟩ else s.memo m' := by
  have hlookup (k : Fin n) : (s.lookup m key).2.memo k = s.memo k := by
    show (s.setCache m ((s.memo m).cache.lookup s.clock key).2.1).memo k = s.memo k
    rw [Cache.lookup_of_absent (by rwa [lookup_fst] at h), memo_setCache]
    by_cases hk : k = m
    · rw [if_pos hk, hk]
    · rw [if_neg hk]
  rw [begin, memo_setMemo, hlookup, hlookup]

end State

variable {s t : State n K V W} {m : Fin n} {key : K}

/-! ## What a computation leaves alone -/

/-- As long as nothing happens at the memoizers, they stay as they are. -/
theorem memos_of_tells {x y : Tale n K V W} (ht : Tells body x y) (hpast : y.past = x.past) :
    y.now.state.memos = x.now.state.memos := by
  cases ht with
  | @worked a b past hs _ =>
    have hdeeds : a.deeds = [] := List.append_left_eq_self.mp hpast
    cases hs with
    | hit | refused | started | succeeded | failed | clear | invalidate => cases hdeeds
    | @advance d _ _ s _ hd =>
      obtain ⟨clock, -, hs'⟩ := Option.map_eq_some_iff.mp hd
      rw [← hs']
    | probe | runs | look | leave | wait => rfl
  | waited _ hwait =>
    obtain ⟨time, rfl⟩ := hwait
    rfl
  | caught _ => rfl

theorem memos_of_told {x y : Tale n K V W} (h : Told body x y) (hpast : y.past = x.past) :
    y.now.state.memos = x.now.state.memos := by
  induction h with
  | refl => rfl
  | @tail z y hz ht ih =>
    have hsuffix : z.past <:+ x.past := hpast ▸ ht.past_suffix
    have hbefore : z.past = x.past := hsuffix.eq_of_length_le (Told.past_suffix hz).length_le
    rw [memos_of_tells ht (hpast.trans hbefore.symm), ih hbefore]

/-- While a computation runs that leaves the memoizers alone, nothing happens at them. -/
theorem told_untouching {c : Computation n K V W} (h : c.Untouching)
    {call : Fin n → K → State n K V W → Outcome K V (State n K V W)} {result : MemoResult K V}
    (hrun : run call c s = .returned result t) (stack : List (Frame n K V W))
    (past : List (Deed n K V)) :
    Told body ⟨⟨c, stack, s⟩, past⟩ ⟨⟨.done result, stack, t⟩, past⟩ := by
  induction h generalizing s with
  | done =>
    cases hrun
    exact .refl
  | probe _ ih => exact .head (.worked .probe (not_waits_of_left (.probe _ _))) (ih _ _ hrun)
  | runs _ ih => exact .head (.worked .runs (not_waits_of_left (.runs _))) (ih _ hrun)
  | look _ ih => exact .head .look (ih _ hrun)
  | leave _ ih => exact .head (.worked .leave (not_waits_of_left .leave)) (ih hrun)
  | @advance d _ _ ih =>
    rw [run] at hrun
    cases hd : s.advance? d with
    | none =>
      rw [hd] at hrun
      cases hrun
    | some s' =>
      rw [hd] at hrun
      exact .head (.worked (.advance hd) (not_waits_of_left .advance)) (ih hrun)
  | unwind => cases hrun

/-- A computation that comes to its end is told. -/
theorem told_of_run_returned {fuel : Nat} {c : Computation n K V W} {result : MemoResult K V}
    (hrun : run (call body fuel) c s = .returned result t) (stack : List (Frame n K V W))
    (past : List (Deed n K V)) :
    ∃ past', Told body ⟨⟨c, stack, s⟩, past⟩ ⟨⟨.done result, stack, t⟩, past'⟩
      ∧ (c.Untouching → past' = past) := by
  by_cases hc : c.Untouching
  · exact ⟨past, told_untouching hc hrun stack past, fun _ => rfl⟩
  · have hleads := run_leadsTo (call_leadsTo body fuel) c stack s
    rw [hrun] at hleads
    obtain ⟨past', htold⟩ := Reaches.told hleads past
    exact ⟨past', htold, fun h => absurd h hc⟩

/-! ## The mark of a computation -/

/-- A call is made, and the computation of its key begins. -/
def Tale.begun (body : Fin n → K → Computation n K V W) (x : Tale n K V W) (m : Fin n) (key : K)
    (next : MemoResult K V → Computation n K V W) : Tale n K V W :=
  ⟨⟨body m key, ⟨m, key, next⟩ :: x.now.stack, (x.now.state.lookup m key).2.begin m key⟩,
    ⟨m, .started key⟩ :: x.past⟩

/-- Whatever happens while a computation is on the stack, its key stays marked. -/
theorem inFlight_of_begun {program : Computation n K V W} {policies : Vector Cache.Policy n}
    {outside : W} {x y : Tale n K V W} (h : Told body (.start program policies outside) x)
    (habsent : (x.now.state.lookup m key).1 = .absent)
    {next : MemoResult K V → Computation n K V W} (hy : Told body (x.begun body m key next) y)
    (hstack : (m, key) ∈ y.now.activations) : y.now.state.InFlight m key := by
  have hcalling : Guarded (calls x.past) ⟨.call m key next, x.now.stack, x.now.state⟩ :=
    (guarded_told h).doing _
  have hbegun : Tells body ⟨⟨.call m key next, x.now.stack, x.now.state⟩, x.past⟩
      (x.begun body m key next) := by
    have hstarted : Step body ⟨.call m key next, x.now.stack, x.now.state⟩
        (x.begun body m key next).now := .started habsent
    have hworked : Tells body ⟨_, x.past⟩ ⟨_, _⟩ :=
      .worked hstarted (not_waits_of_stack_ne (List.cons_ne_self _ _))
    rwa [deeds_call, habsent] at hworked
  have hended : Guarded (calls y.past) y.now := (guarded_tells hbegun hcalling).told hy
  exact hended.marked (m, key) hstack

/-! ## The next call -/

omit [DecidableEq K] in
theorem eq_none_of_forgets {slot : Option (Cache.Slot V)} (h : Cache.Forgets none slot) :
    slot = none := by
  cases h
  rfl

/-- Nothing is held for the key, and no computation of it is on the stack. -/
structure Unheld (m : Fin n) (key : K) (now : Moment n K V W) : Prop where
  slot : now.state.slot? m key = none
  idle : (m, key) ∉ now.activations

/-- A step that leaves the stack alone, and in which the memoizer can only forget. -/
theorem Unheld.of_forgets {c c' : Computation n K V W} {stack : List (Frame n K V W)}
    (h : Unheld m key ⟨c, stack, s⟩) (hs : Cache.Forgets (s.slot? m key) (t.slot? m key)) :
    Unheld m key ⟨c', stack, t⟩ where
  slot := eq_none_of_forgets (h.slot ▸ hs)
  idle := h.idle

/-- Another computation comes to its end. -/
theorem Unheld.pop {c c' : Computation n K V W} {f : Frame n K V W} {stack : List (Frame n K V W)}
    (h : Unheld m key ⟨c, f :: stack, s⟩)
    (hs : ¬ (m = f.memo ∧ key = f.key) → Cache.Forgets (s.slot? m key) (t.slot? m key)) :
    Unheld m key ⟨c', stack, t⟩ where
  slot := by
    have hother : ¬ (m = f.memo ∧ key = f.key) := by
      rintro ⟨rfl, rfl⟩
      exact h.idle List.mem_cons_self
    exact eq_none_of_forgets (h.slot ▸ hs hother)
  idle := fun hin => h.idle (List.mem_cons_of_mem _ hin)

/-- **Until a computation of the key begins there is nothing held for it.** -/
theorem unheld_step {a b : Moment n K V W} (hs : Step body a b) (h : Unheld m key a)
    (hnot : ⟨m, .started key⟩ ∉ a.deeds) : Unheld m key b := by
  cases hs with
  | @hit m' key' _ _ s _ _ | @refused m' key' _ _ s _ =>
    refine h.of_forgets ?_
    rw [s.slot?_lookup]
    exact .same
  | @started m' key' next stack s hl =>
    have hother : ¬ (m = m' ∧ key = key') := by
      rintro ⟨rfl, rfl⟩
      rw [deeds_call, hl] at hnot
      exact hnot List.mem_cons_self
    constructor
    case slot =>
      rw [State.slot?_begin, if_neg hother, State.slot?_lookup]
      exact h.slot
    case idle =>
      intro hin
      rcases List.mem_cons.mp hin with heq | hin
      · exact hother (Prod.mk.inj heq)
      · exact h.idle hin
  | @succeeded f stack s v =>
    refine h.pop fun hother => ?_
    have hforgets := s.forgets_resolve f.memo m f.key key v
    rwa [if_neg hother] at hforgets
  | @failed f stack s e =>
    refine h.pop fun hother => ?_
    rw [State.slot?_abandon, if_neg hother]
    exact .same
  | advance hd =>
    refine h.of_forgets ?_
    rw [State.slot?_advance hd]
    exact .same
  | @clear m' _ _ s => exact h.of_forgets (s.forgets_clear m' m key)
  | @invalidate m' key' _ _ s => exact h.of_forgets (s.forgets_invalidate m' m key' key)
  | probe | runs | look | leave | wait => exact h.of_forgets .same

theorem unheld_told {x y : Tale n K V W} (h : Told body x y) (hx : Unheld m key x.now)
    (hnot : ⟨m, .started key⟩ ∉ y.past) : Unheld m key y.now := by
  induction h with
  | refl => exact hx
  | tail _ ht ih =>
    have hbefore := ih fun hin => hnot (ht.past_suffix.subset hin)
    cases ht with
    | worked hs _ => exact unheld_step hs hbefore fun hin => hnot (List.mem_append_left _ hin)
    | @waited a b past hs hwait =>
      obtain ⟨time, rfl⟩ := hwait
      exact ⟨hbefore.slot, hbefore.idle⟩
    | caught _ => exact ⟨hbefore.slot, List.not_mem_nil⟩

theorem absent_of_slot?_eq_none (h : s.slot? m key = none) : (s.lookup m key).1 = .absent := by
  rw [State.lookup_fst, Cache.lookup_eq_absent_iff]
  exact .inl h

/-- A call for a key that nothing is held for has it computed. -/
theorem call_of_slot?_eq_none (h : s.slot? m key = none) (fuel : Nat) :
    call body (fuel + 1) m key s
      = finish m key (run (call body fuel) (body m key) ((s.lookup m key).2.begin m key)) := by
  rw [call_succ, absent_of_slot?_eq_none h]

/-! ## Failed calls -/

/-- What is left of a computation that a call at `x` has set off, if it ends in the state `t` with
an error, and all that has happened up to then is `past`. -/
structure Failed (body : Fin n → K → Computation n K V W) (x : Tale n K V W) (m : Fin n) (key : K)
    (past : List (Deed n K V)) (t : State n K V W) : Prop where
  /-- What is taken back is the mark of the computation. -/
  marked : t.InFlight m key
  /-- All other keys keep what they have, and their order. -/
  entries : ((t.without m key).memo m).cache.entries
    = (t.memo m).cache.entries.filter fun entry => decide (entry.1 ≠ key)
  others : ∀ m' ≠ m, (t.without m key).memo m' = t.memo m'
  /-- Nothing is held for the key. -/
  slot : (t.without m key).slot? m key = none
  isCached : (t.without m key).isCached m key = false
  /-- Whatever happens then, the next call for the key has it computed. -/
  again : ∀ doing y, Told body ⟨⟨doing, x.now.stack, t.without m key⟩, []⟩ y →
    ⟨m, .started key⟩ ∉ y.past →
    (y.now.state.lookup m key).1 = .absent
      ∧ ∀ fuel, call body (fuel + 1) m key y.now.state
        = finish m key (run (call body fuel) (body m key)
            ((y.now.state.lookup m key).2.begin m key))
  /-- If nothing has happened at the memoizers in between, they are as the call found them, except
  that a result which had expired is no longer there. -/
  untouched : past = ⟨m, .started key⟩ :: x.past →
    (∀ m' ≠ m, (t.without m key).memo m' = x.now.state.memo m')
      ∧ ((t.without m key).memo m).cache = (x.now.state.memo m).cache.erase key
      ∧ (((t.without m key).memo m).cache = (x.now.state.memo m).cache
        ∨ (x.now.state.memo m).cache.Stale x.now.state.clock key)

/-- If nothing has happened since a computation began, the memoizers without its key are as the
call found them without it. -/
theorem memo_without_of_begun {x : Tale n K V W} (habsent : (x.now.state.lookup m key).1 = .absent)
    {next : MemoResult K V → Computation n K V W} {y : Tale n K V W}
    (hy : Told body (x.begun body m key next) y) (hpast : y.past = ⟨m, .started key⟩ :: x.past)
    (m' : Fin n) :
    (y.now.state.without m key).memo m'
      = if m' = m then ⟨(x.now.state.memo m).cache.erase key, (x.now.state.memo m).runs + 1⟩
        else x.now.state.memo m' := by
  have hmemos : y.now.state.memos = ((x.now.state.lookup m key).2.begin m key).memos :=
    memos_of_told hy hpast
  have hmemo (k : Fin n) :
      y.now.state.memo k = ((x.now.state.lookup m key).2.begin m key).memo k := by
    rw [State.memo, hmemos, State.memo]
  by_cases hm : m' = m
  · rw [hm, State.memo_without_self, hmemo, State.memo_begin_lookup habsent, if_pos rfl, if_pos rfl,
      Cache.erase_begin]
  · rw [State.memo_without_of_ne hm, hmemo, State.memo_begin_lookup habsent, if_neg hm, if_neg hm]

theorem failed_of_begun {program : Computation n K V W} {policies : Vector Cache.Policy n}
    {outside : W} {x : Tale n K V W} (h : Told body (.start program policies outside) x)
    (habsent : (x.now.state.lookup m key).1 = .absent)
    {next : MemoResult K V → Computation n K V W} {past : List (Deed n K V)} {e : MemoError K}
    (hy : Told body (x.begun body m key next)
      ⟨⟨.done (.error e), ⟨m, key, next⟩ :: x.now.stack, t⟩, past⟩) :
    Failed body x m key past t := by
  have hslot : (t.without m key).slot? m key = none := t.slot?_without_self m key
  constructor
  case marked => exact inFlight_of_begun h habsent hy List.mem_cons_self
  case entries => rw [State.memo_without_self, Cache.entries_erase]
  case others => exact fun m' hm => State.memo_without_of_ne hm
  case slot => exact hslot
  case isCached => exact t.isCached_without_self m key
  case again =>
    intro doing y hy' hnot
    -- a computation of the key further down would have kept this one from beginning
    have hidle : (m, key) ∉ x.now.activations := by
      intro hin
      have hmark : x.now.state.InFlight m key := (guarded_told h).marked (m, key) hin
      rw [State.lookup_eq_inFlight_iff.mpr hmark] at habsent
      cases habsent
    have hheld : Unheld m key y.now := unheld_told hy' ⟨hslot, hidle⟩ hnot
    exact ⟨absent_of_slot?_eq_none hheld.slot, call_of_slot?_eq_none hheld.slot⟩
  case untouched =>
    intro hpast
    have hmemo := memo_without_of_begun habsent hy hpast
    have hcache : ((t.without m key).memo m).cache = (x.now.state.memo m).cache.erase key := by
      rw [hmemo, if_pos rfl]
    refine ⟨fun m' hm => by rw [hmemo, if_neg hm], hcache, ?_⟩
    rw [State.lookup_fst, Cache.lookup_eq_absent_iff] at habsent
    rcases habsent with hnone | hstale
    · exact .inl (hcache.trans (Cache.erase_of_slot?_eq_none hnone))
    · exact .inr hstale

/--
**Failed calls leave nothing behind**, at every moment of every run.

A call that the guard refuses changes nothing but the log. When a computation ends with an error its
call comes back with that very error; what the computation has made of the memoizers stays as it
is, with the order of use and all expiries, but for the mark of the key. That is said twice, once of
the moments of the computation, between which time may pass, and once of `call`.
-/
theorem failed_calls_leave_nothing {program : Computation n K V W}
    {policies : Vector Cache.Policy n} {outside : W} {x : Tale n K V W}
    (h : Told body (.start program policies outside) x) (m : Fin n) (key : K) :
    (x.now.state.InFlight m key → ∀ fuel, call body (fuel + 1) m key x.now.state
        = .returned (.error (.cycle key))
            { x.now.state with log := .rejected key :: x.now.state.log })
    ∧ ((x.now.state.lookup m key).1 = .absent →
      (∀ next past e t,
        Told body (x.begun body m key next)
          ⟨⟨.done (.error e), ⟨m, key, next⟩ :: x.now.stack, t⟩, past⟩ →
        Step body ⟨.done (.error e), ⟨m, key, next⟩ :: x.now.stack, t⟩
            ⟨next (.error e), x.now.stack, t.without m key⟩
          ∧ Failed body x m key past t)
      ∧ ∀ fuel e t,
        run (call body fuel) (body m key) ((x.now.state.lookup m key).2.begin m key)
          = .returned (.error e) t →
        call body (fuel + 1) m key x.now.state = .returned (.error e) (t.without m key)
          ∧ ∃ past, Failed body x m key past t
            ∧ ((body m key).Untouching → past = ⟨m, .started key⟩ :: x.past)) := by
  refine ⟨fun hmark => call_of_inFlight hmark, fun habsent => ⟨?_, ?_⟩⟩
  · intro next past e t hy
    have hfailed := failed_of_begun h habsent hy
    refine ⟨?_, hfailed⟩
    rw [← State.abandon_of_inFlight hfailed.marked]
    exact .failed
  · intro fuel e t hrun
    obtain ⟨past, hy, huntouching⟩ := told_of_run_returned hrun (⟨m, key, .done⟩ :: x.now.stack)
      (⟨m, .started key⟩ :: x.past)
    have hfailed := failed_of_begun h habsent hy
    refine ⟨?_, past, hfailed, huntouching⟩
    rw [call_succ, habsent, hrun, finish, State.abandon_of_inFlight hfailed.marked]

/-- Comes to a result the first time, and fails ever after. -/
def flaky (_ : Fin 1) (_ : Unit) : Computation 1 Unit Nat Bool :=
  .look fun first => .leave false <|
    .done (if first then .ok 1 else .error (.failed "down"))

/-- Asks, and lets time pass. -/
def askAndWait (m : Fin 1) : Computation 1 Unit Nat Bool :=
  .call m () fun _ => .advance ⟨1⟩ <| .pure 0

theorem told_askAndWait : ∃ x y : Tale 1 Unit Nat Bool,
    Told flaky (.start (askAndWait 0) #v[.ttl .manual ⟨1⟩] true) x
    ∧ x.now.state.slot? 0 () = some .inFlight
    ∧ Told flaky (.start (askAndWait 0) #v[.ttl .manual ⟨1⟩] true) y
    ∧ y.now.state.slot? 0 () = some (.resolved 1)
    ∧ (y.now.state.lookup 0 ()).1 = .absent
    ∧ ∃ t, run (call flaky 0) (flaky 0 ()) ((y.now.state.lookup 0 ()).2.begin 0 ())
      = .returned (.error (.failed "down")) t := by
  have hbegun : Told flaky (.start (askAndWait 0) #v[.ttl .manual ⟨1⟩] true) _ :=
    .single (.worked (.started (by decide +kernel)) (not_waits_of_stack_ne (List.cons_ne_nil _ _)))
  have hasked : Told flaky (.start (askAndWait 0) #v[.ttl .manual ⟨1⟩] true) _ :=
    ((hbegun.tail
      .look).tail
      (.worked .leave (not_waits_of_left .leave))).tail
      (.worked .succeeded (not_waits_of_stack_ne (List.cons_ne_nil _ _).symm))
  have hwaited : Told flaky (.start (askAndWait 0) #v[.ttl .manual ⟨1⟩] true) _ :=
    hasked.tail (.worked (.advance rfl) (not_waits_of_left .advance))
  exact ⟨_, _, hbegun, by decide +kernel, hwaited, by decide +kernel, by decide +kernel, _, rfl⟩

/-- A call out of the computation is refused. Later, when the result has expired, it is in the way
of a computation that fails, and goes with its mark. -/
theorem failed_calls_leave_nothing_askAndWait :
    ∃ (x y : Tale 1 Unit Nat Bool) (t : State 1 Unit Nat Bool),
      Told flaky (.start (askAndWait 0) #v[.ttl .manual ⟨1⟩] true) x
      ∧ call flaky 1 0 () x.now.state = .returned (.error (.cycle ()))
          { x.now.state with log := .rejected () :: x.now.state.log }
      ∧ Told flaky (.start (askAndWait 0) #v[.ttl .manual ⟨1⟩] true) y
      ∧ y.now.state.slot? 0 () = some (.resolved 1)
      ∧ call flaky 1 0 () y.now.state = .returned (.error (.failed "down")) t
      ∧ t.slot? 0 () = none
      ∧ (y.now.state.memo 0).cache.Stale y.now.state.clock () := by
  obtain ⟨x, y, hx, hmark, hy, hslot, habsent, t, hrun⟩ := told_askAndWait
  obtain ⟨hrefused, -⟩ := failed_calls_leave_nothing hx 0 ()
  obtain ⟨-, hfails⟩ := failed_calls_leave_nothing hy 0 ()
  obtain ⟨hcall, past, hfailed, huntouching⟩ := (hfails habsent).2 0 _ t hrun
  have hflaky : (flaky 0 ()).Untouching := .look fun _ => .leave (.done _)
  obtain ⟨-, -, hsame | hstale⟩ := hfailed.untouched (huntouching hflaky)
  · -- the result is not what it was, for it is gone
    have hgone := hfailed.slot
    rw [State.slot?, hsame, ← State.slot?, hslot] at hgone
    cases hgone
  · exact ⟨x, y, t.without 0 (), hx, hrefused hmark 0, hy, hslot, hcall, hfailed.slot, hstale⟩

end Memo

end Recurrence
