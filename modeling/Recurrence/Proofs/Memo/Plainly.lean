import Recurrence.Proofs.Memo.Once

/-!
# Policies with nothing to do

A policy shows only where it takes a result away. As long as no result is dropped by hand, there is
room for all keys, and nothing expires, a run goes as it would with plain memoizers, step by step
(`idle_is_plain`).

Two tales in step need not hold the same tables: a cache of bounded size keeps its entries in the
order of use. What they have in common is the past, and with it the ledgers. So the two states are
compared through their ledgers, and not with each other.
-/

namespace Recurrence.Memo

open Cache (Slot)

variable {n : Nat} {K V W : Type} [DecidableEq K] {body : Fin n → K → Computation n K V W}

/-! ## In step -/

/-- Two tales have come to the same point, apart from what the memoizers hold. -/
structure InStep (x y : Tale n K V W) : Prop where
  doing : x.now.doing = y.now.doing
  stack : x.now.stack = y.now.stack
  past : x.past = y.past
  clock : x.now.state.clock = y.now.state.clock
  outside : x.now.state.outside = y.now.state.outside

/-- No computation can tell the memoizers apart. -/
structure Alike (s t : State n K V W) : Prop where
  found : ∀ m key, (s.lookup m key).1 = (t.lookup m key).1
  cached : ∀ m key, s.isCached m key = t.isCached m key
  size : ∀ m, s.size m = t.size m
  runs : ∀ m, (s.memo m).runs = (t.memo m).runs

omit [DecidableEq K] in
theorem InStep.symm {x y : Tale n K V W} (h : InStep x y) : InStep y x :=
  ⟨h.doing.symm, h.stack.symm, h.past.symm, h.clock.symm, h.outside.symm⟩

theorem Alike.symm {s t : State n K V W} (h : Alike s t) : Alike t s :=
  ⟨fun m key => (h.found m key).symm, fun m key => (h.cached m key).symm,
    fun m => (h.size m).symm, fun m => (h.runs m).symm⟩

/-- A step that changes neither what is done nor the stack has only waited. -/
theorem waits_iff {a b : Moment n K V W} (hs : Step body a b) :
    a.Waits b ↔ b.doing = a.doing ∧ b.stack = a.stack := by
  constructor
  · rintro ⟨t, rfl⟩
    exact ⟨rfl, rfl⟩
  · rintro ⟨hdoing, hstack⟩
    rcases step_shape hs with hwait | ⟨hleft, -⟩ | ⟨m, key, next, -, hpush⟩ | ⟨_, f, -, hpop, -⟩
    · exact hwait
    · rw [hdoing] at hleft
      exact absurd hleft (left_wellFounded.irrefl.irrefl _)
    · rw [hstack] at hpush
      exact absurd hpush (List.cons_ne_self _ _).symm
    · rw [hstack] at hpop
      exact absurd hpop (List.cons_ne_self _ _).symm

section

variable {x y : Tale n K V W}

theorem InStep.deeds (h : InStep x y) (halike : Alike x.now.state y.now.state) :
    x.now.deeds = y.now.deeds := by
  unfold Moment.deeds
  rw [h.doing, h.stack]
  simp only [halike.found]

/-- **What can be done in one tale can be done in the other one**, and they stay in step. -/
theorem InStep.step (h : InStep x y) (halike : Alike x.now.state y.now.state)
    {b : Moment n K V W} (hs : Step body x.now b) (past : List (Deed n K V)) :
    ∃ c, Step body y.now c ∧ InStep ⟨b, past⟩ ⟨c, past⟩ := by
  obtain ⟨⟨doing, stack, s⟩, before⟩ := x
  obtain ⟨⟨doing', stack', t⟩, before'⟩ := y
  obtain ⟨rfl, rfl, -, hclock, houtside⟩ := h
  cases hs with
  | @hit m key next _ _ v hl =>
    rw [halike.found] at hl
    exact ⟨_, .hit hl, rfl, rfl, rfl, hclock, houtside⟩
  | @refused m key next _ _ hl =>
    rw [halike.found] at hl
    exact ⟨_, .refused hl, rfl, rfl, rfl, hclock, houtside⟩
  | @started m key next _ _ hl =>
    rw [halike.found] at hl
    exact ⟨_, .started hl, rfl, rfl, rfl, hclock, houtside⟩
  | succeeded => exact ⟨_, .succeeded, rfl, rfl, rfl, hclock, houtside⟩
  | failed => exact ⟨_, .failed, rfl, rfl, rfl, hclock, houtside⟩
  | @probe m key next _ _ =>
    refine ⟨_, .probe, ?_, rfl, rfl, hclock, houtside⟩
    exact congrArg₂ next (halike.cached m key) (halike.size m)
  | @runs m next _ _ =>
    exact ⟨_, .runs, congrArg next (halike.runs m), rfl, rfl, hclock, houtside⟩
  | @advance d next _ _ s' hd =>
    obtain ⟨clock, hmoved, rfl⟩ := Option.map_eq_some_iff.mp hd
    have hd' : t.advance? d = some { t with clock } := by
      rw [State.advance?, ← hclock, hmoved]
      rfl
    exact ⟨_, .advance hd', rfl, rfl, rfl, rfl, houtside⟩
  | clear => exact ⟨_, .clear, rfl, rfl, rfl, hclock, houtside⟩
  | invalidate => exact ⟨_, .invalidate, rfl, rfl, rfl, hclock, houtside⟩
  | @look next _ _ => exact ⟨_, .look, congrArg next houtside, rfl, rfl, hclock, houtside⟩
  | leave => exact ⟨_, .leave, rfl, rfl, rfl, hclock, rfl⟩
  | @wait _ _ _ time hle =>
    rw [hclock] at hle
    refine ⟨_, .wait hle, rfl, rfl, rfl, ?_, houtside⟩
    exact congrArg (fun clock : Clock => { clock with monotonic := time }) hclock

omit [DecidableEq K] in
theorem InStep.unwinds (h : InStep x y) {cause : Overflow} (hu : x.now.Unwinds cause) :
    y.now.Unwinds cause := by
  rcases hu with hunwind | ⟨hcause, d, next, hadvance, hnever⟩
  · exact .inl (h.doing.symm.trans hunwind)
  · refine .inr ⟨hcause, d, next, h.doing.symm.trans hadvance, ?_⟩
    rw [State.advance?, Option.map_eq_none_iff] at hnever ⊢
    rw [← h.clock]
    exact hnever

theorem InStep.tells (h : InStep x y) (halike : Alike x.now.state y.now.state)
    {z : Tale n K V W} (ht : Tells body x z) : ∃ w, Tells body y w ∧ InStep z w := by
  obtain ⟨a, past⟩ := x
  obtain ⟨a', past'⟩ := y
  obtain rfl : past = past' := h.past
  cases ht with
  | @worked _ b _ hs hwork =>
    obtain ⟨b', hs', hstep⟩ := h.step halike hs (a.deeds ++ past)
    have hwork' : ¬ a'.Waits b' := by
      rw [waits_iff hs']
      rw [waits_iff hs, h.doing, h.stack, hstep.doing, hstep.stack] at hwork
      exact hwork
    have hdeeds : a.deeds = a'.deeds := h.deeds halike
    rw [hdeeds] at hstep ⊢
    exact ⟨_, .worked hs' hwork', hstep⟩
  | @waited _ b _ hs hwait =>
    obtain ⟨b', hs', hstep⟩ := h.step halike hs past
    have hwait' : a'.Waits b' := by
      rw [waits_iff hs']
      rw [waits_iff hs, h.doing, h.stack, hstep.doing, hstep.stack] at hwait
      exact hwait
    exact ⟨_, .waited hs' hwait', hstep⟩
  | caught hu => exact ⟨_, .caught (h.unwinds hu), rfl, rfl, rfl, h.clock, h.outside⟩

end

/-! ## Policies with nothing to do -/

/-- Is something dropped by hand? -/
def Act.isDrop : Act K V → Bool
  | .cleared | .invalidated _ => true
  | .answered _ _ | .refused _ | .started _ | .succeeded _ _ | .failed _ _ => false

/-- So far a policy has had nothing to do: nothing that is held has expired, there is room for all
keys that have been called for, and where results are dropped by hand nothing has been dropped. -/
structure Idle (m : Fin n) (x : Tale n K V W) : Prop extends Retains m x where
  undropped : (x.now.state.policy m).byHand = true → ∀ a ∈ actsOf m x.past, a.isDrop = false

/-- Without drops it is no matter whether drops count. -/
theorem held_of_undropped {acts : List (Act K V)} (h : ∀ a ∈ acts, a.isDrop = false)
    (byHand : Bool) : held byHand acts = held false acts := by
  induction acts with
  | nil => rfl
  | cons a acts ih =>
    obtain ⟨ha, hacts⟩ := List.forall_mem_cons.mp h
    funext key
    rw [held, held, ih hacts]
    cases a with
    | cleared | invalidated => cases ha
    | answered | refused | started | succeeded | failed => rfl

theorem Booked.slot?_of_idle {m : Fin n} {x : Tale n K V W} (h : Booked m x) (hidle : Idle m x)
    (key : K) : x.now.state.slot? m key = held false (actsOf m x.past) key := by
  rw [h.holds]
  cases hdrops : (x.now.state.policy m).byHand with
  | false => rfl
  | true => rw [held_of_undropped (hidle.undropped hdrops)]

/-- What memoizers hold under idle policies and under the plain one cannot be told apart, if their
pasts are the same. -/
theorem alike_of_idle {x y : Tale n K V W} (hpast : x.past = y.past) (hbooked : ∀ m, Booked m x)
    (hidle : ∀ m, Idle m x) (hplain : ∀ m, Plain m y) (hx : ∀ m, Counted m x)
    (hy : ∀ m, Counted m y) : Alike x.now.state y.now.state := by
  have hslot (m : Fin n) (key : K) : x.now.state.slot? m key = y.now.state.slot? m key := by
    rw [(hbooked m).slot?_of_idle (hidle m), (hplain m).slot?, hpast]
  have hfresh (m : Fin n) := (hplain m).steady.retains.fresh
  constructor
  · intro m key
    rw [State.lookup_eq_ofSlot (hidle m).fresh, State.lookup_eq_ofSlot (hfresh m), hslot]
  · intro m key
    rw [Bool.eq_iff_iff, State.isCached_iff (hidle m).fresh, State.isCached_iff (hfresh m), hslot]
  · exact fun m => Cache.size_eq_of_slot?_eq (hslot m)
  · intro m
    rw [hx m, hy m, hpast]

/-! ## Whole runs -/

/-- A run of so many steps. -/
def Stretch (body : Fin n → K → Computation n K V W) (run : ℕ → Tale n K V W) (steps : ℕ) : Prop :=
  ∀ i < steps, Tells body (run i) (run (i + 1))

theorem Stretch.told {run : ℕ → Tale n K V W} {steps : ℕ} (h : Stretch body run steps) {i j : ℕ}
    (hij : i ≤ j) (hj : j ≤ steps) : Told body (run i) (run j) := by
  induction j, hij using Nat.le_induction with
  | base => exact .refl
  | succ j _ ih => exact (ih (by omega)).tail (h j hj)

/-- A run with one more moment after so many steps. -/
def thenTo (run : ℕ → Tale n K V W) (steps : ℕ) (z : Tale n K V W) : ℕ → Tale n K V W :=
  fun i => if i ≤ steps then run i else z

omit [DecidableEq K] in
theorem thenTo_of_le {run : ℕ → Tale n K V W} {steps i : ℕ} {z : Tale n K V W} (h : i ≤ steps) :
    thenTo run steps z i = run i := if_pos h

omit [DecidableEq K] in
theorem thenTo_succ {run : ℕ → Tale n K V W} {steps : ℕ} {z : Tale n K V W} :
    thenTo run steps z (steps + 1) = z := if_neg (Nat.not_succ_le_self steps)

theorem stretch_thenTo {run : ℕ → Tale n K V W} {steps : ℕ} (h : Stretch body run steps)
    {z : Tale n K V W} (ht : Tells body (run steps) z) :
    Stretch body (thenTo run steps z) (steps + 1) := by
  intro i hi
  by_cases hlast : i = steps
  · subst hlast
    rw [thenTo_of_le (le_refl i), thenTo_succ]
    exact ht
  · rw [thenTo_of_le (by omega), thenTo_of_le (by omega)]
    exact h i (by omega)

/-- Every tale is a run of so many steps. -/
theorem Told.stretch {x y : Tale n K V W} (h : Told body x y) :
    ∃ run steps, run 0 = x ∧ Stretch body run steps ∧ run steps = y := by
  induction h with
  | refl => exact ⟨fun _ => x, 0, rfl, fun i hi => absurd hi (Nat.not_lt_zero i), rfl⟩
  | tail _ ht ih =>
    obtain ⟨run, steps, hstart, hrun, rfl⟩ := ih
    exact ⟨thenTo run steps _, steps + 1, hstart, stretch_thenTo hrun ht, thenTo_succ⟩

section

variable {program : Computation n K V W} {policies : Vector Cache.Policy n} {outside : W}
  {run : ℕ → Tale n K V W} {steps : ℕ}

theorem Stretch.booked (h : Stretch body run steps)
    (hstart : run 0 = .start program policies outside)
    (hretains : ∀ i ≤ steps, ∀ m, Retains m (run i)) {i : ℕ} (hi : i ≤ steps) (m : Fin n) :
    Booked m (run i) := by
  induction i with
  | zero =>
    rw [hstart]
    exact booked_start program policies outside m
  | succ i ih =>
    have htold := h.told (Nat.zero_le i) (by omega)
    rw [hstart] at htold
    exact booked_tells (h i hi) (guarded_told htold) (hretains i (by omega) m) (ih (by omega))

/-- The policies of a program whose memoizers are all plain. -/
def plainPolicies (n : Nat) : Vector Cache.Policy n := .replicate n .plain

theorem plainPolicies_get (m : Fin n) : (plainPolicies n).get m = .plain := by
  show (Vector.replicate n Cache.Policy.plain)[m.val] = _
  rw [Vector.getElem_replicate]

/-- At each moment of a run under idle policies, a plain tale in step cannot be told apart. -/
theorem Stretch.alike (h : Stretch body run steps)
    (hstart : run 0 = .start program policies outside)
    (hidle : ∀ i ≤ steps, ∀ m, Idle m (run i)) {i : ℕ} (hi : i ≤ steps) {y : Tale n K V W}
    (hy : Told body (.start program (plainPolicies n) outside) y) (hpast : (run i).past = y.past) :
    Alike (run i).now.state y.now.state := by
  have htold := h.told (Nat.zero_le i) hi
  rw [hstart] at htold
  refine alike_of_idle hpast (h.booked hstart (fun i hi m => (hidle i hi m).toRetains) hi)
    (hidle i hi) (fun m => ?_) (counted_told htold) (counted_told hy)
  have hplain := plainPolicies_get m
  exact ⟨(policy_told hy m).trans hplain, steady_told hy (by rw [hplain]; trivial)⟩

theorem Stretch.inStep (h : Stretch body run steps)
    (hstart : run 0 = .start program policies outside)
    (hidle : ∀ i ≤ steps, ∀ m, Idle m (run i)) :
    ∃ plain : ℕ → Tale n K V W, plain 0 = .start program (plainPolicies n) outside
      ∧ Stretch body plain steps ∧ ∀ i ≤ steps, InStep (run i) (plain i) := by
  induction steps with
  | zero =>
    refine ⟨fun _ => .start program (plainPolicies n) outside, rfl, fun i hi => ?_, fun i hi => ?_⟩
    · exact absurd hi (Nat.not_lt_zero i)
    · obtain rfl : i = 0 := by omega
      rw [hstart]
      exact ⟨rfl, rfl, rfl, rfl, rfl⟩
  | succ steps ih =>
    have hbefore : Stretch body run steps := fun i hi => h i (by omega)
    obtain ⟨plain, hplain, hrun, hstep⟩ := ih hbefore fun i hi => hidle i (by omega)
    have htold := hrun.told (Nat.zero_le steps) (le_refl steps)
    rw [hplain] at htold
    have halike := h.alike hstart hidle (by omega) htold (hstep steps (le_refl steps)).past
    -- what the last step does, the plain run can do after so many steps of its own
    obtain ⟨last, hlast, hlastStep⟩ :=
      (hstep steps (le_refl steps)).tells halike (h steps (by omega))
    refine ⟨thenTo plain steps last, hplain, stretch_thenTo hrun hlast, fun i hi => ?_⟩
    by_cases hi' : i = steps + 1
    · subst hi'
      rw [thenTo_succ]
      exact hlastStep
    · rw [thenTo_of_le (by omega)]
      exact hstep i (by omega)

/--
**A policy with nothing to do is the plain one.** As long as nothing expires, there is room for all
keys that are called for, and nothing is dropped by hand, a run goes as it would with plain
memoizers, step by step: the computations and their stack, what has happened so far, with every
result and every error, the clock and the outside are the same, and after every step every key is
cached in both or in none, and all sizes and counts are the same. The plain memoizers could have
done nothing else either.

A result whose expiry cannot be represented never expires, and where that holds of every result no
clock needs to be watched (`fresh_told`).
-/
theorem idle_is_plain (hrun : Stretch body run steps)
    (hstart : run 0 = .start program policies outside)
    (hidle : ∀ i ≤ steps, ∀ m, Idle m (run i)) :
    ∃ plain : ℕ → Tale n K V W, plain 0 = .start program (plainPolicies n) outside
      ∧ Stretch body plain steps
      ∧ ∀ i ≤ steps, InStep (run i) (plain i) ∧ Alike (run i).now.state (plain i).now.state
        ∧ ∀ y, Tells body (plain i) y → ∃ x, Tells body (run i) x ∧ InStep x y := by
  obtain ⟨plain, hplain, hplainRun, hstep⟩ := hrun.inStep hstart hidle
  refine ⟨plain, hplain, hplainRun, fun i hi => ?_⟩
  have htold := hplainRun.told (Nat.zero_le i) hi
  rw [hplain] at htold
  have halike := hrun.alike hstart hidle hi htold (hstep i hi).past
  refine ⟨hstep i hi, halike, fun y hy => ?_⟩
  obtain ⟨x, hx, hxy⟩ := (hstep i hi).symm.tells halike.symm hy
  exact ⟨x, hx, hxy.symm⟩

end

/-- One memoizer asks another one and makes do without an answer, the other one has none, and the
rest ask the one and add one. -/
def handOn (one other m : Fin 3) (key : Bool) : Computation 3 Bool Nat Unit :=
  if m = other then .fail "no answer"
  else if m = one then .call other key fun
    | .ok v => .done (.ok v)
    | .error _ => .done (.ok 0)
  else .value one key fun v => .done (.ok (v + 1))

/-- Asks twice. -/
def askTwice (m : Fin 3) : Computation 3 Bool Nat Unit :=
  .call m true fun _ => .call m true .done

/-- Drops by hand, a time to live beyond the end of time, and room for both keys. -/
def roomyPolicies : Vector Cache.Policy 3 := #v[.manual, .ttl .monotonic ⟨Instant.limit⟩, .lru 2]

theorem told_askTwice : ∃ x : Tale 3 Bool Nat Unit,
    Told (handOn 1 2) (.start (askTwice 0) roomyPolicies ()) x
    ∧ actsOf 0 x.past = [.answered true 1, .succeeded true 1, .started true]
    ∧ ∀ d ∈ x.past, d.act.isDrop = false := by
  have hasked : Told (handOn 1 2) (.start (askTwice 0) roomyPolicies ()) _ :=
    ((Relation.ReflTransGen.single
      (.worked (.started (by decide +kernel)) (not_waits_of_stack_ne (List.cons_ne_nil _ _)))).tail
      (.worked (.started (by decide +kernel)) (not_waits_of_stack_ne (List.cons_ne_self _ _)))).tail
      (.worked (.started (by decide +kernel)) (not_waits_of_stack_ne (List.cons_ne_self _ _)))
  have hanswered : Told (handOn 1 2) (.start (askTwice 0) roomyPolicies ()) _ :=
    ((hasked.tail
      (.worked .failed (not_waits_of_stack_ne (List.cons_ne_self _ _).symm))).tail
      (.worked .succeeded (not_waits_of_stack_ne (List.cons_ne_self _ _).symm))).tail
      (.worked .succeeded (not_waits_of_stack_ne (List.cons_ne_nil _ _).symm))
  have hagain : Told (handOn 1 2) (.start (askTwice 0) roomyPolicies ()) _ :=
    hanswered.tail (.worked (.hit (v := 1) (by decide +kernel)) (not_waits_of_left (.call _)))
  exact ⟨_, hagain, by decide +kernel, by decide +kernel⟩

/-- The first key and the second one are all the keys there are. -/
theorem roomyPolicies_hasRoom (m : Fin 3) (keys : Finset Bool) :
    (roomyPolicies.get m).HasRoom keys.card := by
  have hcard : keys.card ≤ 2 := keys.card_le_univ
  match m with
  | 0 | 1 => trivial
  | 2 => exact hcard

theorem roomyPolicies_endless (m : Fin 3) (hand : Clock.Hand) (ttl : Duration)
    (h : roomyPolicies.get m = .ttl hand ttl) : Instant.limit ≤ ttl.nanos := by
  match m with
  | 0 | 2 => cases h
  | 1 =>
    cases h
    exact le_refl _

/-- Plain memoizers answer in the same way. -/
theorem idle_is_plain_askTwice : ∃ x : Tale 3 Bool Nat Unit,
    Told (handOn 1 2) (.start (askTwice 0) (plainPolicies 3) ()) x
    ∧ actsOf 0 x.past = [.answered true 1, .succeeded true 1, .started true] := by
  obtain ⟨x, htold, hacts, hdrops⟩ := told_askTwice
  obtain ⟨run, steps, hstart, hrun, rfl⟩ := htold.stretch
  have hidle (i : ℕ) (hi : i ≤ steps) (m : Fin 3) : Idle m (run i) := by
    have hi' := hrun.told (Nat.zero_le i) hi
    rw [hstart] at hi'
    refine ⟨⟨fresh_told hi' (roomyPolicies_endless m), ?_⟩, fun _ a ha => ?_⟩
    · rw [policy_told hi' m]
      exact roomyPolicies_hasRoom m _
    · have hsuffix := (hrun.told hi (le_refl steps)).past_suffix
      exact hdrops ⟨m, a⟩ (hsuffix.subset (mem_actsOf.mp ha))
  obtain ⟨plain, hplain, hplainRun, hsame⟩ := idle_is_plain hrun hstart hidle
  have hx := hplainRun.told (Nat.zero_le steps) (le_refl steps)
  rw [hplain] at hx
  refine ⟨plain steps, hx, ?_⟩
  rw [← (hsame steps (le_refl steps)).1.past]
  exact hacts

end Recurrence.Memo
