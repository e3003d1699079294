import Recurrence.Proofs.Memo.Ackermann
import Recurrence.Proofs.Memo.Soundness
import Recurrence.Proofs.Memo.Termination

/-!
# Memoization is transparent

A memoizer answers a call with what the recursion comes to without a memory, whatever has been
called, dropped, evicted or has expired before, and whatever is dropped or expires meanwhile.

What a call answers is right by `Sound`; that it answers at all is an induction on the evaluation,
and that a run of it ends, also if time passes, is due to the questions below its key, of which no
chain goes on for ever. The only thing in the way of a call is a step that the manual clock cannot
take, because an instant has only so many seconds.

All this is said of a key that evaluates, and so holds both of recursions that go to smaller keys
and of Ackermann's function as far as its values are words.
-/

namespace Recurrence.Memo

variable {n : Nat} {K V W : Type} [DecidableEq K] {body : Fin n → K → Computation n K V W}
  {program : Computation n K V W}

/-! ## Calls come to an end -/

/-- A computation that ends has come to its value. -/
theorem Sound.ended {r a : MemoResult K V} {f : Frame n K V W} {stack : List (Frame n K V W)}
    {s : State n K V W} (h : Sound body program ⟨.done r, f :: stack, s⟩)
    (ha : Evaluates body (body f.memo f.key) a) : a = r :=
  h.awaited.1.eq_of_done ha

/-- A call that comes back has the value of its key for an answer, and the run goes on with it. -/
theorem Sound.call_returned {m : Fin n} {key : K} {next : MemoResult K V → Computation n K V W}
    {stack : List (Frame n K V W)} {s s' : State n K V W}
    (h : Sound body program ⟨.call m key next, stack, s⟩) {fuel : Nat} {r a : MemoResult K V}
    (hc : call body fuel m key s = .returned r s') (ha : Evaluates body (body m key) a) :
    a = r ∧ Sound body program ⟨next r, stack, s'⟩ := by
  have hreach := call_leadsTo body fuel m key next stack s
  rw [hc] at hreach
  refine ⟨?_, hreach.keeps sound_step h⟩
  cases fuel with
  | zero => exact absurd hc (by simp [call])
  | succ fuel =>
    rw [call_succ] at hc
    cases hl : (s.lookup m key).1 with
    | hit v =>
      rw [hl] at hc
      cases hc
      exact h.holds m key v (State.slot?_of_lookup_hit hl) a ha
    | inFlight => exact absurd (State.lookup_eq_inFlight_iff.mp hl) (h.not_inFlight ha)
    | absent =>
      rw [hl] at hc
      have hrun := run_leadsTo (call_leadsTo body fuel) (body m key)
        (⟨m, key, next⟩ :: stack) ((s.lookup m key).2.begin m key)
      have hstarted := sound_step _ _ (.started hl) h
      cases hr : run (call body fuel) (body m key) ((s.lookup m key).2.begin m key) with
      | returned r' s'' =>
        rw [hr] at hc hrun
        have hended := (hrun.keeps sound_step hstarted).ended ha
        cases r' <;> cases hc <;> exact hended
      | unwound cause s'' => rw [hr] at hc; cases hc
      | exhausted => rw [hr] at hc; cases hc

/-- **A computation that evaluates comes to an end** with enough fuel. -/
theorem Sound.run_ends {c : Computation n K V W} {r : MemoResult K V} (hr : Evaluates body c r)
    {stack : List (Frame n K V W)} {s : State n K V W} (h : Sound body program ⟨c, stack, s⟩) :
    ∃ fuel, run (call body fuel) c s ≠ .exhausted := by
  induction hr generalizing stack s with
  | done => exact ⟨0, by simp [run]⟩
  | @call m key next answer result hkey _ ihkey ihnext =>
    -- the call itself ends, because its computation does
    have hcall : ∃ fuel, call body fuel m key s ≠ .exhausted := by
      cases hl : (s.lookup m key).1 with
      | hit v => exact ⟨1, by simp [call_succ, hl]⟩
      | inFlight => exact ⟨1, by simp [call_succ, hl]⟩
      | absent =>
        obtain ⟨fuel, hfuel⟩ := ihkey (sound_step _ _ (.started hl) h)
        refine ⟨fuel + 1, ?_⟩
        rw [call_succ, hl]
        exact fun he => hfuel (finish_eq_exhausted_iff.mp he)
    obtain ⟨fuel, hfuel⟩ := hcall
    cases hc : call body fuel m key s with
    | returned r' s' =>
      obtain ⟨rfl, hnext⟩ := h.call_returned hc hkey
      obtain ⟨fuel', hfuel'⟩ := ihnext hnext
      -- the fuel of both is enough for each
      refine ⟨max fuel fuel', ?_⟩
      have hc' : call body (max fuel fuel') m key s = .returned answer s' :=
        (call_mono body (by omega) hfuel).trans hc
      have hmore := run_mono (fun _ _ _ => call_mono body (by omega : fuel' ≤ max fuel fuel'))
        (next answer) s' hfuel'
      rw [run, hc']
      exact fun he => hfuel' (hmore.symm.trans he)
    | unwound cause s' => exact ⟨fuel, by simp [run, hc]⟩
    | exhausted => exact absurd hc hfuel
  | probe _ ih => exact ih _ _ (sound_step _ _ .probe h)
  | runs _ ih => exact ih _ (sound_step _ _ .runs h)
  | advance _ ih =>
    rename_i d next _ _
    cases hd : s.advance? d with
    | some s' =>
      obtain ⟨fuel, hfuel⟩ := ih (sound_step _ _ (.advance hd) h)
      exact ⟨fuel, by rw [run, hd]; exact hfuel⟩
    | none => exact ⟨0, by simp [run, hd]⟩
  | clear _ ih => exact ih (sound_step _ _ .clear h)
  | invalidate _ ih => exact ih (sound_step _ _ .invalidate h)
  | look _ ih => exact ih _ (sound_step _ _ .look h)
  | leave _ ih => exact ih (sound_step _ _ .leave h)

/-- With enough fuel the call comes to this outcome. -/
def ComesTo (body : Fin n → K → Computation n K V W) (m : Fin n) (key : K) (s : State n K V W)
    (outcome : Outcome K V (State n K V W)) : Prop :=
  ∃ enough, ∀ fuel ≥ enough, call body fuel m key s = outcome

/-- The run gets to a step that the manual clock cannot take. -/
def OutOfTime (body : Fin n → K → Computation n K V W) (start : Moment n K V W)
    (s : State n K V W) : Prop :=
  ∃ d next stack, Reaches body start ⟨.advance d next, stack, s⟩ ∧ s.advance? d = none

/-- After any history a call can be looked at on its own. -/
theorem Sound.call_alone {rest : Computation n K V W} {s : State n K V W}
    (h : Sound body program ⟨rest, [], s⟩) (m : Fin n) (key : K) :
    Sound body (.call m key .done) ⟨.call m key .done, [], s⟩ :=
  ⟨h.marked.of_same fun _ _ => Iff.rfl, h.holds, .refl _⟩

/-- While a program evaluates, only the clock can be in its way. -/
theorem Sound.unwinds {now : Moment n K V W} (h : Sound body program now) {r : MemoResult K V}
    (hr : Evaluates body program r) {cause : Overflow} (hunwinds : now.Unwinds cause) :
    cause = .instant ∧ ∃ d next, now.doing = .advance d next ∧ now.state.advance? d = none := by
  rcases hunwinds with hdoing | hlate
  · -- what is done still evaluates, and unwinding does not
    obtain ⟨a, ha⟩ := h.awaited.evaluates hr
    rw [hdoing] at ha
    cases ha
  · exact hlate

/-- A call of a key that has a value comes back with it, unless the clock is in its way. -/
theorem Sound.call_comesTo {rest : Computation n K V W} {s : State n K V W}
    (h : Sound body program ⟨rest, [], s⟩) {m : Fin n} {key : K} {r : MemoResult K V}
    (hr : Evaluates body (body m key) r) :
    (∃ s', ComesTo body m key s (.returned r s'))
      ∨ ∃ s', ComesTo body m key s (.unwound .instant s')
          ∧ OutOfTime body ⟨.call m key .done, [], s⟩ s' := by
  have halone := h.call_alone m key
  have hprogram : Evaluates body (.call m key .done) r := .call hr .done
  obtain ⟨fuel, hrun⟩ := halone.run_ends hprogram
  have hfuel : call body fuel m key s ≠ .exhausted := fun he => hrun (by rw [run, he])
  have hcomes : ComesTo body m key s (call body fuel m key s) :=
    ⟨fuel, fun _ hmore => call_mono body hmore hfuel⟩
  cases hc : call body fuel m key s with
  | returned r' s' =>
    obtain ⟨rfl, -⟩ := halone.call_returned hc hr
    exact .inl ⟨s', hc ▸ hcomes⟩
  | unwound cause s' =>
    have hleads := call_leadsTo body fuel m key .done [] s
    rw [hc] at hleads hcomes
    obtain ⟨⟨doing, stack, state⟩, hreach, hunwinds, rfl⟩ := hleads
    have hsound := hreach.keeps sound_step halone
    obtain ⟨rfl, d, next, rfl, hd⟩ := hsound.unwinds hprogram hunwinds
    exact .inr ⟨state, hcomes, d, next, stack, hreach, hd⟩
  | exhausted => exact absurd hc hfuel

/-! ## No value is refused -/

/-- A refusal on record was there before, or is that of a call just made. -/
theorem refused_step {a b : Moment n K V W} (hs : Step body a b) {k : K}
    (h : b.state.Refused k) :
    a.state.Refused k ∨ ∃ m next, a.doing = .call m k next ∧ a.state.InFlight m k := by
  cases hs with
  | @hit m key next _ s _ _ | @refused m key next _ s _ | @started m key next _ s _ =>
    rcases (State.refused_lookup s m key k).mp h with ⟨hmark, rfl⟩ | hold
    · exact .inr ⟨m, next, rfl, hmark⟩
    · exact .inl hold
  | @succeeded f _ s v => exact .inl ((s.refused_resolve f.memo f.key k v).mp h)
  | advance hd => exact .inl ((State.refused_advance hd k).mp h)
  | @clear m _ _ s => exact .inl ((s.refused_clear m k).mp h)
  | @invalidate m key _ _ s => exact .inl ((s.refused_invalidate m key k).mp h)
  | failed | probe | runs | look | leave | wait => exact .inl h

/-- A run that calls for no key that is being computed adds no refusal. -/
theorem refused_of_reaches {now later : Moment n K V W} (hreach : Reaches body now later)
    (hunmarked : ∀ mid, Reaches body now mid → ∀ m k next, mid.doing = .call m k next →
      ¬ mid.state.InFlight m k) {k : K} (hk : later.state.Refused k) : now.state.Refused k := by
  induction hreach with
  | refl => exact hk
  | tail hr hs ih =>
    rcases refused_step hs hk with hold | ⟨m, next, hdoing, hmark⟩
    · exact ih hold
    · exact absurd hmark (hunmarked _ hr m k next hdoing)

/-- While a program evaluates, it calls for no key that is being computed. -/
theorem Sound.unmarked {now : Moment n K V W} (h : Sound body program now) {r : MemoResult K V}
    (hr : Evaluates body program r) {m : Fin n} {k : K}
    {next : MemoResult K V → Computation n K V W} (hdoing : now.doing = .call m k next) :
    ¬ now.state.InFlight m k := by
  obtain ⟨doing, stack, s⟩ := now
  cases hdoing
  obtain ⟨a, ha⟩ := h.awaited.evaluates hr
  cases ha with
  | call hkey _ => exact h.not_inFlight hkey

/-! ## A call of a key that has a value -/

/-- **A program that evaluates ends**, however time passes meanwhile: what is started is asked for
by what it is started for. -/
theorem Sound.ends {s : State n K V W} (h : Sound body program ⟨program, [], s⟩)
    {r : MemoResult K V} (hr : Evaluates body program r) : Ends body ⟨program, [], s⟩ := by
  have : Nonempty W := ⟨s.outside⟩
  suffices hfalls : Falls body (Needs body) (begun body program) ⟨program, [], s⟩ from
    ends_of_falls hr.acc_needs hfalls
  intro now later f hnow hs hstack
  have hawaited := (hnow.keeps sound_step h).awaited
  rw [step_starts hs hstack] at hawaited
  obtain ⟨a, ha⟩ := hawaited.begun_evaluates hr
  obtain ⟨-, hreads⟩ := hawaited.continues a ha
  refine ⟨(f.memo, f.key), hreads _ .here, ?_⟩
  rw [hstack]
  rfl

/-- What a memory owes to a call that is made now, if its key has this result. -/
structure Transparent (body : Fin n → K → Computation n K V W) (m : Fin n) (key : K)
    (s : State n K V W) (result : MemoResult K V) : Prop where
  /-- The call comes back with the result, or the manual clock is moved too far meanwhile. -/
  comes : (∃ s', ComesTo body m key s (.returned result s'))
    ∨ ∃ s', ComesTo body m key s (.unwound .instant s')
        ∧ OutOfTime body ⟨.call m key .done, [], s⟩ s'
  /-- However time passes, it comes to an end. -/
  ends : Ends body ⟨.call m key .done, [], s⟩
  /-- However time passes, where it stops it has the result, or the clock cannot be moved. -/
  stops : ∀ now, Reaches body ⟨.call m key .done, [], s⟩ now → now.Stops →
    now.stack = [] ∧ now.doing = .done result ∨ now.Unwinds .instant
  /-- The guard refuses nothing: what is called on the way is not being computed. -/
  unrefused : ∀ now, Reaches body ⟨.call m key .done, [], s⟩ now →
    (∀ k, now.state.Refused k → s.Refused k)
      ∧ ∀ m' k next, now.doing = .call m' k next → ¬ now.state.InFlight m' k

/-- **Memoization is transparent** for a key that has a value, after any history. -/
theorem Sound.transparent {rest : Computation n K V W} {s : State n K V W}
    (h : Sound body program ⟨rest, [], s⟩) {m : Fin n} {key : K} {r : MemoResult K V}
    (hr : Evaluates body (body m key) r) : Transparent body m key s r := by
  have halone := h.call_alone m key
  have hcall : Evaluates body (.call m key .done) r := .call hr .done
  have hsound {now : Moment n K V W} (hnow : Reaches body ⟨.call m key .done, [], s⟩ now) :
      Sound body (.call m key .done) now :=
    hnow.keeps sound_step halone
  refine ⟨h.call_comesTo hr, halone.ends hcall, ?stops, ?unrefused⟩
  case stops =>
    intro now hnow hstops
    rcases hstops with ⟨hstack, result, hdone⟩ | ⟨cause, hunwinds⟩
    · obtain ⟨doing, stack, s'⟩ := now
      cases hstack
      cases hdone
      rw [(hsound hnow).awaited.eq_of_done hcall]
      exact .inl ⟨rfl, rfl⟩
    · obtain ⟨rfl, -⟩ := (hsound hnow).unwinds hcall hunwinds
      exact .inr hunwinds
  case unrefused =>
    intro now hnow
    refine ⟨fun k hk => refused_of_reaches hnow ?_ hk, ?_⟩
    · intro mid hmid m' k' next hdoing
      exact (hsound hmid).unmarked hcall hdoing
    · intro m' k next hdoing
      exact (hsound hnow).unmarked hcall hdoing

/-! ## Recursions that go to smaller keys -/

/-- A recursion whose calls go to smaller keys has a result for every key, and memoization is
transparent for all of them. No call of the history has been refused, either. -/
theorem transparent_of_smaller {lt : Fin n × K → Fin n × K → Prop} (wf : WellFounded lt)
    {plan : Fin n → K → Recursion n K V}
    (hsmaller : ∀ x y : Fin n × K, (plan y.1 y.2).Calls plan x → lt x y)
    (hbody : ∀ m key, Performs (body m key) (plan m key))
    {policies : Vector Cache.Policy n} {outside : W} {rest : Computation n K V W}
    {s : State n K V W}
    (h : Reaches body (.start program policies outside) ⟨rest, [], s⟩) :
    (∀ k, ¬ s.Refused k)
    ∧ ∀ m key, ∃ result, (plan m key).Yields plan result ∧ Transparent body m key s result := by
  have hvalues (m : Fin n) (key : K) :
      ∃ r, (plan m key).Yields plan r ∧ Evaluates body (body m key) r := by
    obtain ⟨r, hr⟩ := Recursion.exists_yields_of_smaller wf hsmaller m key
    exact ⟨r, hr, Performs.evaluates hbody hr (hbody m key)⟩
  constructor
  · intro k hk
    refine State.not_refused_start policies outside k (refused_of_reaches h ?_ hk)
    rintro ⟨doing, stack, state⟩ hmid m k next rfl
    obtain ⟨r, -, hvalue⟩ := hvalues m k
    exact (sound_reached hmid).not_inFlight hvalue
  · intro m key
    obtain ⟨r, hr, hvalue⟩ := hvalues m key
    exact ⟨r, hr, (sound_reached h).transparent hvalue⟩

/-! ## Ackermann's function -/

/-- Only computations that keep to one memoizer are on the stack. -/
structure Keeping (m : Fin n) (now : Moment n K V W) : Prop where
  doing : now.doing.KeepsTo m
  stack : ∀ f ∈ now.stack, ∀ answer, (f.next answer).KeepsTo m

theorem keeping_step {m : Fin n} (hbody : ∀ key, (body m key).KeepsTo m) (a b : Moment n K V W)
    (hs : Step body a b) (h : Keeping m a) : Keeping m b := by
  obtain ⟨hdoing, hstack⟩ := h
  cases hs with
  | hit | refused => exact ⟨hdoing.2 _, hstack⟩
  | started =>
    obtain ⟨rfl, hnext⟩ := hdoing
    exact ⟨hbody _, List.forall_mem_cons.mpr ⟨hnext, hstack⟩⟩
  | succeeded | failed =>
    obtain ⟨htop, hrest⟩ := List.forall_mem_cons.mp hstack
    exact ⟨htop _, hrest⟩
  | look => exact ⟨hdoing _, hstack⟩
  | leave | wait => exact ⟨hdoing, hstack⟩
  | probe | runs | advance | clear | invalidate => exact hdoing.elim

omit [DecidableEq K] in
/-- Such computations leave the clock alone. -/
theorem Keeping.not_advance {m : Fin n} {now : Moment n K V W} (h : Keeping m now) (d : Duration)
    (next : Computation n K V W) : now.doing ≠ .advance d next := by
  intro hdoing
  have hkeeps := h.doing
  rw [hdoing] at hkeeps
  exact hkeeps

/-- A memoizer of Ackermann's function, of whatever policy and after any history, is transparent for
arguments whose value is a word: the call comes back with that word, and nothing unwinds it,
however time passes. -/
theorem transparent_ackermann {body : Fin n → Ackermann.Arguments →
      Computation n Ackermann.Arguments UInt64 W} {self : Fin n}
    (hbody : Ackermann.ComputedBy body self)
    {program : Computation n Ackermann.Arguments UInt64 W} {policies : Vector Cache.Policy n}
    {outside : W} {rest : Computation n Ackermann.Arguments UInt64 W}
    {s : State n Ackermann.Arguments UInt64 W}
    (h : Reaches body (.start program policies outside) ⟨rest, [], s⟩) {a b v : UInt64}
    (hv : ack a.toNat b.toNat = v.toNat) :
    Transparent body self (a, b) s (.ok v)
    ∧ (∃ s', ComesTo body self (a, b) s (.returned (.ok v) s'))
    ∧ ∀ now cause, Reaches body ⟨.call self (a, b) .done, [], s⟩ now → ¬ now.Unwinds cause := by
  have hsound := sound_reached h
  have hvalue := hbody.evaluates_word hv
  have hcall : Evaluates body (.call self (a, b) .done) (.ok v) := .call hvalue .done
  have hkeeping {now : Moment n Ackermann.Arguments UInt64 W}
      (hnow : Reaches body ⟨.call self (a, b) .done, [], s⟩ now) : Keeping self now :=
    hnow.keeps (keeping_step hbody.keepsTo) ⟨⟨rfl, fun _ => trivial⟩, by simp⟩
  have htransparent := hsound.transparent hvalue
  refine ⟨htransparent, ?returns, ?unwinds⟩
  case returns =>
    rcases htransparent.comes with hreturned | ⟨s', -, d, next, stack, hreach, -⟩
    · exact hreturned
    · exact absurd rfl ((hkeeping hreach).not_advance d next)
  case unwinds =>
    intro now cause hnow hunwinds
    have halone := hnow.keeps sound_step (hsound.call_alone self (a, b))
    obtain ⟨-, d, next, hdoing, -⟩ := halone.unwinds hcall hunwinds
    exact (hkeeping hnow).not_advance d next hdoing

/-! ## The result -/

/--
**Memoization is transparent.** If the calls of a recursion go to smaller keys, then it has a result
for every key; after any history, under any policies, a call comes back with that result, and the
only other thing that can happen is that the manual clock is moved too far meanwhile. Time may pass
at any moment of the run without a difference, each run ends, and no guard refuses a call.

Ackermann's recursion goes to smaller keys as far as its values are words. There it always comes
back, with the value of the mathematical function, and nothing at all is in its way.
-/
theorem call_yields :
    (∀ {n : Nat} {K V W : Type} [DecidableEq K] {body : Fin n → K → Computation n K V W}
      {lt : Fin n × K → Fin n × K → Prop} {plan : Fin n → K → Recursion n K V},
      WellFounded lt → (∀ x y : Fin n × K, (plan y.1 y.2).Calls plan x → lt x y) →
      (∀ m key, Performs (body m key) (plan m key)) →
      ∀ {program policies outside rest s},
      Reaches body (.start program policies outside) ⟨rest, [], s⟩ →
        (∀ k, ¬ s.Refused k)
        ∧ ∀ m key, ∃ result,
            (plan m key).Yields plan result ∧ Transparent body m key s result)
    ∧ ∀ {n : Nat} {W : Type}
      {body : Fin n → Ackermann.Arguments → Computation n Ackermann.Arguments UInt64 W}
      {self : Fin n}, Ackermann.ComputedBy body self →
      ∀ {program policies outside rest s},
      Reaches body (.start program policies outside) ⟨rest, [], s⟩ →
      ∀ {a b v : UInt64}, ack a.toNat b.toNat = v.toNat →
        Transparent body self (a, b) s (.ok v)
        ∧ (∃ s', ComesTo body self (a, b) s (.returned (.ok v) s'))
        ∧ ∀ now cause, Reaches body ⟨.call self (a, b) .done, [], s⟩ now →
            ¬ now.Unwinds cause := by
  constructor
  · intro n K V W _ body lt plan wf hsmaller hbody program policies outside rest s h
    exact transparent_of_smaller wf hsmaller hbody h
  · intro n W body self hbody program policies outside rest s h a b v hv
    exact transparent_ackermann hbody h hv

/-- The numbers below a key, counted by a recursion that handles the failure at its end. -/
def counting (m : Fin 1) : Nat → Recursion 1 Nat Nat
  | 0 => .done (.error (.failed "nothing to count"))
  | k + 1 => .call m k fun
    | .ok v => .done (.ok (v + 1))
    | .error _ => .done (.ok 1)

/-- Counts in the same way, and clears its own cache after each answer. -/
def countingForgetfully (m : Fin 1) : Nat → Computation 1 Nat Nat Unit
  | 0 => .done (.error (.failed "nothing to count"))
  | k + 1 => .call m k fun
    | .ok v => .clear m (.done (.ok (v + 1)))
    | .error _ => .clear m (.done (.ok 1))

/-- After a call for one, a call for two comes to two, in a cache that has room for one result.
Ackermann's function of two and three is nine, and of zero and the last signed word it is the first
word behind them, in a cache that holds nothing for any time. -/
theorem call_yields_counting : ∃ s : State 1 Nat Nat Unit,
    Reaches countingForgetfully (.start (.call 0 1 .done) #v[.lru 1] ()) ⟨.done (.ok 1), [], s⟩
    ∧ s.slot? 0 1 = some (.resolved 1)
    ∧ Transparent countingForgetfully 0 2 s (.ok 2)
    ∧ (∃ s', ComesTo Ackermann.counted (0 : Fin 1) (2, 3) (State.start #v[.lru 1] 0)
        (.returned (.ok 9) s'))
    ∧ ∃ s', ComesTo Ackermann.counted (0 : Fin 1) (0, 9223372036854775807)
        (State.start #v[.ttl .monotonic ⟨0⟩] 0) (.returned (.ok 9223372036854775808) s') := by
  obtain ⟨htransparent, hackermann⟩ := call_yields
  have hsmaller : ∀ x y : Fin 1 × Nat, (counting y.1 y.2).Calls counting x →
      InvImage (· < ·) Prod.snd x y := by
    rintro x ⟨m, _ | k⟩ hx
    · cases hx
    · cases hx with
      | here => exact Nat.lt_succ_self k
      | @later _ _ _ answer _ _ hx => cases answer <;> cases hx
  have hbody : ∀ m key, Performs (countingForgetfully m key) (counting m key) := by
    rintro m (_ | k)
    · exact .done
    · refine .call fun answer => ?_
      cases answer <;> exact .clear .done
  have h : Reaches countingForgetfully (.start (.call 0 1 .done) #v[.lru 1] ())
      ⟨.done (.ok 1), [], _⟩ :=
    ((((Relation.ReflTransGen.single (.started (by decide +kernel))).tail
      (.started (by decide +kernel))).tail .failed).tail .clear).tail .succeeded
  have hcounted : Ackermann.ComputedBy Ackermann.counted (0 : Fin 1) := .inr ⟨(· + 1), rfl⟩
  have hfresh (policy : Cache.Policy) : Reaches Ackermann.counted
      (.start (.done (.ok 0)) #v[policy] 0 : Moment 1 Ackermann.Arguments UInt64 Nat)
      ⟨.done (.ok 0), [], .start #v[policy] 0⟩ := .refl
  refine ⟨_, h, by decide +kernel, ?counting, ?nine, ?word⟩
  case counting =>
    obtain ⟨-, hresults⟩ := htransparent (InvImage.wf Prod.snd Nat.lt_wfRel.wf) hsmaller hbody h
    obtain ⟨r, hr, hresult⟩ := hresults 0 2
    have htwo : (counting 0 2).Yields counting (.ok 2) := .call (.call .done .done) .done
    rwa [hr.unique htwo] at hresult
  case nine =>
    have hnine : ack (2 : UInt64).toNat (3 : UInt64).toNat = (9 : UInt64).toNat := by
      rw [show (2 : UInt64).toNat = 2 from rfl, ack_two]
      rfl
    exact (hackermann hcounted (hfresh (.lru 1)) hnine).2.1
  case word =>
    have hnext : ack (0 : UInt64).toNat (9223372036854775807 : UInt64).toNat
        = (9223372036854775808 : UInt64).toNat := by
      rw [show (0 : UInt64).toNat = 0 from rfl, ack_zero]
      rfl
    exact (hackermann hcounted (hfresh (.ttl .monotonic ⟨0⟩)) hnext).2.1

end Recurrence.Memo
