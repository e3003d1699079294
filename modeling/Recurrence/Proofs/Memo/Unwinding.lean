import Recurrence.Proofs.Memo.CallStack
import Recurrence.Proofs.Memo.History

/-!
# Calls that are unwound

A computation that is unwound reaches neither of the ends at which its mark is taken back. As long
as the unwinding goes on nobody asks, but the program outside may catch it and call again. From then
on a mark need not mean that the key is on the stack of calls: it may have been left behind there.

Such a mark stays for good. Only the end of a computation of its key would take it away, and the
guard keeps such a computation from beginning.
-/

namespace Recurrence.Memo

variable {n : Nat} {K V W : Type} [DecidableEq K]

/-- The key is marked, but no computation of it is on the stack. -/
def Moment.Stray (now : Moment n K V W) (m : Fin n) (key : K) : Prop :=
  now.state.InFlight m key ∧ (m, key) ∉ now.activations

/-- A computation of the key was on the stack when an unwinding was caught, some time between
`start` and `x`. -/
def LeftBehind (body : Fin n → K → Computation n K V W) (start x : Tale n K V W) (m : Fin n)
    (key : K) : Prop :=
  ∃ (y : Tale n K V W) (cause : Overflow) (program : Computation n K V W),
    Told body start y ∧ y.now.Unwinds cause ∧ (m, key) ∈ y.now.activations
    ∧ Told body ⟨⟨program, [], y.now.state⟩, y.past⟩ x

/-- No computation of the key is on the stack, and yet each call for it is refused. -/
def Blocked (body : Fin n → K → Computation n K V W) (now : Moment n K V W) (m : Fin n) (key : K) :
    Prop :=
  (m, key) ∉ now.activations ∧ ∀ fuel, call body (fuel + 1) m key now.state
    = .returned (.error (.cycle key)) { now.state with log := .rejected key :: now.state.log }

variable {body : Fin n → K → Computation n K V W} {m : Fin n} {key : K}

/-! ## Marks without a computation -/

/-- A step that leaves the stack and the marks alone. -/
theorem stray_of_same {c c' : Computation n K V W} {stack : List (Frame n K V W)}
    {s t : State n K V W} (hs : t.InFlight m key ↔ s.InFlight m key) :
    Moment.Stray ⟨c', stack, t⟩ m key ↔ Moment.Stray ⟨c, stack, s⟩ m key :=
  and_congr_left' hs

/-- The end of a computation takes its own mark away, which was none of these. -/
theorem stray_of_pop {c c' : Computation n K V W} {f : Frame n K V W}
    {stack : List (Frame n K V W)} {s t : State n K V W}
    (hs : t.InFlight m key ↔ ¬ (m = f.memo ∧ key = f.key) ∧ s.InFlight m key) :
    Moment.Stray ⟨c', stack, t⟩ m key ↔ Moment.Stray ⟨c, f :: stack, s⟩ m key := by
  show t.InFlight m key ∧ (m, key) ∉ stack.map _
    ↔ s.InFlight m key ∧ (m, key) ∉ (f.memo, f.key) :: stack.map _
  rw [hs, List.mem_cons, Prod.mk.injEq, not_or, and_assoc]
  exact and_left_comm

/-- A computation begins where there is no mark, so its own is none of these either. -/
theorem stray_of_push {c c' : Computation n K V W} {f : Frame n K V W}
    {stack : List (Frame n K V W)} {s t : State n K V W} (hfree : ¬ s.InFlight f.memo f.key)
    (hs : t.InFlight m key ↔ (m = f.memo ∧ key = f.key) ∨ s.InFlight m key) :
    Moment.Stray ⟨c', f :: stack, t⟩ m key ↔ Moment.Stray ⟨c, stack, s⟩ m key := by
  show t.InFlight m key ∧ (m, key) ∉ (f.memo, f.key) :: stack.map _
    ↔ s.InFlight m key ∧ (m, key) ∉ stack.map _
  rw [hs, List.mem_cons, Prod.mk.injEq, not_or]
  by_cases hf : m = f.memo ∧ key = f.key
  · obtain ⟨rfl, rfl⟩ := hf
    simp [hfree]
  · simp [hf]

/-- **No step sets such a mark, and none takes one away.** -/
theorem stray_step {a b : Moment n K V W} (hs : Step body a b) :
    b.Stray m key ↔ a.Stray m key := by
  cases hs with
  | @hit m' k _ _ s _ _ | @refused m' k _ _ s _ =>
    exact stray_of_same (s.inFlight_lookup m' m k key)
  | @started m' k next stack s hl =>
    refine stray_of_push (f := ⟨m', k, next⟩) ?_ ?_
    -- the lookup was no refusal, so there is no mark yet
    · intro hmark
      rw [State.lookup_eq_inFlight_iff.mpr hmark] at hl
      cases hl
    · rw [State.inFlight_begin, State.inFlight_lookup]
  | @succeeded f _ s v => exact stray_of_pop (s.inFlight_resolve f.memo m f.key key v)
  | @failed f _ s _ => exact stray_of_pop (s.inFlight_abandon f.memo m f.key key)
  | advance hd => exact stray_of_same (State.inFlight_advance hd m key)
  | @clear m' _ _ s => exact stray_of_same (s.inFlight_clear m' m key)
  | @invalidate m' k _ _ s => exact stray_of_same (s.inFlight_invalidate m' m k key)
  | probe | runs | look | leave | wait => exact stray_of_same Iff.rfl

/-- Once there, such a mark is there for good. -/
theorem stray_told {x y : Tale n K V W} (h : Told body x y) (hx : x.now.Stray m key) :
    y.now.Stray m key := by
  refine h.keeps (P := fun z => z.now.Stray m key) (fun a b ht ha => ?_) hx
  cases ht with
  | worked hs _ | waited hs _ => exact (stray_step hs).mpr ha
  | caught _ => exact ⟨ha.1, List.not_mem_nil⟩

/-! ## The moment of an unwinding -/

/-- From `start` on a step is reached that cannot be done, in the state `s`, and all of `stack` is
left behind. -/
def UnwindsFrom (body : Fin n → K → Computation n K V W) (start : Moment n K V W)
    (stack : List (Frame n K V W)) (cause : Overflow) (s : State n K V W) : Prop :=
  ∃ last, Reaches body start last ∧ last.Unwinds cause ∧ last.state = s ∧ stack <:+ last.stack

theorem UnwindsFrom.head {start mid : Moment n K V W} {stack : List (Frame n K V W)}
    {cause : Overflow} {s : State n K V W} (hmid : Reaches body start mid)
    (h : UnwindsFrom body mid stack cause s) : UnwindsFrom body start stack cause s := by
  obtain ⟨last, hlast, hrest⟩ := h
  exact ⟨last, hmid.trans hlast, hrest⟩

theorem run_unwinds {fuel : Nat} {stack : List (Frame n K V W)} {cause : Overflow}
    {t : State n K V W}
    (hcall : ∀ m key next s, call body fuel m key s = .unwound cause t →
      UnwindsFrom body ⟨.call m key next, stack, s⟩ (⟨m, key, next⟩ :: stack) cause t)
    {c : Computation n K V W} {s : State n K V W}
    (h : run (call body fuel) c s = .unwound cause t) :
    UnwindsFrom body ⟨c, stack, s⟩ stack cause t := by
  induction c generalizing s with
  | done result => cases h
  | call m key next ih =>
    have hleads := call_leadsTo body fuel m key next stack s
    rw [run] at h
    cases hc : call body fuel m key s with
    | returned result s' =>
      rw [hc] at h hleads
      exact (ih result h).head hleads
    | unwound cause' s' =>
      rw [hc] at h
      cases h
      obtain ⟨last, hlast, hunwinds, hstate, hsuffix⟩ := hcall m key next s hc
      exact ⟨last, hlast, hunwinds, hstate, (List.suffix_cons _ _).trans hsuffix⟩
    | exhausted =>
      rw [hc] at h
      cases h
  | probe m key next ih => exact (ih _ _ h).head (.single .probe)
  | runs m next ih => exact (ih _ h).head (.single .runs)
  | advance d next ih =>
    rw [run] at h
    cases hd : s.advance? d with
    | some s' =>
      rw [hd] at h
      exact (ih h).head (.single (.advance hd))
    | none =>
      rw [hd] at h
      cases h
      exact ⟨_, .refl, .inr ⟨rfl, d, next, rfl, hd⟩, rfl, List.suffix_refl _⟩
  | clear m next ih => exact (ih h).head (.single .clear)
  | invalidate m key next ih => exact (ih h).head (.single .invalidate)
  | look next ih => exact (ih _ h).head (.single .look)
  | leave w next ih => exact (ih h).head (.single .leave)
  | unwind cause' =>
    cases h
    exact ⟨_, .refl, .inl rfl, rfl, List.suffix_refl _⟩

/-- **What is unwound with a call is on top of the computation that it has set off.** -/
theorem call_unwinds {fuel : Nat} {cause : Overflow} {s t : State n K V W}
    (h : call body fuel m key s = .unwound cause t) (next : MemoResult K V → Computation n K V W)
    (stack : List (Frame n K V W)) :
    UnwindsFrom body ⟨.call m key next, stack, s⟩ (⟨m, key, next⟩ :: stack) cause t := by
  induction fuel generalizing m key s next stack with
  | zero => cases h
  | succ fuel ih =>
    rw [call_succ] at h
    cases hl : (s.lookup m key).1 with
    | hit v =>
      rw [hl] at h
      cases h
    | inFlight =>
      rw [hl] at h
      cases h
    | absent =>
      rw [hl] at h
      have hrun := finish_eq_unwound_iff.mp h
      exact (run_unwinds (fun m key next s hc => ih hc next _) hrun).head (.single (.started hl))

/-! ## After an unwinding -/

/-- A program that catches an unwinding finds the marks of all computations that were on the
stack. -/
theorem stray_caught {y : Tale n K V W} (hguarded : Guarded (calls y.past) y.now)
    (hin : (m, key) ∈ y.now.activations) (program : Computation n K V W) :
    Moment.Stray ⟨program, [], y.now.state⟩ m key :=
  ⟨hguarded.marked (m, key) hin, List.not_mem_nil⟩

theorem blocked_of_stray {now : Moment n K V W} (h : now.Stray m key) : Blocked body now m key :=
  ⟨h.2, call_of_inFlight h.1⟩

theorem LeftBehind.later {start x y : Tale n K V W} (h : LeftBehind body start x m key)
    (hy : Told body x y) : LeftBehind body start y m key := by
  obtain ⟨z, cause, program, hz, hunwinds, hin, hx⟩ := h
  exact ⟨z, cause, program, hz, hunwinds, hin, hx.trans hy⟩

section

variable {program : Computation n K V W} {policies : Vector Cache.Policy n} {outside : W}
  {x : Tale n K V W}

/-- **A mark that is not on the stack has been left behind by an unwinding.** -/
theorem stray_iff_leftBehind (h : Told body (.start program policies outside) x) :
    x.now.Stray m key ↔ LeftBehind body (.start program policies outside) x m key := by
  constructor
  · intro hstray
    induction h with
    | refl =>
      have hmark : (State.start policies outside).slot? m key = some .inFlight := hstray.1
      rw [State.slot?_start] at hmark
      cases hmark
    | @tail y z hy ht ih =>
      cases ht with
      | worked hs hwork => exact (ih ((stray_step hs).mp hstray)).later (.single (.worked hs hwork))
      | waited hs hwait => exact (ih ((stray_step hs).mp hstray)).later (.single (.waited hs hwait))
      | @caught now cause program' past hunwinds =>
        -- with the stack gone, the marks of its computations join those that were there before
        by_cases hin : (m, key) ∈ now.activations
        · exact ⟨_, cause, program', hy, hunwinds, hin, .refl⟩
        · exact (ih ⟨hstray.1, hin⟩).later (.single (.caught hunwinds))
  · intro hleft
    obtain ⟨y, cause, program', hy, -, hin, hx⟩ := hleft
    exact stray_told hx (stray_caught (guarded_told hy) hin program')

theorem inFlight_iff_stray (h : Told body (.start program policies outside) x) :
    x.now.state.InFlight m key ↔ (m, key) ∈ x.now.activations ∨ x.now.Stray m key := by
  constructor
  · intro hmark
    by_cases hin : (m, key) ∈ x.now.activations
    · exact .inl hin
    · exact .inr ⟨hmark, hin⟩
  · intro h'
    rcases h' with hin | hstray
    · exact (guarded_told h).marked (m, key) hin
    · exact hstray.1

/--
**The marks of unwound computations stay for good.**

At every moment of every run the marks are those of the computations on the stack and those that
earlier unwindings have left behind. A key of the second kind is never computed again: however the
run goes on, it is not on the stack, and yet each call for it is refused. And a call that is unwound
leaves its own mark behind, with those of all computations that were on the stack together with its
own.
-/
theorem unwound_keys_stay_marked (h : Told body (.start program policies outside) x) (m : Fin n)
    (key : K) :
    (x.now.state.InFlight m key ↔ (m, key) ∈ x.now.activations
        ∨ LeftBehind body (.start program policies outside) x m key)
    ∧ (LeftBehind body (.start program policies outside) x m key →
        ∀ y, Told body x y → Blocked body y.now m key)
    ∧ ∀ fuel cause s next, call body fuel m key x.now.state = .unwound cause s →
        ∃ last past,
          Told body ⟨⟨.call m key next, x.now.stack, x.now.state⟩, x.past⟩ ⟨last, past⟩
          ∧ last.Unwinds cause ∧ last.state = s
          ∧ (⟨m, key, next⟩ :: x.now.stack) <:+ last.stack
          ∧ ∀ caught y, Told body ⟨⟨caught, [], s⟩, past⟩ y →
            ∀ m' k, (m', k) ∈ last.activations → Blocked body y.now m' k := by
  refine ⟨?_, ?_, ?_⟩
  · rw [inFlight_iff_stray h, stray_iff_leftBehind h]
  · intro hleft y hy
    exact blocked_of_stray (stray_told hy ((stray_iff_leftBehind h).mpr hleft))
  · intro fuel cause s next hcall
    obtain ⟨last, hlast, hunwinds, rfl, hsuffix⟩ := call_unwinds hcall next x.now.stack
    obtain ⟨past, htold⟩ := Reaches.told hlast x.past
    have hcalling : Guarded (calls x.past) ⟨.call m key next, x.now.stack, x.now.state⟩ :=
      (guarded_told h).doing _
    have hended : Guarded (calls past) last := hcalling.told htold
    refine ⟨last, past, htold, hunwinds, rfl, hsuffix, fun caught y hy m' k hin => ?_⟩
    exact blocked_of_stray (stray_told hy (stray_caught (y := ⟨last, past⟩) hended hin caught))

end

/-- One key asks for the other, and that one moves the clock too far. -/
def toppling (m : Fin 1) (key : Bool) : Computation 1 Bool Nat Unit :=
  match key with
  | true => .call m false .done
  | false => .advance ⟨Instant.limit⟩ <| .pure 0

omit [DecidableEq K] in
/-- From nowhere can the clock be moved that far. -/
theorem State.advance?_limit (s : State n K V W) : s.advance? ⟨Instant.limit⟩ = none := by
  simp [advance?, Clock.advance?, Instant.add?]

theorem told_toppling : ∃ x : Tale 1 Bool Nat Unit,
    Told toppling (.start (.call 0 true .done) #v[.plain] ()) x
    ∧ x.now.activations = [(0, false), (0, true)] ∧ x.now.Unwinds .instant := by
  have hx : Told toppling (.start (.call 0 true .done) #v[.plain] ()) _ :=
    (Relation.ReflTransGen.single
      (.worked (.started (by decide +kernel)) (not_waits_of_stack_ne (List.cons_ne_nil _ _)))).tail
      (.worked (.started (by decide +kernel)) (not_waits_of_stack_ne (List.cons_ne_self _ _)))
  exact ⟨_, hx, rfl, .inr ⟨rfl, ⟨Instant.limit⟩, .pure 0, rfl, State.advance?_limit _⟩⟩

theorem call_toppling : ∃ s,
    call toppling 2 0 true (.start #v[.plain] ()) = .unwound .instant s := by
  have hfirst : ((State.start #v[.plain] () : State 1 Bool Nat Unit).lookup 0 true).1
      = .absent := by
    decide +kernel
  have hsecond : ((((State.start #v[.plain] () : State 1 Bool Nat Unit).lookup 0 true).2.begin
      0 true).lookup 0 false).1 = .absent := by
    decide +kernel
  rw [call_succ, hfirst]
  simp only [toppling, run, call_succ, hsecond, State.advance?_limit, finish]
  exact ⟨_, rfl⟩

/-- Both computations are unwound together. From then on both keys are refused, with nothing on the
stack. -/
theorem unwound_keys_stay_marked_toppling :
    (∃ x y : Tale 1 Bool Nat Unit,
      Told toppling (.start (.call 0 true .done) #v[.plain] ()) x
      ∧ x.now.activations = [(0, false), (0, true)] ∧ x.now.Unwinds .instant
      ∧ Tells toppling x y ∧ y.now.stack = [] ∧ ∀ key, Blocked toppling y.now 0 key)
    ∧ ∃ s, call toppling 2 0 true (.start #v[.plain] ()) = .unwound .instant s
      ∧ call toppling 1 0 true s
        = .returned (.error (.cycle true)) { s with log := .rejected true :: s.log } := by
  constructor
  · obtain ⟨x, hx, hstack, hunwinds⟩ := told_toppling
    have hcaught : Tells toppling x ⟨⟨.pure 0, [], x.now.state⟩, x.past⟩ := .caught hunwinds
    refine ⟨x, _, hx, hstack, hunwinds, hcaught, rfl, fun key => ?_⟩
    have hin : (0, key) ∈ x.now.activations := by
      rw [hstack]
      cases key <;> simp
    obtain ⟨-, hblocked, -⟩ := unwound_keys_stay_marked (hx.tail hcaught) 0 key
    exact hblocked ⟨x, .instant, .pure 0, hx, hunwinds, hin, .refl⟩ _ .refl
  · obtain ⟨s, hcall⟩ := call_toppling
    have hstart : Told toppling (.start (.pure 0) #v[.plain] ()) _ := .refl
    obtain ⟨-, -, hunwound⟩ := unwound_keys_stay_marked hstart 0 true
    obtain ⟨last, past, -, -, -, hsuffix, hblocked⟩ := hunwound 2 .instant s .done hcall
    have hin : (0, true) ∈ last.activations :=
      List.mem_map_of_mem (hsuffix.subset List.mem_cons_self)
    exact ⟨s, hcall, (hblocked (.pure 0) _ .refl 0 true hin).2 0⟩

end Recurrence.Memo
