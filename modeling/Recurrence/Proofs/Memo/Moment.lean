import Mathlib.Logic.Relation
import Recurrence.Proofs.Memo.Fuel

/-!
# A run, moment by moment

`Memo.call` takes a call from its start to its end. What holds *while* computations wait for each
other needs something finer: a run is cut into moments, and a moment shows the stack of calls.

At the bottom of the stack stands a program that is not a computation of any memoizer. It calls
the memoizers from outside, moves the clock and drops results by hand, so the runs of all programs
are all histories. The monotonic hand moves on its own accord, at any moment.

`call_leadsTo` ties the moments to `call`: what a call returns, or unwinds with, is what its moments
lead to, on top of whatever stack it is made.
-/

namespace Recurrence.Memo

variable {n : Nat} {K V W : Type}

/-- A computation that has started and not ended, and what is done with its result. -/
structure Frame (n : Nat) (K V W : Type) where
  memo : Fin n
  key : K
  next : MemoResult K V → Computation n K V W

/-- What is left to do on top of the stack, the computations in progress, innermost first, and the
state. With an empty stack the program outside is at work. -/
structure Moment (n : Nat) (K V W : Type) where
  doing : Computation n K V W
  stack : List (Frame n K V W)
  state : State n K V W

/-- The keys of the computations in progress, innermost first. -/
def Moment.activations (now : Moment n K V W) : List (Fin n × K) :=
  now.stack.map fun f => (f.memo, f.key)

variable [DecidableEq K]

/-- A program sets out, and no memoizer holds anything. -/
def Moment.start (program : Computation n K V W) (policies : Vector Cache.Policy n)
    (outside : W) : Moment n K V W :=
  ⟨program, [], .start policies outside⟩

variable {body : Fin n → K → Computation n K V W}

/-- One moment and the next. -/
inductive Step (body : Fin n → K → Computation n K V W) : Moment n K V W → Moment n K V W → Prop
  | hit {m key next stack s v} : (State.lookup s m key).1 = .hit v →
      Step body ⟨.call m key next, stack, s⟩ ⟨next (.ok v), stack, (s.lookup m key).2⟩
  | refused {m key next stack s} : (State.lookup s m key).1 = .inFlight →
      Step body ⟨.call m key next, stack, s⟩
        ⟨next (.error (.cycle key)), stack, (s.lookup m key).2⟩
  | started {m key next stack s} : (State.lookup s m key).1 = .absent →
      Step body ⟨.call m key next, stack, s⟩
        ⟨body m key, ⟨m, key, next⟩ :: stack, (s.lookup m key).2.begin m key⟩
  | succeeded {f stack s v} :
      Step body ⟨.done (.ok v), f :: stack, s⟩ ⟨f.next (.ok v), stack, s.resolve f.memo f.key v⟩
  | failed {f stack s e} :
      Step body ⟨.done (.error e), f :: stack, s⟩
        ⟨f.next (.error e), stack, s.abandon f.memo f.key⟩
  | probe {m key next stack s} :
      Step body ⟨.probe m key next, stack, s⟩ ⟨next (s.isCached m key) (s.size m), stack, s⟩
  | runs {m next stack s} :
      Step body ⟨.runs m next, stack, s⟩ ⟨next (s.memo m).runs, stack, s⟩
  | advance {d next stack s s'} : State.advance? s d = some s' →
      Step body ⟨.advance d next, stack, s⟩ ⟨next, stack, s'⟩
  | clear {m next stack s} : Step body ⟨.clear m next, stack, s⟩ ⟨next, stack, s.clear m⟩
  | invalidate {m key next stack s} :
      Step body ⟨.invalidate m key next, stack, s⟩ ⟨next, stack, s.invalidate m key⟩
  | look {next stack s} : Step body ⟨.look next, stack, s⟩ ⟨next s.outside, stack, s⟩
  | leave {w next stack s} :
      Step body ⟨.leave w next, stack, s⟩ ⟨next, stack, { s with outside := w }⟩
  /-- Time passes. -/
  | wait {doing stack s t} : s.clock.monotonic.nanos ≤ t.nanos →
      Step body ⟨doing, stack, s⟩
        ⟨doing, stack, { s with clock := { s.clock with monotonic := t } }⟩

/-- A later moment of the same run. -/
abbrev Reaches (body : Fin n → K → Computation n K V W) :
    Moment n K V W → Moment n K V W → Prop :=
  Relation.ReflTransGen (Step body)

/-- What every step keeps is kept by the whole run. -/
theorem Reaches.keeps {P : Moment n K V W → Prop} {start now : Moment n K V W}
    (h : Reaches body start now) (hstep : ∀ a b, Step body a b → P a → P b) (hstart : P start) :
    P now := by
  induction h with
  | refl => exact hstart
  | tail _ hs ih => exact hstep _ _ hs ih

/-! ## Calls are runs -/

/-- The next step cannot be done, and no computation on the stack will end. -/
def Moment.Unwinds (now : Moment n K V W) (cause : Overflow) : Prop :=
  now.doing = .unwind cause ∨
    cause = .instant ∧ ∃ d next, now.doing = .advance d next ∧ now.state.advance? d = none

/-- An outcome is what the moments from `start` on lead to: a result to the moment that goes on
with it, an unwinding to a moment that cannot go on. -/
def LeadsTo (body : Fin n → K → Computation n K V W) (start : Moment n K V W)
    (finish : MemoResult K V → State n K V W → Moment n K V W) :
    Outcome K V (State n K V W) → Prop
  | .returned result s => Reaches body start (finish result s)
  | .unwound cause s => ∃ now, Reaches body start now ∧ now.Unwinds cause ∧ now.state = s
  | .exhausted => True

theorem LeadsTo.head {start mid : Moment n K V W}
    {finish : MemoResult K V → State n K V W → Moment n K V W}
    {outcome : Outcome K V (State n K V W)} (hmid : Reaches body start mid)
    (h : LeadsTo body mid finish outcome) : LeadsTo body start finish outcome := by
  cases outcome with
  | returned result s => exact hmid.trans h
  | unwound cause s =>
    obtain ⟨now, hnow, hrest⟩ := h
    exact ⟨now, hmid.trans hnow, hrest⟩
  | exhausted => trivial

theorem run_leadsTo {call : Fin n → K → State n K V W → Outcome K V (State n K V W)}
    (hcall : ∀ m key next stack s, LeadsTo body ⟨.call m key next, stack, s⟩
      (fun result s' => ⟨next result, stack, s'⟩) (call m key s))
    (c : Computation n K V W) (stack : List (Frame n K V W)) (s : State n K V W) :
    LeadsTo body ⟨c, stack, s⟩ (fun result s' => ⟨.done result, stack, s'⟩) (run call c s) := by
  induction c generalizing s with
  | done result => exact Relation.ReflTransGen.refl
  | call m key next ih =>
    have h := hcall m key next stack s
    rw [run]
    cases hc : call m key s with
    | returned result s' =>
      rw [hc] at h
      exact (ih result s').head h
    | unwound cause s' =>
      rw [hc] at h
      exact h
    | exhausted => trivial
  | probe m key next ih => exact (ih _ _ _).head (.single .probe)
  | runs m next ih => exact (ih _ _).head (.single .runs)
  | advance d next ih =>
    rw [run]
    cases hd : s.advance? d with
    | some s' => exact (ih s').head (.single (.advance hd))
    | none => exact ⟨_, .refl, .inr ⟨rfl, d, next, rfl, hd⟩, rfl⟩
  | clear m next ih => exact (ih _).head (.single .clear)
  | invalidate m key next ih => exact (ih _).head (.single .invalidate)
  | look next ih => exact (ih _ _).head (.single .look)
  | leave w next ih => exact (ih _).head (.single .leave)
  | unwind cause => exact ⟨_, .refl, .inl rfl, rfl⟩

/-- The end of a computation leads to the moment that goes on with its result. -/
theorem LeadsTo.finish {start : Moment n K V W} {f : Frame n K V W}
    {stack : List (Frame n K V W)} {outcome : Outcome K V (State n K V W)}
    (h : LeadsTo body start (fun result s => ⟨.done result, f :: stack, s⟩) outcome) :
    LeadsTo body start (fun result s => ⟨f.next result, stack, s⟩)
      (finish f.memo f.key outcome) := by
  cases outcome with
  | returned result s =>
    cases result with
    | ok v => exact Relation.ReflTransGen.tail h .succeeded
    | error e => exact Relation.ReflTransGen.tail h .failed
  | unwound cause s => exact h
  | exhausted => trivial

/-- **What a call comes to is what its moments lead to**, on top of any stack. -/
theorem call_leadsTo (body : Fin n → K → Computation n K V W) (fuel : Nat) (m : Fin n) (key : K)
    (next : MemoResult K V → Computation n K V W) (stack : List (Frame n K V W))
    (s : State n K V W) :
    LeadsTo body ⟨.call m key next, stack, s⟩ (fun result s' => ⟨next result, stack, s'⟩)
      (call body fuel m key s) := by
  induction fuel generalizing m key next stack s with
  | zero => trivial
  | succ fuel ih =>
    rw [call_succ]
    cases hl : (s.lookup m key).1 with
    | hit v => exact Relation.ReflTransGen.single (.hit hl)
    | inFlight => exact Relation.ReflTransGen.single (.refused hl)
    | absent =>
      have hbody := run_leadsTo ih (body m key) (⟨m, key, next⟩ :: stack)
        ((s.lookup m key).2.begin m key)
      exact (hbody.head (.single (.started hl))).finish

end Recurrence.Memo
