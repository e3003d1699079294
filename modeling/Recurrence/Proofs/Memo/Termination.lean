import Mathlib.Data.Finset.Card
import Mathlib.Data.Fintype.Prod
import Mathlib.Data.Nat.Find
import Mathlib.Order.WellFounded
import Recurrence.Proofs.Memo.Moment
import Recurrence.Proofs.Memo.View

/-!
# Calls come to an end

A recursion through memoizers need not get anywhere: keys are asked for in any order, and errors may
be handled by asking for other keys. Still it comes to an end if there are only finitely many keys
to ask for. Nothing that computations do can take a mark away from a key before its own computation
ends, so the computations on the stack are of different keys, and the stack is never deeper than
there are keys. In a stack that cannot grow for ever each computation has only so many steps left.

The memoizers may hold anything to begin with, also marks that no computation will ever take away.
-/

namespace Recurrence.Memo

variable {n : Nat} {K V W : Type}

/-! ## The shape of a step -/

/-- What may be left of a computation after its first step. -/
inductive Left : Computation n K V W → Computation n K V W → Prop
  | call {m key next} (answer : MemoResult K V) : Left (next answer) (.call m key next)
  | probe {m key next} (cached : Bool) (size : Nat) : Left (next cached size) (.probe m key next)
  | runs {m next} (count : Nat) : Left (next count) (.runs m next)
  | advance {d next} : Left next (.advance d next)
  | clear {m next} : Left next (.clear m next)
  | invalidate {m key next} : Left next (.invalidate m key next)
  | look {next} (w : W) : Left (next w) (.look next)
  | leave {w next} : Left next (.leave w next)

/-- A computation has finitely many steps, whatever it meets. -/
theorem left_wellFounded : WellFounded (Left (n := n) (K := K) (V := V) (W := W)) := by
  refine ⟨fun c => ?_⟩
  induction c with
  | done result => exact ⟨_, fun _ h => by cases h⟩
  | call m key next ih => exact ⟨_, fun _ h => by cases h with | call answer => exact ih answer⟩
  | probe m key next ih =>
    exact ⟨_, fun _ h => by cases h with | probe cached size => exact ih cached size⟩
  | runs m next ih => exact ⟨_, fun _ h => by cases h with | runs count => exact ih count⟩
  | advance d next ih => exact ⟨_, fun _ h => by cases h with | advance => exact ih⟩
  | clear m next ih => exact ⟨_, fun _ h => by cases h with | clear => exact ih⟩
  | invalidate m key next ih => exact ⟨_, fun _ h => by cases h with | invalidate => exact ih⟩
  | look next ih => exact ⟨_, fun _ h => by cases h with | look w => exact ih w⟩
  | leave w next ih => exact ⟨_, fun _ h => by cases h with | leave => exact ih⟩
  | unwind cause => exact ⟨_, fun _ h => by cases h⟩

/-- Between the two moments nothing has happened but that time may have passed. -/
def Moment.Waits (a b : Moment n K V W) : Prop :=
  ∃ t, b = ⟨a.doing, a.stack, { a.state with clock := { a.state.clock with monotonic := t } }⟩

theorem not_waits_of_left {a b : Moment n K V W} (h : Left b.doing a.doing) : ¬ a.Waits b := by
  rintro ⟨t, rfl⟩
  exact left_wellFounded.irrefl.irrefl _ h

variable [DecidableEq K] {body : Fin n → K → Computation n K V W}

/-- **A step waits, goes on with a computation, begins one or ends one.** -/
theorem step_shape {a b : Moment n K V W} (hs : Step body a b) :
    a.Waits b
    ∨ (Left b.doing a.doing ∧ b.stack = a.stack)
    ∨ (∃ m key next, a.doing = .call m key next ∧ b.stack = ⟨m, key, next⟩ :: a.stack)
    ∨ ∃ result f, a.doing = .done result ∧ a.stack = f :: b.stack ∧ b.doing = f.next result := by
  cases hs with
  | wait _ => exact .inl ⟨_, rfl⟩
  | started _ => exact .inr (.inr (.inl ⟨_, _, _, rfl, rfl⟩))
  | @succeeded f _ _ v => exact .inr (.inr (.inr ⟨.ok v, f, rfl, rfl, rfl⟩))
  | @failed f _ _ e => exact .inr (.inr (.inr ⟨.error e, f, rfl, rfl, rfl⟩))
  | hit _ | refused _ => exact .inr (.inl ⟨.call _, rfl⟩)
  | probe => exact .inr (.inl ⟨.probe _ _, rfl⟩)
  | runs => exact .inr (.inl ⟨.runs _, rfl⟩)
  | advance _ => exact .inr (.inl ⟨.advance, rfl⟩)
  | clear => exact .inr (.inl ⟨.clear, rfl⟩)
  | invalidate => exact .inr (.inl ⟨.invalidate, rfl⟩)
  | look => exact .inr (.inl ⟨.look _, rfl⟩)
  | leave => exact .inr (.inl ⟨.leave, rfl⟩)

/-- Only a call that is started puts something on the stack. -/
theorem step_starts {a b : Moment n K V W} (hs : Step body a b) {f : Frame n K V W}
    (hstack : b.stack = f :: a.stack) : a.doing = .call f.memo f.key f.next := by
  have hlength : b.stack.length = a.stack.length + 1 := by rw [hstack, List.length_cons]
  rcases step_shape hs with ⟨t, rfl⟩ | ⟨-, hsame⟩ | ⟨m, key, next, hcall, hpush⟩ | ⟨_, _, -, hpop, -⟩
  · exact absurd hlength (Nat.lt_succ_self _).ne
  · exact absurd (hsame ▸ hlength) (Nat.lt_succ_self _).ne
  · rw [hstack] at hpush
    cases hpush
    exact hcall
  · rw [hpop, List.length_cons] at hlength
    omega

/-- The program has come to its end, or to an operation that cannot be done. -/
def Moment.Stops (now : Moment n K V W) : Prop :=
  (now.stack = [] ∧ ∃ result, now.doing = .done result) ∨ ∃ cause, now.Unwinds cause

/-- Up to its end a program can always do something. -/
theorem stops_or_works (now : Moment n K V W) :
    now.Stops ∨ ∃ later, Step body now later ∧ ¬ now.Waits later := by
  obtain ⟨c, stack, s⟩ := now
  cases c with
  | done result =>
    cases stack with
    | nil => exact .inl (.inl ⟨rfl, result, rfl⟩)
    | cons f stack =>
      have hshorter (c' : Computation n K V W) (s' : State n K V W) :
          ¬ Moment.Waits ⟨.done result, f :: stack, s⟩ ⟨c', stack, s'⟩ := by
        rintro ⟨t, ht⟩
        exact absurd (congrArg Moment.stack ht) (by simp)
      cases result with
      | ok v => exact .inr ⟨_, .succeeded, hshorter _ _⟩
      | error e => exact .inr ⟨_, .failed, hshorter _ _⟩
  | call m key next =>
    cases hl : (s.lookup m key).1 with
    | hit v => exact .inr ⟨_, .hit hl, not_waits_of_left (.call _)⟩
    | inFlight => exact .inr ⟨_, .refused hl, not_waits_of_left (.call _)⟩
    | absent =>
      refine .inr ⟨_, .started hl, ?_⟩
      rintro ⟨t, ht⟩
      exact absurd (congrArg Moment.stack ht) (by simp)
  | probe m key next => exact .inr ⟨_, .probe, not_waits_of_left (.probe _ _)⟩
  | runs m next => exact .inr ⟨_, .runs, not_waits_of_left (.runs _)⟩
  | advance d next =>
    cases hd : s.advance? d with
    | some s' => exact .inr ⟨_, .advance hd, not_waits_of_left .advance⟩
    | none => exact .inl (.inr ⟨.instant, .inr ⟨rfl, d, next, rfl, hd⟩⟩)
  | clear m next => exact .inr ⟨_, .clear, not_waits_of_left .clear⟩
  | invalidate m key next => exact .inr ⟨_, .invalidate, not_waits_of_left .invalidate⟩
  | look next => exact .inr ⟨_, .look, not_waits_of_left (.look _)⟩
  | leave w next => exact .inr ⟨_, .leave, not_waits_of_left .leave⟩
  | unwind cause => exact .inl (.inr ⟨cause, .inl rfl⟩)

/-! ## Runs that end -/

/-- Every run from here on comes to a moment after which there is nothing but time that passes. -/
def Ends (body : Fin n → K → Computation n K V W) (start : Moment n K V W) : Prop :=
  ∀ run : ℕ → Moment n K V W, run 0 = start → (∀ i, Step body (run i) (run (i + 1))) →
    ∃ last, ∀ i ≥ last, (run i).Waits (run (i + 1))

/-- It is enough to look one step ahead, at whatever time it is taken. -/
theorem ends_of_next {c : Computation n K V W} {stack : List (Frame n K V W)}
    {s : State n K V W}
    (h : ∀ s' later, Reaches body ⟨c, stack, s⟩ ⟨c, stack, s'⟩ →
      Step body ⟨c, stack, s'⟩ later → ¬ Moment.Waits ⟨c, stack, s'⟩ later → Ends body later) :
    Ends body ⟨c, stack, s⟩ := by
  classical
  intro run hstart hstep
  by_cases hall : ∀ i, (run i).Waits (run (i + 1))
  · exact ⟨0, fun i _ => hall i⟩
  -- up to the first step that is more than waiting, the run is where it was
  have hex : ∃ i, ¬ (run i).Waits (run (i + 1)) := not_forall.mp hall
  have hbefore : ∀ i ≤ Nat.find hex,
      ∃ s', run i = ⟨c, stack, s'⟩ ∧ Reaches body ⟨c, stack, s⟩ ⟨c, stack, s'⟩ := by
    intro i hi
    induction i with
    | zero => exact ⟨s, hstart, .refl⟩
    | succ i ih =>
      obtain ⟨s', hi', hreach⟩ := ih (by omega)
      obtain ⟨t, hwait⟩ := not_not.mp (Nat.find_min hex (by omega : i < Nat.find hex))
      have hs := hstep i
      rw [hwait, hi'] at hs
      exact ⟨_, by rw [hwait, hi'], hreach.tail hs⟩
  obtain ⟨s', hnow, hreach⟩ := hbefore _ le_rfl
  have hs := hstep (Nat.find hex)
  have hworks := Nat.find_spec hex
  rw [hnow] at hs hworks
  obtain ⟨last, hlast⟩ := h s' _ hreach hs hworks
    (fun i => run (Nat.find hex + 1 + i)) rfl (fun i => hstep _)
  refine ⟨Nat.find hex + 1 + last, fun i hi => ?_⟩
  obtain ⟨j, rfl⟩ := Nat.exists_eq_add_of_le hi
  have hj := hlast (last + j) (by omega)
  simp only [← Nat.add_assoc] at hj
  exact hj

/-- What is started in a run from `start` on has a smaller rank than the stack that it is put on. -/
def Falls (body : Fin n → K → Computation n K V W) {α : Type} (lt : α → α → Prop)
    (rank : List (Frame n K V W) → α) (start : Moment n K V W) : Prop :=
  ∀ now later f, Reaches body start now → Step body now later → later.stack = f :: now.stack →
    lt (rank later.stack) (rank now.stack)

theorem Falls.from {α : Type} {lt : α → α → Prop} {rank : List (Frame n K V W) → α}
    {start now : Moment n K V W} (h : Falls body lt rank start) (hnow : Reaches body start now) :
    Falls body lt rank now :=
  fun a b f ha hs hf => h a b f (hnow.trans ha) hs hf

/-- A computation ends if what comes after it ends, and ranks cannot fall for ever. The outer
induction is on the rank of the stack, the inner one on what is left of the computation. -/
theorem ends_of_rank {α : Type} {lt : α → α → Prop} {rank : List (Frame n K V W) → α}
    {c : Computation n K V W} {stack : List (Frame n K V W)} {s : State n K V W}
    (hacc : Acc lt (rank stack)) (hfalls : Falls body lt rank ⟨c, stack, s⟩)
    (hafter : ∀ result s', Reaches body ⟨c, stack, s⟩ ⟨.done result, stack, s'⟩ →
      Ends body ⟨.done result, stack, s'⟩) :
    Ends body ⟨c, stack, s⟩ := by
  generalize hx : rank stack = x at hacc
  induction hacc generalizing c stack s with
  | intro x _ ihrank =>
  subst hx
  induction c using left_wellFounded.induction generalizing s with
  | _ c ih =>
  by_cases hdone : ∃ result, c = .done result
  · obtain ⟨result, rfl⟩ := hdone
    exact hafter result s .refl
  -- what goes on with the same stack ends by the inner induction
  have hsame {c' : Computation n K V W} {s' : State n K V W} (hleft : Left c' c)
      (hreach : Reaches body ⟨c, stack, s⟩ ⟨c', stack, s'⟩) : Ends body ⟨c', stack, s'⟩ :=
    ih c' hleft (hfalls.from hreach) fun result s₁ hresult => hafter result s₁ (hreach.trans hresult)
  refine ends_of_next ?_
  rintro s₁ ⟨doing, stack', s'⟩ hnow hs hworks
  have hreach := hnow.tail hs
  rcases step_shape hs with hwait | ⟨hleft, rfl⟩ | ⟨m, key, next, rfl, rfl⟩ | ⟨result, f, rfl, -⟩
  · exact absurd hwait hworks
  · exact hsame hleft hreach
  · -- the new computation has a smaller rank, and the one that called it goes on after it
    refine ihrank _ (hfalls _ _ _ hnow hs rfl) (hfalls.from hreach) ?_ rfl
    intro result s₂ hresult
    refine ends_of_next ?_
    rintro s₃ ⟨doing', stack₂, s₄⟩ hnow' hs' hworks'
    rcases step_shape hs' with hwait | ⟨hleft, -⟩ | ⟨_, _, _, hcall, -⟩ | ⟨_, f, hdone, hf, hnext⟩
    · exact absurd hwait hworks'
    · cases hleft
    · cases hcall
    · cases hdone
      cases hf
      cases hnext
      exact hsame (.call result) (((hreach.trans hresult).trans hnow').tail hs')
  · exact absurd ⟨result, rfl⟩ hdone

/-- After its end a program does nothing more. -/
theorem ends_done (result : MemoResult K V) (s : State n K V W) :
    Ends body ⟨.done result, [], s⟩ := by
  refine ends_of_next ?_
  rintro s₁ ⟨doing, stack', s₂⟩ - hs hworks
  rcases step_shape hs with hwait | ⟨hleft, -⟩ | ⟨_, _, _, hcall, -⟩ | ⟨_, _, -, hstack, -⟩
  · exact absurd hwait hworks
  · cases hleft
  · cases hcall
  · cases hstack

/-- **A program ends if ranks cannot fall for ever.** -/
theorem ends_of_falls {α : Type} {lt : α → α → Prop} {rank : List (Frame n K V W) → α}
    {program : Computation n K V W} {s : State n K V W} (hacc : Acc lt (rank []))
    (hfalls : Falls body lt rank ⟨program, [], s⟩) : Ends body ⟨program, [], s⟩ :=
  ends_of_rank hacc hfalls fun result s' _ => ends_done result s'

/-- A program ends if its stack does not grow for ever: the room that is left on it falls. -/
theorem ends_of_stack_le {deepest : Nat} {program : Computation n K V W} {s : State n K V W}
    (hdeep : ∀ now, Reaches body ⟨program, [], s⟩ now → now.stack.length ≤ deepest) :
    Ends body ⟨program, [], s⟩ := by
  let room (stack : List (Frame n K V W)) : Nat := deepest - stack.length
  suffices hfalls : Falls body (· < ·) room ⟨program, [], s⟩ from
    ends_of_falls (Nat.lt_wfRel.wf.apply _) hfalls
  intro now later f hnow hs hf
  have hle := hdeep later (hnow.tail hs)
  have hlength : later.stack.length = now.stack.length + 1 := by rw [hf, List.length_cons]
  show deepest - later.stack.length < deepest - now.stack.length
  omega

/-! ## Fuel and depth -/

/-- A call is about to be made below so many computations. -/
def Moment.CallsAt (now : Moment n K V W) (depth : Nat) : Prop :=
  now.stack.length = depth ∧ ∃ m key next, now.doing = .call m key next

theorem run_exhausted {call : Fin n → K → State n K V W → Outcome K V (State n K V W)}
    {depth : Nat} (stack : List (Frame n K V W))
    (hleads : ∀ m key next s, LeadsTo body ⟨.call m key next, stack, s⟩
      (fun result s' => ⟨next result, stack, s'⟩) (call m key s))
    (hcall : ∀ m key next s, call m key s = .exhausted →
      ∃ later, Reaches body ⟨.call m key next, stack, s⟩ later ∧ later.CallsAt depth)
    {c : Computation n K V W} {s : State n K V W} (h : run call c s = .exhausted) :
    ∃ later, Reaches body ⟨c, stack, s⟩ later ∧ later.CallsAt depth := by
  have hfirst {c c' : Computation n K V W} {s s' : State n K V W}
      (hs : Reaches body ⟨c, stack, s⟩ ⟨c', stack, s'⟩)
      (hrest : ∃ later, Reaches body ⟨c', stack, s'⟩ later ∧ later.CallsAt depth) :
      ∃ later, Reaches body ⟨c, stack, s⟩ later ∧ later.CallsAt depth := by
    obtain ⟨later, hlater, hdepth⟩ := hrest
    exact ⟨later, hs.trans hlater, hdepth⟩
  induction c generalizing s with
  | done result => cases h
  | call m key next ih =>
    have hreturns := hleads m key next s
    rw [run] at h
    cases hc : call m key s with
    | returned result s' =>
      rw [hc] at h hreturns
      exact hfirst hreturns (ih result h)
    | unwound cause s' =>
      rw [hc] at h
      cases h
    | exhausted => exact hcall m key next s hc
  | probe m key next ih => exact hfirst (.single .probe) (ih _ _ h)
  | runs m next ih => exact hfirst (.single .runs) (ih _ h)
  | advance d next ih =>
    rw [run] at h
    cases hd : s.advance? d with
    | some s' =>
      rw [hd] at h
      exact hfirst (.single (.advance hd)) (ih h)
    | none =>
      rw [hd] at h
      cases h
  | clear m next ih => exact hfirst (.single .clear) (ih h)
  | invalidate m key next ih => exact hfirst (.single .invalidate) (ih h)
  | look next ih => exact hfirst (.single .look) (ih _ h)
  | leave w next ih => exact hfirst (.single .leave) (ih h)
  | unwind cause => cases h

/-- **Fuel runs out only in a stack that is as deep as there was fuel.** -/
theorem call_exhausted {fuel : Nat} {m : Fin n} {key : K} {s : State n K V W}
    (h : call body fuel m key s = .exhausted) (next : MemoResult K V → Computation n K V W)
    (stack : List (Frame n K V W)) :
    ∃ later, Reaches body ⟨.call m key next, stack, s⟩ later
      ∧ later.CallsAt (stack.length + fuel) := by
  induction fuel generalizing m key s next stack with
  | zero => exact ⟨_, .refl, rfl, m, key, next, rfl⟩
  | succ fuel ih =>
    rw [call_succ] at h
    cases hl : (s.lookup m key).1 with
    | hit v =>
      rw [hl] at h
      cases h
    | inFlight =>
      rw [hl] at h
      cases h
    | absent =>
      rw [hl] at h
      have hdeeper := run_exhausted (⟨m, key, next⟩ :: stack)
        (fun m key next s => call_leadsTo body fuel m key next _ s)
        (fun m key next s hc => ih hc next _) (finish_eq_exhausted_iff.mp h)
      obtain ⟨later, hlater, hdepth, hcalls⟩ := hdeeper
      refine ⟨later, .head (.started hl) hlater, ?_, hcalls⟩
      rw [hdepth, List.length_cons]
      omega

/-! ## The guard bounds the stack -/

/-- The computations on the stack are of different keys of `S`, and all are marked. -/
structure Guarded (S : Finset (Fin n × K)) (now : Moment n K V W) : Prop where
  nodup : now.activations.Nodup
  within : ∀ x ∈ now.activations, x ∈ S
  marked : ∀ x ∈ now.activations, now.state.InFlight x.1 x.2

variable {S : Finset (Fin n × K)}

theorem guarded_start (program : Computation n K V W) (s : State n K V W) :
    Guarded S ⟨program, [], s⟩ where
  nodup := List.nodup_nil
  within := by simp [Moment.activations]
  marked := by simp [Moment.activations]

/-- A step that leaves the stack alone and takes no mark away. -/
theorem Guarded.of_same {c c' : Computation n K V W} {stack : List (Frame n K V W)}
    {s s' : State n K V W} (h : Guarded S ⟨c, stack, s⟩)
    (hs : ∀ m key, s.InFlight m key → s'.InFlight m key) : Guarded S ⟨c', stack, s'⟩ :=
  ⟨h.nodup, h.within, fun x hx => hs x.1 x.2 (h.marked x hx)⟩

/-- A computation ends, and the marks of all the others stay. -/
theorem Guarded.pop {c c' : Computation n K V W} {f : Frame n K V W}
    {stack : List (Frame n K V W)} {s s' : State n K V W} (h : Guarded S ⟨c, f :: stack, s⟩)
    (hs : ∀ m key, ¬ (m = f.memo ∧ key = f.key) → s.InFlight m key → s'.InFlight m key) :
    Guarded S ⟨c', stack, s'⟩ := by
  obtain ⟨hnot, hnodup⟩ := List.nodup_cons.mp h.nodup
  obtain ⟨-, hwithin⟩ := List.forall_mem_cons.mp h.within
  obtain ⟨-, hmarked⟩ := List.forall_mem_cons.mp h.marked
  refine ⟨hnodup, hwithin, fun x hx => hs x.1 x.2 ?_ (hmarked x hx)⟩
  rintro ⟨hm, hkey⟩
  cases (Prod.ext hm hkey : x = (f.memo, f.key))
  exact hnot hx

/-- A computation begins for a key of `S` without a mark. -/
theorem Guarded.push {c c' : Computation n K V W} {f : Frame n K V W}
    {stack : List (Frame n K V W)} {s s' : State n K V W} (h : Guarded S ⟨c, stack, s⟩)
    (hS : (f.memo, f.key) ∈ S) (hfree : ¬ s.InFlight f.memo f.key)
    (hmark : s'.InFlight f.memo f.key) (hs : ∀ m key, s.InFlight m key → s'.InFlight m key) :
    Guarded S ⟨c', f :: stack, s'⟩ where
  nodup := List.nodup_cons.mpr ⟨fun hin => hfree (h.marked _ hin), h.nodup⟩
  within := List.forall_mem_cons.mpr ⟨hS, h.within⟩
  marked := List.forall_mem_cons.mpr ⟨hmark, fun x hx => hs x.1 x.2 (h.marked x hx)⟩

/-- **Preserved by every step** that calls only for keys of `S`. -/
theorem guarded_step {a b : Moment n K V W} (hs : Step body a b)
    (hcalls : ∀ m key next, a.doing = .call m key next → (m, key) ∈ S) (h : Guarded S a) :
    Guarded S b := by
  cases hs with
  | @hit m key _ _ s _ _ | @refused m key _ _ s _ =>
    exact h.of_same fun m' k => (s.inFlight_lookup m m' key k).mpr
  | @started m key next stack s hl =>
    have hfree : ¬ s.InFlight m key := by
      intro hmark
      rw [State.lookup_eq_inFlight_iff.mpr hmark] at hl
      cases hl
    refine h.push (f := ⟨m, key, next⟩) (hcalls m key next rfl) hfree ?_ fun m' k hk => ?_
    · exact (State.inFlight_begin ..).mpr (.inl ⟨rfl, rfl⟩)
    · exact (State.inFlight_begin ..).mpr (.inr ((State.inFlight_lookup ..).mpr hk))
  | @succeeded f _ s v =>
    exact h.pop fun m k hne hk => (s.inFlight_resolve f.memo m f.key k v).mpr ⟨hne, hk⟩
  | @failed f _ s _ =>
    exact h.pop fun m k hne hk => (s.inFlight_abandon f.memo m f.key k).mpr ⟨hne, hk⟩
  | advance hd => exact h.of_same fun m k => (State.inFlight_advance hd m k).mpr
  | @clear m _ _ s => exact h.of_same fun m' k => (s.inFlight_clear m m' k).mpr
  | @invalidate m key _ _ s => exact h.of_same fun m' k => (s.inFlight_invalidate m m' key k).mpr
  | probe | runs | look | leave | wait => exact h.of_same fun _ _ hk => hk

theorem guarded_reached {start now : Moment n K V W} (h : Reaches body start now)
    (hstart : Guarded S start)
    (hcalls : ∀ now, Reaches body start now →
      ∀ m key next, now.doing = .call m key next → (m, key) ∈ S) :
    Guarded S now := by
  induction h with
  | refl => exact hstart
  | tail hr hs ih => exact guarded_step hs (hcalls _ hr) ih

/-- A run that calls only for keys of `S` has no deeper stack than `S` has keys. -/
theorem stack_le_card {program : Computation n K V W} {s : State n K V W}
    (hcalls : ∀ now, Reaches body ⟨program, [], s⟩ now →
      ∀ m key next, now.doing = .call m key next → (m, key) ∈ S)
    {now : Moment n K V W} (h : Reaches body ⟨program, [], s⟩ now) :
    now.stack.length ≤ S.card := by
  have hguarded := guarded_reached h (guarded_start program s) hcalls
  have hsub : now.activations.toFinset ⊆ S :=
    fun x hx => hguarded.within x (List.mem_toFinset.mp hx)
  have hcard := Finset.card_le_card hsub
  rw [List.toFinset_card_of_nodup hguarded.nodup, Moment.activations, List.length_map] at hcard
  exact hcard

/-! ## The end of calls -/

/-- A call comes back, or unwinds, with fuel for one more than the stack gets deep. -/
theorem call_of_stack_le {deepest : Nat} {m : Fin n} {key : K}
    {next : MemoResult K V → Computation n K V W} {stack : List (Frame n K V W)}
    {s : State n K V W}
    (hdeep : ∀ later, Reaches body ⟨.call m key next, stack, s⟩ later →
      later.stack.length ≤ deepest) :
    (∃ result s', (∀ fuel > deepest, call body fuel m key s = .returned result s')
      ∧ Reaches body ⟨.call m key next, stack, s⟩ ⟨next result, stack, s'⟩)
    ∨ ∃ cause later, (∀ fuel > deepest, call body fuel m key s = .unwound cause later.state)
      ∧ Reaches body ⟨.call m key next, stack, s⟩ later ∧ later.Unwinds cause := by
  -- out of fuel, the stack would be deeper than it gets
  have hfuel : call body (deepest + 1) m key s ≠ .exhausted := by
    intro hexhausted
    obtain ⟨later, hlater, hlength, -⟩ := call_exhausted hexhausted next stack
    have hle := hdeep later hlater
    omega
  have hsame (fuel : Nat) (hmore : fuel > deepest) :
      call body fuel m key s = call body (deepest + 1) m key s :=
    call_mono body hmore hfuel
  have hleads := call_leadsTo body (deepest + 1) m key next stack s
  cases hc : call body (deepest + 1) m key s with
  | returned result s' =>
    rw [hc] at hleads hsame
    exact .inl ⟨result, s', hsame, hleads⟩
  | unwound cause s' =>
    rw [hc] at hleads hsame
    obtain ⟨later, hlater, hunwinds, rfl⟩ := hleads
    exact .inr ⟨cause, later, hsame, hlater, hunwinds⟩
  | exhausted => exact absurd hc hfuel

/--
**The guard turns finitely many keys into an end**, whatever the memoizers hold to begin with. If a
program and the computations that it sets off call only for keys of a finite set, then there are
never more of them on the stack than there are keys. Each call that is made on the way comes back,
with fuel for one more than that, unless it comes to an operation that cannot be done at all. And
the run as a whole ends, however time passes meanwhile: only at the end there is nothing left to do.
-/
theorem calls_end {S : Finset (Fin n × K)} {program : Computation n K V W} {s : State n K V W}
    (hcalls : ∀ now, Reaches body ⟨program, [], s⟩ now →
      ∀ m key next, now.doing = .call m key next → (m, key) ∈ S) :
    Ends body ⟨program, [], s⟩
    ∧ ∀ now, Reaches body ⟨program, [], s⟩ now →
      now.activations.length ≤ S.card
      ∧ (now.Stops ∨ ∃ later, Step body now later ∧ ¬ now.Waits later)
      ∧ ∀ m key next, now.doing = .call m key next →
        (∃ result s', (∀ fuel > S.card, call body fuel m key now.state = .returned result s')
          ∧ Reaches body now ⟨next result, now.stack, s'⟩)
        ∨ ∃ cause later,
          (∀ fuel > S.card, call body fuel m key now.state = .unwound cause later.state)
          ∧ Reaches body now later ∧ later.Unwinds cause := by
  refine ⟨ends_of_stack_le fun now h => stack_le_card hcalls h, ?_⟩
  rintro ⟨doing, stack, state⟩ h
  refine ⟨?_, stops_or_works _, ?_⟩
  · rw [Moment.activations, List.length_map]
    exact stack_le_card hcalls h
  · rintro m key next rfl
    exact call_of_stack_le fun later hlater => stack_le_card hcalls (h.trans hlater)

/-- Drops what it can, lets time pass, and asks for one key after the other, at last for its own. -/
def stubborn (m : Fin 2) (key : Bool) : Computation 2 Bool Nat Unit :=
  .invalidate m key <| .clear m <| .advance ⟨1⟩ <| .call m (!key) fun
    | .ok v => .done (.ok v)
    | .error _ => .call m.rev key fun
      | .ok v => .done (.ok (v + 1))
      | .error _ => .call m key fun _ => .done (.ok 0)

/-- Two memoizers with two keys each make four, and fuel for five. -/
theorem calls_end_stubborn :
    Ends stubborn (.start (.call 0 true .done) #v[.manual, .ttl .manual ⟨0⟩] ())
    ∧ (∀ now, Reaches stubborn
        (.start (.call 0 true .done) #v[.manual, .ttl .manual ⟨0⟩] ()) now →
      now.activations.length ≤ 4)
    ∧ ∃ result s', ∀ fuel > 4,
        call stubborn fuel 0 true (.start #v[.manual, .ttl .manual ⟨0⟩] ())
          = .returned result s' := by
  have hcalls : ∀ now, Reaches stubborn
      ⟨.call 0 true .done, [], .start #v[.manual, .ttl .manual ⟨0⟩] ()⟩ now →
      ∀ m key next, now.doing = .call m key next → (m, key) ∈ Finset.univ :=
    fun _ _ m key _ _ => Finset.mem_univ (m, key)
  have hcard : (Finset.univ : Finset (Fin 2 × Bool)).card = 4 := by decide
  obtain ⟨hends, hreached⟩ := calls_end hcalls
  rw [hcard] at hreached
  refine ⟨hends, fun now h => (hreached now h).1, ?_⟩
  obtain ⟨-, -, hreturns⟩ := hreached _ .refl
  rcases hreturns 0 true .done rfl with ⟨result, s', hcall, -⟩ | ⟨cause, later, hcall, -⟩
  · exact ⟨result, s', hcall⟩
  · -- the clock can go that far
    have hreturned : (match call stubborn 5 0 true
          (.start #v[.manual, .ttl .manual ⟨0⟩] ()) with
        | .returned _ _ => true
        | _ => false) = true := by decide +kernel
    have hunwound := hcall 5 (by omega)
    simp only [hunwound] at hreturned
    cases hreturned

end Recurrence.Memo
