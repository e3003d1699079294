import Mathlib.Logic.Relation
import Recurrence.Proofs.Reactive.Effect

/-!
# Reads, moment by moment

`readWithin` takes a read from its start to its end. What holds *while* reads wait for each other
needs something finer: a run is cut into moments, and a moment shows the stack of reads, what is
being done on top of it, and what has become of recipes so far.

At the bottom of the stack stands a program that is not the recipe of any node. It sets cells and
reads nodes from outside, so the runs of all programs are all histories. The program and the recipes
may also do what `run` has no step for: catch an unwinding and go on as they like.

`readWithin_leadsTo` ties the moments to reads: what a read returns, or unwinds with, is what its
moments lead to, on top of whatever stack it is made.
-/

namespace Recurrence.Reactive

variable {n c : Nat} {V W : Type}

/-- What a read is at. -/
inductive Task (n c : Nat) (V W : Type) where
  /-- Some inputs have been taken, and the others are still to be read. -/
  | inputs (taken : List V) (rest : List (Source n c))
  /-- A recipe has been started with these inputs, and so much of it is left. -/
  | recipe (inputs : List V) (rest : Recipe n c V W)
  /-- There is a result without a recipe. -/
  | answer (result : Except (Error n) V)
  | unwinding

namespace Task

/-- The node that is to be read next. -/
def asks? : Task n c V W → Option (Fin n)
  | .inputs _ (.node i :: _) => some i
  | .recipe _ (.read i _) => some i
  | _ => none

/-- Goes on with what the read of that node came to. -/
def resume : Task n c V W → Except (Error n) V → Task n c V W
  | .inputs taken (_ :: rest), .ok v => .inputs (taken ++ [v]) rest
  | .inputs _ _, .error e => .answer (.error e)
  | .recipe given (.read _ next), result => .recipe given (next result)
  | task, _ => task

end Task

/-- A read that has started and not ended, and what waits for its result. -/
structure Frame (n c : Nat) (V W : Type) where
  node : Fin n
  waiting : Task n c V W

/-- What becomes of a recipe. One that is started and does not succeed fails or unwinds. -/
inductive Deed (n : Nat) (V : Type) where
  | started (node : Fin n) (inputs : List V)
  | succeeded (node : Fin n) (v : V)

/-- What is done on top of the stack, the reads in progress, innermost first, the state, and what
has become of recipes, latest first. With an empty stack the program outside is at work. -/
structure Moment (n c : Nat) (V W : Type) where
  doing : Task n c V W
  stack : List (Frame n c V W)
  state : State n c V W
  past : List (Deed n V)

namespace Moment

/-- The nodes whose reads are on the stack, innermost first. -/
def reads (now : Moment n c V W) : List (Fin n) := now.stack.map Frame.node

/-- A program sets out, and no node has been read yet. -/
def start (program : Recipe n c V W) (cells : Vector V c) (outside : W) : Moment n c V W :=
  ⟨.recipe [] program, [], .start cells outside, []⟩

/-- The read that is asked for is refused. -/
def refuse (now : Moment n c V W) (node : Fin n) : Moment n c V W :=
  { now with doing := now.doing.resume (.error (.circular node)) }

/-- The read that is asked for begins. -/
def enter (system : System n c V W) (now : Moment n c V W) (node : Fin n) : Moment n c V W :=
  ⟨.inputs [] (system.inputs node), ⟨node, now.doing⟩ :: now.stack, now.state.enter node, now.past⟩

end Moment

variable [BEq V]

/-- One moment and the next. -/
inductive Step (system : System n c V W) : Moment n c V W → Moment n c V W → Prop
  | refused {now node} : now.doing.asks? = some node → node ∈ now.state.inFlight →
      Step system now (now.refuse node)
  | entered {now node} : now.doing.asks? = some node → node ∉ now.state.inFlight →
      Step system now (now.enter system node)
  | cell {taken i rest stack s past} :
      Step system ⟨.inputs taken (.cell i :: rest), stack, s, past⟩
        ⟨.inputs (taken ++ [s.get i]) rest, stack, s, past⟩
  | unchanged {inputs f stack s past v} : s.upToDate? f.node inputs = some v →
      Step system ⟨.inputs inputs [], f :: stack, s, past⟩
        ⟨.answer (.ok v), f :: stack, s.note (.unchanged f.node), past⟩
  | recomputing {inputs f stack s past} : s.upToDate? f.node inputs = none →
      Step system ⟨.inputs inputs [], f :: stack, s, past⟩
        ⟨.recipe inputs (system.recipe f.node inputs), f :: stack,
          s.startRun f.node inputs.length, .started f.node inputs :: past⟩
  | get {inputs i next stack s past} :
      Step system ⟨.recipe inputs (.get i next), stack, s, past⟩
        ⟨.recipe inputs (next (s.get i)), stack, s, past⟩
  | set {inputs i v next stack s past} :
      Step system ⟨.recipe inputs (.set i v next), stack, s, past⟩
        ⟨.recipe inputs next, stack, s.set i v, past⟩
  | runs {inputs i next stack s past} :
      Step system ⟨.recipe inputs (.runs i next), stack, s, past⟩
        ⟨.recipe inputs (next (s.runCount i)), stack, s, past⟩
  | look {inputs next stack s past} :
      Step system ⟨.recipe inputs (.look next), stack, s, past⟩
        ⟨.recipe inputs (next s.outside), stack, s, past⟩
  | leave {inputs w next stack s past} :
      Step system ⟨.recipe inputs (.leave w next), stack, s, past⟩
        ⟨.recipe inputs next, stack, { s with outside := w }, past⟩
  | unwind {inputs stack s past} :
      Step system ⟨.recipe inputs .unwind, stack, s, past⟩ ⟨.unwinding, stack, s, past⟩
  | succeeded {inputs v f stack s past} :
      Step system ⟨.recipe inputs (.done (.ok v)), f :: stack, s, past⟩
        ⟨f.waiting.resume (.ok v), stack, (s.store f.node inputs v).exit f.node,
          .succeeded f.node v :: past⟩
  | failed {inputs e f stack s past} :
      Step system ⟨.recipe inputs (.done (.error e)), f :: stack, s, past⟩
        ⟨f.waiting.resume (.error e), stack, s.exit f.node, past⟩
  | answered {result f stack s past} :
      Step system ⟨.answer result, f :: stack, s, past⟩
        ⟨f.waiting.resume result, stack, s.exit f.node, past⟩
  | unwound {f stack s past} :
      Step system ⟨.unwinding, f :: stack, s, past⟩ ⟨.unwinding, stack, s.exit f.node, past⟩
  /-- A recipe, or the program, goes on as if nothing had happened. -/
  | caught {node inputs rest rest' stack s past} :
      Step system ⟨.unwinding, ⟨node, .recipe inputs rest⟩ :: stack, s, past⟩
        ⟨.recipe inputs rest', stack, s.exit node, past⟩

/-- A later moment of the same run. -/
abbrev Reaches (system : System n c V W) : Moment n c V W → Moment n c V W → Prop :=
  Relation.ReflTransGen (Step system)

variable {system : System n c V W}

/-- What every step keeps is kept by the whole run. -/
theorem Reaches.keeps {P : Moment n c V W → Prop} {start now : Moment n c V W}
    (h : Reaches system start now) (hstep : ∀ a b, Step system a b → P a → P b) (hstart : P start) :
    P now := by
  induction h with
  | refl => exact hstart
  | tail _ hs ih => exact hstep _ _ hs ih

/-! ## Reads are runs -/

/-- An outcome is what the moments from `start` on lead to, on top of this stack: a result to the
task that goes on with it, an unwinding to a task that unwinds. -/
def LeadsTo {A : Type} (system : System n c V W) (start : Moment n c V W)
    (stack : List (Frame n c V W)) (finish : Except (Error n) A → Task n c V W) :
    Outcome n A (State n c V W) → Prop
  | .returned result s => ∃ past, Reaches system start ⟨finish result, stack, s, past⟩
  | .unwound s => ∃ past, Reaches system start ⟨.unwinding, stack, s, past⟩
  | .exhausted => True

theorem LeadsTo.head {A : Type} {start mid : Moment n c V W} {stack : List (Frame n c V W)}
    {finish : Except (Error n) A → Task n c V W} {outcome : Outcome n A (State n c V W)}
    (hmid : Reaches system start mid) (h : LeadsTo system mid stack finish outcome) :
    LeadsTo system start stack finish outcome := by
  cases outcome with
  | returned result s =>
    obtain ⟨past, h⟩ := h
    exact ⟨past, hmid.trans h⟩
  | unwound s =>
    obtain ⟨past, h⟩ := h
    exact ⟨past, hmid.trans h⟩
  | exhausted => trivial

/-- A run goes on from a value; everything else has the same meaning before and after. -/
theorem LeadsTo.andThen {A B : Type} {start : Moment n c V W} {stack : List (Frame n c V W)}
    {finish : Except (Error n) A → Task n c V W} {finish' : Except (Error n) B → Task n c V W}
    {outcome : Outcome n A (State n c V W)}
    {next : A → State n c V W → Outcome n B (State n c V W)}
    (h : LeadsTo system start stack finish outcome)
    (hnext : ∀ a s past, LeadsTo system ⟨finish (.ok a), stack, s, past⟩ stack finish' (next a s))
    (herror : ∀ e, finish (.error e) = finish' (.error e)) :
    LeadsTo system start stack finish' (outcome.andThen next) := by
  cases outcome with
  | returned result s =>
    obtain ⟨past, h⟩ := h
    cases result with
    | ok a => exact (hnext a s past).head h
    | error e => exact ⟨past, herror e ▸ h⟩
  | unwound s => exact h
  | exhausted => trivial

/-- Reads are what moments lead to, whatever waits for them. -/
def ReadsLead (system : System n c V W) (read : Reader n c V W) : Prop :=
  ∀ (task : Task n c V W) (node : Fin n) (stack : List (Frame n c V W)) (s : State n c V W)
    (past : List (Deed n V)), task.asks? = some node →
    LeadsTo system ⟨task, stack, s, past⟩ stack task.resume (read node s)

variable {read : Reader n c V W}

theorem run_leadsTo (hread : ReadsLead system read) (inputs : List V) (recipe : Recipe n c V W)
    (stack : List (Frame n c V W)) (s : State n c V W) (past : List (Deed n V)) :
    LeadsTo system ⟨.recipe inputs recipe, stack, s, past⟩ stack
      (fun result => .recipe inputs (.done result)) (run read recipe s) := by
  induction recipe generalizing s past with
  | done result => exact ⟨past, .refl⟩
  | read i next ih =>
    have h := hread (.recipe inputs (.read i next)) i stack s past rfl
    rw [run]
    cases hr : read i s with
    | returned result s₁ =>
      rw [hr] at h
      obtain ⟨past₁, h⟩ := h
      exact (ih result s₁ past₁).head h
    | unwound s₁ =>
      rw [hr] at h
      exact h
    | exhausted => trivial
  | get i next ih => exact (ih _ _ _).head (.single .get)
  | set i v next ih => exact (ih _ _).head (.single .set)
  | runs i next ih => exact (ih _ _ _).head (.single .runs)
  | look next ih => exact (ih _ _ _).head (.single .look)
  | leave w next ih => exact (ih _ _).head (.single .leave)
  | unwind => exact ⟨past, .single .unwind⟩

/-- What is to be done with all the inputs, or with the first error among them. -/
def Task.ofInputs (taken : List V) : Except (Error n) (List V) → Task n c V W
  | .ok vs => .inputs (taken ++ vs) []
  | .error e => .answer (.error e)

theorem snapshot_leadsTo (hread : ReadsLead system read) (taken : List V)
    (sources : List (Source n c)) (stack : List (Frame n c V W)) (s : State n c V W)
    (past : List (Deed n V)) :
    LeadsTo system ⟨.inputs taken sources, stack, s, past⟩ stack (Task.ofInputs taken)
      (snapshot read sources s) := by
  induction sources generalizing taken s past with
  | nil =>
    have hall : (Task.ofInputs taken (.ok []) : Task n c V W) = .inputs taken [] := by
      rw [Task.ofInputs, List.append_nil]
    exact ⟨past, hall ▸ .refl⟩
  | cons source rest ih =>
    have hfirst : LeadsTo system ⟨.inputs taken (source :: rest), stack, s, past⟩ stack
        (Task.resume (.inputs taken (source :: rest))) (readSource read source s) := by
      cases source with
      | cell i => exact ⟨past, .single .cell⟩
      | node i => exact hread (.inputs taken (.node i :: rest)) i stack s past rfl
    rw [snapshot_cons]
    refine hfirst.andThen (fun v s₁ past₁ => ?_) fun _ => rfl
    refine (ih (taken ++ [v]) s₁ past₁).andThen (fun vs s₂ past₂ => ?_) fun _ => rfl
    have hall : (Task.ofInputs taken (.ok (v :: vs)) : Task n c V W)
        = Task.ofInputs (taken ++ [v]) (.ok vs) := by
      rw [Task.ofInputs, Task.ofInputs, List.append_assoc, List.singleton_append]
    exact ⟨past₂, hall ▸ .refl⟩

/-- With its inputs at hand a read goes on to its end. -/
theorem evaluate_leadsTo (hread : ReadsLead system read) (f : Frame n c V W)
    (inputs : List V) (stack : List (Frame n c V W)) (s : State n c V W) (past : List (Deed n V)) :
    LeadsTo system ⟨.inputs inputs [], f :: stack, s, past⟩ stack f.waiting.resume
      (close f.node (evaluate system read f.node inputs s)) := by
  rw [evaluate]
  cases hstored : s.upToDate? f.node inputs with
  | some v => exact ⟨past, .tail (.single (.unchanged hstored)) .answered⟩
  | none =>
    have hrun := run_leadsTo hread inputs (system.recipe f.node inputs) (f :: stack)
      (s.startRun f.node inputs.length) (.started f.node inputs :: past)
    replace hrun := hrun.head (.single (.recomputing hstored))
    dsimp only
    cases hr : run read (system.recipe f.node inputs) (s.startRun f.node inputs.length) with
    | returned result s₁ =>
      rw [hr] at hrun
      obtain ⟨past₁, hrun⟩ := hrun
      cases result with
      | ok v => exact ⟨_, hrun.tail .succeeded⟩
      | error e => exact ⟨_, hrun.tail .failed⟩
    | unwound s₁ =>
      rw [hr] at hrun
      obtain ⟨past₁, hrun⟩ := hrun
      exact ⟨_, hrun.tail .unwound⟩
    | exhausted => trivial

/-- **What a read comes to is what its moments lead to**, on top of any stack. -/
theorem readWithin_leadsTo (system : System n c V W) (fuel : Nat) :
    ReadsLead system (readWithin system fuel) := by
  induction fuel with
  | zero =>
    intro task node stack s past hasks
    trivial
  | succ fuel ih =>
    intro task node stack s past hasks
    rw [readWithin]
    split
    · rename_i hin
      exact ⟨past, .single (.refused hasks hin)⟩
    · rename_i hnot
      have hentered : Step system ⟨task, stack, s, past⟩
          ⟨.inputs [] (system.inputs node), ⟨node, task⟩ :: stack, s.enter node, past⟩ :=
        .entered hasks hnot
      have htaken := snapshot_leadsTo ih [] (system.inputs node) (⟨node, task⟩ :: stack)
        (s.enter node) past
      replace htaken := htaken.head (.single hentered)
      cases hs : snapshot (readWithin system fuel) (system.inputs node) (s.enter node) with
      | returned result s₁ =>
        rw [hs] at htaken
        obtain ⟨past₁, htaken⟩ := htaken
        cases result with
        | ok inputs => exact (evaluate_leadsTo ih ⟨node, task⟩ inputs stack s₁ past₁).head htaken
        | error e => exact ⟨past₁, htaken.tail .answered⟩
      | unwound s₁ =>
        rw [hs] at htaken
        obtain ⟨past₁, htaken⟩ := htaken
        exact ⟨past₁, htaken.tail .unwound⟩
      | exhausted => trivial

end Recurrence.Reactive
