import Recurrence.Proofs.Reactive.Fuel
import Recurrence.Proofs.Reactive.InFlight

/-!
# Reads come to an end

Recipes may read any nodes, chosen on the way, in any cycles, and may take no notice of the errors.
Still a run ends. A read that would go on inside a read of its own node is refused, so there are
never more reads on the stack than there are nodes, and each of them has only so many steps left:
the steps of a read are those of its recipe, which is a tree, and what a read comes to is one of the
branches. An error that is not noticed uses up a step as well.

Catching an unwinding is the exception. What is done after it is not in the tree of the recipe, so a
recipe could catch one unwinding after the other and never end. This is the only way not to end.
-/

namespace Recurrence.Reactive

variable {n c : Nat} {V W : Type}

/-! ## What is left of a task -/

/-- What may be left of a recipe after its first step. -/
inductive Recipe.Left : Recipe n c V W → Recipe n c V W → Prop
  | read {node next} (result : Except (Error n) V) : Left (next result) (.read node next)
  | get {cell next} (v : V) : Left (next v) (.get cell next)
  | set {cell v next} : Left next (.set cell v next)
  | runs {node next} (count : Nat) : Left (next count) (.runs node next)
  | look {next} (w : W) : Left (next w) (.look next)
  | leave {w next} : Left next (.leave w next)

/-- What may be left of a task after a step of its own. -/
inductive Task.Left : Task n c V W → Task n c V W → Prop
  | taken {taken taken' source rest} : Left (.inputs taken' rest) (.inputs taken (source :: rest))
  | recipe {taken rest inputs recipe} : Left (.recipe inputs recipe) (.inputs taken rest)
  | step {inputs recipe recipe'} : Recipe.Left recipe' recipe →
      Left (.recipe inputs recipe') (.recipe inputs recipe)
  | answer {taken rest result} : Left (.answer result) (.inputs taken rest)
  | unwinding {task} : task ≠ .unwinding → Left .unwinding task

/-- A recipe has finitely many steps, whatever it meets. -/
theorem Recipe.left_wellFounded : WellFounded (Left (n := n) (c := c) (V := V) (W := W)) := by
  refine ⟨fun recipe => ?_⟩
  induction recipe with
  | done result => exact ⟨_, fun _ h => by cases h⟩
  | read node next ih => exact ⟨_, fun _ h => by cases h with | read result => exact ih result⟩
  | get cell next ih => exact ⟨_, fun _ h => by cases h with | get v => exact ih v⟩
  | set cell v next ih => exact ⟨_, fun _ h => by cases h with | set => exact ih⟩
  | runs node next ih => exact ⟨_, fun _ h => by cases h with | runs count => exact ih count⟩
  | look next ih => exact ⟨_, fun _ h => by cases h with | look w => exact ih w⟩
  | leave w next ih => exact ⟨_, fun _ h => by cases h with | leave => exact ih⟩
  | unwind => exact ⟨_, fun _ h => by cases h⟩

namespace Task

/-- So has a task. -/
theorem left_wellFounded : WellFounded (Left (n := n) (c := c) (V := V) (W := W)) := by
  have hunwinding : Acc Left (.unwinding : Task n c V W) :=
    ⟨_, fun _ h => by cases h with | unwinding h => exact absurd rfl h⟩
  have hanswer (result : Except (Error n) V) : Acc Left (.answer result : Task n c V W) :=
    ⟨_, fun _ h => by cases h with | unwinding _ => exact hunwinding⟩
  have hrecipe (inputs : List V) (recipe : Recipe n c V W) :
      Acc Left (.recipe inputs recipe : Task n c V W) := by
    induction recipe using Recipe.left_wellFounded.induction with
    | _ recipe ih =>
      refine ⟨_, fun _ h => ?_⟩
      cases h with
      | step h => exact ih _ h
      | unwinding _ => exact hunwinding
  have hinputs (taken : List V) (rest : List (Source n c)) :
      Acc Left (.inputs taken rest : Task n c V W) := by
    induction rest generalizing taken with
    | nil =>
      refine ⟨_, fun _ h => ?_⟩
      cases h with
      | recipe => exact hrecipe _ _
      | answer => exact hanswer _
      | unwinding _ => exact hunwinding
    | cons source rest ih =>
      refine ⟨_, fun _ h => ?_⟩
      cases h with
      | taken => exact ih _
      | recipe => exact hrecipe _ _
      | answer => exact hanswer _
      | unwinding _ => exact hunwinding
  refine ⟨fun task => ?_⟩
  cases task with
  | inputs taken rest => exact hinputs taken rest
  | recipe inputs recipe => exact hrecipe inputs recipe
  | answer result => exact hanswer result
  | unwinding => exact hunwinding

/-- Going on with what a read came to uses up a step. -/
theorem left_resume {task : Task n c V W} {node : Fin n} (h : task.asks? = some node)
    (result : Except (Error n) V) : Left (task.resume result) task := by
  cases task with
  | inputs taken rest =>
    rcases rest with _ | ⟨_ | i, rest⟩
    · cases h
    · cases h
    · cases result with
      | ok v => exact .taken
      | error e => exact .answer
  | recipe inputs recipe =>
    cases recipe with
    | read i next => exact .step (.read result)
    | _ => cases h
  | answer _ => cases h
  | unwinding => cases h

end Task

/-! ## Recipes that always have a result -/

/-- The recipe does not unwind, whatever it meets. -/
inductive Recipe.Returning : Recipe n c V W → Prop
  | done (result : Except (Error n) V) : Returning (.done result)
  | read {node next} : (∀ result, Returning (next result)) → Returning (.read node next)
  | get {cell next} : (∀ v, Returning (next v)) → Returning (.get cell next)
  | set {cell v next} : Returning next → Returning (.set cell v next)
  | runs {node next} : (∀ count, Returning (next count)) → Returning (.runs node next)
  | look {next} : (∀ w, Returning (next w)) → Returning (.look next)
  | leave {w next} : Returning next → Returning (.leave w next)

/-- No recipe unwinds. -/
def System.Returning (system : System n c V W) : Prop :=
  ∀ node inputs, (system.recipe node inputs).Returning

variable {read : Reader n c V W}

theorem run_returns (hread : ∀ i s s', read i s ≠ .unwound s') {recipe : Recipe n c V W}
    (h : recipe.Returning) (s s' : State n c V W) : run read recipe s ≠ .unwound s' := by
  induction h generalizing s with
  | done result => simp [run]
  | @read i next _ ih =>
    rw [run]
    cases hr : read i s with
    | returned result s₁ => exact ih result s₁
    | unwound s₁ => exact absurd hr (hread i s s₁)
    | exhausted => simp
  | get _ ih => exact ih _ _
  | set _ ih => exact ih _
  | runs _ ih => exact ih _ _
  | look _ ih => exact ih _ _
  | leave _ ih => exact ih _

theorem andThen_returns {A B : Type} {outcome : Outcome n A (State n c V W)}
    {next : A → State n c V W → Outcome n B (State n c V W)} (h : ∀ s, outcome ≠ .unwound s)
    (hnext : ∀ a s s', next a s ≠ .unwound s') (s' : State n c V W) :
    outcome.andThen next ≠ .unwound s' := by
  cases outcome with
  | returned result s =>
    cases result with
    | ok a => exact hnext a s s'
    | error e => exact nofun
  | unwound s => exact absurd rfl (h s)
  | exhausted => exact nofun

theorem snapshot_returns (hread : ∀ i s s', read i s ≠ .unwound s') (sources : List (Source n c))
    (s s' : State n c V W) : snapshot read sources s ≠ .unwound s' := by
  induction sources generalizing s s' with
  | nil => exact nofun
  | cons source rest ih =>
    have hfirst (s₁ : State n c V W) : readSource read source s ≠ .unwound s₁ := by
      cases source with
      | cell i => exact nofun
      | node i => exact hread i s s₁
    rw [snapshot_cons]
    refine andThen_returns hfirst (fun v s₁ => ?_) s'
    exact andThen_returns (ih s₁) fun vs s₂ s₃ => nofun

/-! ## The bottom of the stack -/

/-- What the program outside may be at: it takes no inputs, and nothing asks for its result. -/
def Task.Outside (task : Task n c V W) : Prop :=
  task = .unwinding ∨ ∃ inputs rest, task = .recipe inputs rest

theorem Task.Outside.resume {task : Task n c V W} (h : task.Outside)
    (result : Except (Error n) V) : (task.resume result).Outside := by
  rcases h with rfl | ⟨inputs, rest, rfl⟩
  · exact .inl rfl
  · cases rest with
    | read node next => exact .inr ⟨inputs, next result, rfl⟩
    | _ => exact .inr ⟨inputs, _, rfl⟩

/-- At the bottom of the stack there is the program outside. -/
def Grounded : Task n c V W → List (Frame n c V W) → Prop
  | task, [] => task.Outside
  | _, f :: stack => Grounded f.waiting stack

theorem Grounded.of_same {task task' : Task n c V W} {stack : List (Frame n c V W)}
    (h : Grounded task stack) (htask : task.Outside → task'.Outside) : Grounded task' stack := by
  cases stack with
  | nil => exact htask h
  | cons f stack => exact h

/-! ## The shape of a step -/

/-- An unwinding is caught. -/
def Moment.Catches (a b : Moment n c V W) : Prop := a.doing = .unwinding ∧ b.doing ≠ .unwinding

/-- The read on top of the stack is over, and what waited for it goes on or unwinds. -/
def Popped (stack : List (Frame n c V W)) (later : Moment n c V W) : Prop :=
  ∃ f, stack = f :: later.stack
    ∧ ((∃ result, later.doing = f.waiting.resume result) ∨ later.doing = .unwinding)

/-- There are no more reads on the stack than there are nodes. -/
theorem Tracked.stack_le {now : Moment n c V W} (h : Tracked now) : now.stack.length ≤ n := by
  have hlength := h.nodup.length_le_card
  rwa [Fintype.card_fin, Moment.reads, List.length_map] at hlength

variable [BEq V] {system : System n c V W}

/-- **A step catches an unwinding, goes on with a task, begins a read or ends one.** -/
theorem step_shape {a b : Moment n c V W} (hs : Step system a b) :
    a.Catches b
    ∨ (Task.Left b.doing a.doing ∧ b.stack = a.stack)
    ∨ (∃ node, a.doing.asks? = some node ∧ b = a.enter system node)
    ∨ Popped a.stack b := by
  cases hs with
  | caught => exact .inl ⟨rfl, nofun⟩
  | refused hasks _ => exact .inr (.inl ⟨Task.left_resume hasks _, rfl⟩)
  | cell => exact .inr (.inl ⟨.taken, rfl⟩)
  | unchanged _ => exact .inr (.inl ⟨.answer, rfl⟩)
  | recomputing _ => exact .inr (.inl ⟨.recipe, rfl⟩)
  | get => exact .inr (.inl ⟨.step (.get _), rfl⟩)
  | set => exact .inr (.inl ⟨.step .set, rfl⟩)
  | runs => exact .inr (.inl ⟨.step (.runs _), rfl⟩)
  | look => exact .inr (.inl ⟨.step (.look _), rfl⟩)
  | leave => exact .inr (.inl ⟨.step .leave, rfl⟩)
  | unwind => exact .inr (.inl ⟨.unwinding nofun, rfl⟩)
  | entered hasks _ => exact .inr (.inr (.inl ⟨_, hasks, rfl⟩))
  | succeeded | failed | answered => exact .inr (.inr (.inr ⟨_, rfl, .inl ⟨_, rfl⟩⟩))
  | unwound => exact .inr (.inr (.inr ⟨_, rfl, .inr rfl⟩))

/-! ## Runs that end -/

/-- The next moment, reached without catching an unwinding. -/
def Goes (system : System n c V W) (later now : Moment n c V W) : Prop :=
  Step system now later ∧ ¬ now.Catches later

/-- A run that goes on for ever from here catches unwindings for ever. -/
def Ends (system : System n c V W) (start : Moment n c V W) : Prop :=
  ∀ run : ℕ → Moment n c V W, run 0 = start → (∀ i, Step system (run i) (run (i + 1))) →
    ∀ i, ∃ j ≥ i, (run j).Catches (run (j + 1))

/-- A task ends if what comes after it ends. The outer induction is on the room that is left for
reads on the stack, the inner one on what is left of the task. -/
theorem acc_of_room {room : Nat} {task : Task n c V W} {stack : List (Frame n c V W)}
    {s : State n c V W} {past : List (Deed n V)} (hroom : stack.length + room = n)
    (hafter : ∀ later, Popped stack later → Tracked later → Acc (Goes system) later)
    (h : Tracked ⟨task, stack, s, past⟩) : Acc (Goes system) ⟨task, stack, s, past⟩ := by
  induction room using Nat.strong_induction_on generalizing task stack s past with
  | _ room ihroom =>
  induction task using Task.left_wellFounded.induction generalizing s past with
  | _ task ih =>
  refine ⟨_, ?_⟩
  rintro later ⟨hs, hcatches⟩
  have ht := tracked_step _ _ hs h
  rcases step_shape hs with hcaught | ⟨hleft, hstack⟩ | ⟨node, hasks, rfl⟩ | hpopped
  · exact absurd hcaught hcatches
  · obtain ⟨doing, stack', s', past'⟩ := later
    cases hstack
    exact ih doing hleft ht
  · -- the read has less room, and the task that made it goes on after it
    have hlength : stack.length + 1 ≤ n := ht.stack_le
    have hroom' : stack.length + 1 + (room - 1) = n := by omega
    refine ihroom (room - 1) (by omega) hroom' ?_ ht
    rintro ⟨doing, stack', s', past'⟩ ⟨f, hf, hdoing⟩ ht'
    cases hf
    refine ih doing ?_ ht'
    rcases hdoing with ⟨result, rfl⟩ | rfl
    · exact Task.left_resume hasks result
    · exact .unwinding fun hunwinding => by
        rw [show task = .unwinding from hunwinding] at hasks
        cases hasks
  · exact hafter later hpopped ht

theorem acc_of_tracked {now : Moment n c V W} (h : Tracked now) : Acc (Goes system) now := by
  obtain ⟨task, stack, s, past⟩ := now
  induction stack generalizing task s past with
  | nil =>
    refine acc_of_room (Nat.zero_add n) ?_ h
    rintro later ⟨f, hf, -⟩
    cases hf
  | cons f stack ih =>
    have hlength : (f :: stack).length ≤ n := h.stack_le
    refine acc_of_room (Nat.add_sub_of_le hlength) ?_ h
    rintro ⟨doing, stack', s', past'⟩ ⟨g, hg, -⟩ ht
    cases hg
    exact ih doing s' past' ht

/-- **A run ends** if the nodes in flight are those on its stack. -/
theorem Tracked.ends {start : Moment n c V W} (h : Tracked start) : Ends system start := by
  intro run hstart hstep i
  have ht (i : ℕ) : Tracked (run i) := by
    induction i with
    | zero => exact hstart ▸ h
    | succ i ih => exact tracked_step _ _ (hstep i) ih
  by_contra hnone
  have hgoes : ∀ j ≥ i, Goes system (run (j + 1)) (run j) :=
    fun j hj => ⟨hstep j, fun hcatches => hnone ⟨j, hj, hcatches⟩⟩
  have hnever : ∀ now, Acc (Goes system) now → ∀ j ≥ i, run j ≠ now := by
    intro now hacc
    induction hacc with
    | intro now _ ih =>
      rintro j hj rfl
      exact ih _ (hgoes j hj) (j + 1) (by omega) rfl
  exact hnever _ (acc_of_tracked (ht i)) i le_rfl rfl

/-! ## No run is stuck -/

theorem grounded_step (a b : Moment n c V W) (hs : Step system a b)
    (h : Grounded a.doing a.stack) : Grounded b.doing b.stack := by
  cases hs with
  | refused _ _ => exact h.of_same fun ht => ht.resume _
  | entered _ _ => exact h
  | cell => exact h.of_same nofun
  | unchanged _ | recomputing _ => exact h
  | get | set | runs | look | leave => exact h.of_same fun _ => .inr ⟨_, _, rfl⟩
  | unwind => exact h.of_same fun _ => .inl rfl
  | succeeded | failed | answered => exact Grounded.of_same h fun ht => ht.resume _
  | unwound => exact Grounded.of_same h fun _ => .inl rfl
  | caught => exact Grounded.of_same h fun _ => .inr ⟨_, _, rfl⟩

/-- The program outside has come to its end. -/
def Moment.Stops (now : Moment n c V W) : Prop :=
  now.stack = []
    ∧ (now.doing = .unwinding ∨ ∃ inputs result, now.doing = .recipe inputs (.done result))

/-- A node that is asked for is read or refused. -/
theorem exists_step_of_asks {now : Moment n c V W} {node : Fin n}
    (h : now.doing.asks? = some node) : ∃ later, Step system now later := by
  by_cases hin : node ∈ now.state.inFlight
  · exact ⟨_, .refused h hin⟩
  · exact ⟨_, .entered h hin⟩

/-- Up to its end a program can always do something. -/
theorem stops_or_steps {now : Moment n c V W} (h : Grounded now.doing now.stack) :
    now.Stops ∨ ∃ later, Step system now later := by
  obtain ⟨task, stack, s, past⟩ := now
  cases task with
  | inputs taken rest =>
    rcases rest with _ | ⟨i | node, rest⟩
    · cases stack with
      | nil => rcases h with h | ⟨_, _, h⟩ <;> cases h
      | cons f stack =>
        cases hstored : s.upToDate? f.node taken with
        | some v => exact .inr ⟨_, .unchanged hstored⟩
        | none => exact .inr ⟨_, .recomputing hstored⟩
    · exact .inr ⟨_, .cell⟩
    · exact .inr (exists_step_of_asks rfl)
  | recipe inputs recipe =>
    cases recipe with
    | done result =>
      cases stack with
      | nil => exact .inl ⟨rfl, .inr ⟨inputs, result, rfl⟩⟩
      | cons f stack =>
        cases result with
        | ok v => exact .inr ⟨_, .succeeded⟩
        | error e => exact .inr ⟨_, .failed⟩
    | read node next => exact .inr (exists_step_of_asks rfl)
    | get cell next => exact .inr ⟨_, .get⟩
    | set cell v next => exact .inr ⟨_, .set⟩
    | runs node next => exact .inr ⟨_, .runs⟩
    | look next => exact .inr ⟨_, .look⟩
    | leave w next => exact .inr ⟨_, .leave⟩
    | unwind => exact .inr ⟨_, .unwind⟩
  | answer result =>
    cases stack with
    | nil => rcases h with h | ⟨_, _, h⟩ <;> cases h
    | cons f stack => exact .inr ⟨_, .answered⟩
  | unwinding =>
    cases stack with
    | nil => exact .inl ⟨rfl, .inl rfl⟩
    | cons f stack => exact .inr ⟨_, .unwound⟩

/-! ## Every read -/

/-- Where no recipe unwinds, no read does. -/
theorem readWithin_returns (h : system.Returning) (fuel : Nat) (node : Fin n)
    (s s' : State n c V W) : readWithin system fuel node s ≠ .unwound s' := by
  induction fuel generalizing node s s' with
  | zero => exact nofun
  | succ fuel ih =>
    by_cases hin : node ∈ s.inFlight
    · rw [readWithin_of_inFlight system hin]
      exact nofun
    have hcourse := readWithin_course system hin fuel
    intro hunwound
    rw [hunwound] at hcourse
    cases hcourse with
    | inputUnwound htaken => exact snapshot_returns ih _ _ _ htaken
    | unwound _ _ hrun => exact run_returns ih (h _ _) _ _ hrun

/--
**Reads always end.**

At every moment of every run the reads on the stack are of different nodes, so there are no more of
them than there are nodes. The run does not go on for ever, unless it catches one unwinding after
the other, and it does not stop before its end. Each read that is asked for on the way comes back,
with fuel for one more than there are nodes or with any more: it returns a value or an error, and
what asked for it goes on, or it unwinds, which needs a recipe that does.
-/
theorem reads_end {program : Recipe n c V W} {cells : Vector V c} {outside : W}
    {now : Moment n c V W} (h : Reaches system (.start program cells outside) now) :
    (now.reads.Nodup ∧ now.stack.length ≤ n)
    ∧ Ends system now
    ∧ (now.Stops ∨ ∃ later, Step system now later)
    ∧ ∀ node, now.doing.asks? = some node →
      (∃ result s' past, (∀ fuel > n, readWithin system fuel node now.state = .returned result s')
        ∧ Reaches system now ⟨now.doing.resume result, now.stack, s', past⟩)
      ∨ (¬ system.Returning
        ∧ ∃ s' past, (∀ fuel > n, readWithin system fuel node now.state = .unwound s')
          ∧ Reaches system now ⟨.unwinding, now.stack, s', past⟩) := by
  have ht := tracked_reached h
  have hgrounded : Grounded now.doing now.stack :=
    h.keeps (P := fun now => Grounded now.doing now.stack) grounded_step (.inr ⟨_, _, rfl⟩)
  refine ⟨⟨ht.nodup, ht.stack_le⟩, ht.ends, stops_or_steps hgrounded, fun node hasks => ?_⟩
  have hends : readWithin system (n + 1) node now.state ≠ .exhausted :=
    readWithin_ends (ht.inFlight ▸ ht.nodup) (by omega) node
  have hmore (fuel : Nat) (hfuel : fuel > n) :
      readWithin system fuel node now.state = readWithin system (n + 1) node now.state :=
    readWithin_extends system hfuel node now.state hends
  have hleads := readWithin_leadsTo system (n + 1) now.doing node now.stack now.state now.past hasks
  cases hread : readWithin system (n + 1) node now.state with
  | returned result s' =>
    rw [hread] at hleads
    obtain ⟨past, hreaches⟩ := hleads
    exact .inl ⟨result, s', past, fun fuel hfuel => (hmore fuel hfuel).trans hread, hreaches⟩
  | unwound s' =>
    rw [hread] at hleads
    obtain ⟨past, hreaches⟩ := hleads
    refine .inr ⟨fun hreturning => readWithin_returns hreturning _ _ _ _ hread, s', past, ?_⟩
    exact ⟨fun fuel hfuel => (hmore fuel hfuel).trans hread, hreaches⟩
  | exhausted => exact absurd hread hends

/-- Each of two nodes has a cell. It reads itself, then the other node, whatever that comes to, and
sets the other one's cell. -/
def restless : System 2 2 Nat Unit where
  inputs node := [.cell node]
  recipe node _ :=
    .read node fun _ => .read node.rev fun
      | .ok v => .set node.rev (v + 1) (.pure v)
      | .error _ => .set node.rev 7 (.pure 7)

/-- Two nodes that read each other over and over come to an end. -/
theorem reads_end_restless :
    (∀ now, Reaches restless (.start (.read 0 .done) #v[0, 0] ()) now → now.stack.length ≤ 2)
    ∧ Ends restless (.start (.read 0 .done) #v[0, 0] ())
    ∧ ∃ result s', ∀ fuel > 2,
        readWithin restless fuel 0 (.start #v[0, 0] ()) = .returned result s' := by
  have hreturning : restless.Returning := by
    intro node inputs
    refine .read fun _ => .read fun result => ?_
    cases result <;> exact .set (.done _)
  have hstart : Reaches restless (.start (.read 0 .done) #v[0, 0] ()) _ := .refl
  obtain ⟨-, hends, -, hreads⟩ := reads_end hstart
  refine ⟨fun now h => (reads_end h).1.2, hends, ?_⟩
  rcases hreads 0 rfl with ⟨result, s', -, hreturned, -⟩ | ⟨hnot, -⟩
  · exact ⟨result, s', hreturned⟩
  · exact absurd hreturning hnot

end Recurrence.Reactive
