import Recurrence.Proofs.Reactive.InFlight

/-!
# What nodes remember is their latest success

A history tells which recipes were started, with which inputs, and which of them succeeded. What a
node remembers can be read off it: the inputs with which the run that succeeded last was started,
and its value. Runs that failed or unwound since then have left no trace.

A run of a recipe may read nodes and set cells, also those that were its inputs, before it succeeds.
That the latest start before a success is the start of the same run is due to the guard: while a
recipe runs its node is in flight, so it is not started once more.
-/

namespace Recurrence.Reactive

variable {n c : Nat} {V W : Type}

/-! ## Reading a history -/

/-- The inputs with which a recipe was started last. -/
def lastStart (node : Fin n) : List (Deed n V) → Option (List V)
  | [] => none
  | .started i inputs :: past => if i = node then some inputs else lastStart node past
  | .succeeded _ _ :: past => lastStart node past

/-- The value of the latest success of a recipe, with the inputs it was started with. -/
def lastSuccess (node : Fin n) : List (Deed n V) → Option (Stored V)
  | [] => none
  | .started _ _ :: past => lastSuccess node past
  | .succeeded i v :: past =>
    if i = node then (lastStart node past).map fun inputs => ⟨inputs, v⟩
    else lastSuccess node past

/-- How many times a recipe was started. -/
def startCount (node : Fin n) : List (Deed n V) → Nat
  | [] => 0
  | .started i _ :: past => startCount node past + if i = node then 1 else 0
  | .succeeded _ _ :: past => startCount node past

/-! ## Recipes in progress -/

/-- The inputs with which the recipe was started, if one is running. -/
def Task.given? : Task n c V W → Option (List V)
  | .recipe given _ => some given
  | _ => none

theorem Task.given?_resume (task : Task n c V W) (result : Except (Error n) V) :
    (task.resume result).given? = task.given? := by
  cases task with
  | inputs taken rest => cases rest <;> cases result <;> rfl
  | recipe inputs rest => cases rest <;> rfl
  | answer _ => rfl
  | unwinding => rfl

/-- The recipe of each read on the stack that runs one was started last with its inputs. The task of
a read stands in the frame above it, or on top of all. -/
def Given (past : List (Deed n V)) : Task n c V W → List (Frame n c V W) → Prop
  | _, [] => True
  | task, f :: stack =>
    (∀ inputs, task.given? = some inputs → lastStart f.node past = some inputs)
      ∧ Given past f.waiting stack

variable {past past' : List (Deed n V)} {task task' : Task n c V W} {f : Frame n c V W}
  {stack : List (Frame n c V W)}

theorem Given.of_same (h : Given past task stack)
    (hgiven : task'.given? = task.given? ∨ task'.given? = none) : Given past task' stack := by
  cases stack with
  | nil => trivial
  | cons f stack =>
    refine ⟨fun inputs htask => ?_, h.2⟩
    rcases hgiven with hgiven | hgiven
    · exact h.1 inputs (hgiven ▸ htask)
    · rw [hgiven] at htask
      exact absurd htask (by simp)

theorem Given.resume (h : Given past task (f :: stack)) (result : Except (Error n) V) :
    Given past (f.waiting.resume result) stack :=
  Given.of_same h.2 (.inl (Task.given?_resume _ _))

/-- Deeds of other nodes make no difference. -/
theorem Given.of_past (h : Given past task stack)
    (hpast : ∀ g ∈ stack, lastStart g.node past' = lastStart g.node past) :
    Given past' task stack := by
  induction stack generalizing task with
  | nil => trivial
  | cons g stack ih =>
    refine ⟨fun inputs htask => ?_, ih h.2 fun g' hg' => hpast g' (List.mem_cons_of_mem _ hg')⟩
    rw [hpast g List.mem_cons_self]
    exact h.1 inputs htask

/-! ## The invariant -/

/-- Nodes remember and count what the history tells. -/
structure Recorded (now : Moment n c V W) : Prop where
  tracked : Tracked now
  given : Given now.past now.doing now.stack
  remembered : ∀ i, now.state.remembered i = lastSuccess i now.past
  runCount : ∀ i, now.state.runCount i = startCount i now.past

theorem recorded_start (program : Recipe n c V W) (cells : Vector V c) (outside : W) :
    Recorded (.start program cells outside) where
  tracked := tracked_start program cells outside
  given := trivial
  remembered _ := Vector.getElem_replicate ..
  runCount _ := Vector.getElem_replicate ..

/-- A step with nothing to record. -/
theorem Recorded.of_same {a b : Moment n c V W} (h : Recorded a) (ht : Tracked b)
    (hgiven : Given a.past b.doing b.stack) (hpast : b.past = a.past)
    (hremembered : b.state.stored = a.state.stored) (hruns : b.state.runs = a.state.runs) :
    Recorded b where
  tracked := ht
  given := hpast ▸ hgiven
  remembered i := by
    rw [State.remembered, hremembered, hpast]
    exact h.remembered i
  runCount i := by
    rw [State.runCount, hruns, hpast]
    exact h.runCount i

variable [BEq V] {system : System n c V W}

/-- **Preserved by every step.** -/
theorem recorded_step (a b : Moment n c V W) (hs : Step system a b) (h : Recorded a) :
    Recorded b := by
  have ht := tracked_step a b hs h.tracked
  have hgiven := h.given
  cases hs with
  | refused _ _ => exact h.of_same ht (hgiven.of_same (.inl (Task.given?_resume _ _))) rfl rfl rfl
  | entered _ _ =>
    refine h.of_same ht ⟨?_, hgiven⟩ rfl rfl rfl
    intro inputs htask
    exact absurd htask (by simp [Moment.enter, Task.given?])
  | @recomputing inputs f stack s past _ =>
    have hnot : f.node ∉ stack.map Frame.node := (List.nodup_cons.mp ht.nodup).1
    refine ⟨ht, ⟨?_, ?_⟩, h.remembered, ?_⟩
    · intro inputs' htask
      cases htask
      rw [lastStart, if_pos rfl]
    -- the other reads on the stack are of other nodes
    · refine hgiven.2.of_past fun g hg => ?_
      have hne : f.node ≠ g.node := fun heq => hnot (heq ▸ List.mem_map_of_mem hg)
      rw [lastStart, if_neg hne]
    · intro i
      have hbefore : s.runCount i = startCount i past := h.runCount i
      show (s.startRun f.node inputs.length).runCount i = startCount i (_ :: past)
      rw [State.runCount_startRun, startCount, ← hbefore]
      by_cases hi : i = f.node
      · rw [if_pos hi, if_pos hi.symm, hi]
      · rw [if_neg hi, if_neg (Ne.symm hi), Nat.add_zero]
  | @succeeded inputs v f stack s past =>
    refine ⟨ht, (hgiven.resume (.ok v)).of_past fun _ _ => rfl, ?_, h.runCount⟩
    intro i
    have hbefore : s.remembered i = lastSuccess i past := h.remembered i
    have hstarted : lastStart f.node past = some inputs := hgiven.1 inputs rfl
    show (s.store f.node inputs v).remembered i = lastSuccess i (_ :: past)
    rw [State.remembered_store, lastSuccess, ← hbefore]
    by_cases hi : i = f.node
    · rw [if_pos hi, if_pos hi.symm, hi, hstarted]
      rfl
    · rw [if_neg hi, if_neg (Ne.symm hi)]
  | unchanged _ => exact h.of_same ht (hgiven.of_same (.inl rfl)) rfl rfl rfl
  | cell | get | set | runs | look | leave =>
    exact h.of_same ht (hgiven.of_same (.inl rfl)) rfl rfl rfl
  | unwind => exact h.of_same ht (hgiven.of_same (.inr rfl)) rfl rfl rfl
  | failed | answered => exact h.of_same ht (hgiven.resume _) rfl rfl rfl
  | unwound => exact h.of_same ht (Given.of_same hgiven.2 (.inr rfl)) rfl rfl rfl
  | caught => exact h.of_same ht (Given.of_same hgiven.2 (.inl rfl)) rfl rfl rfl

theorem recorded_reached {program : Recipe n c V W} {cells : Vector V c} {outside : W}
    {now : Moment n c V W} (h : Reaches system (.start program cells outside) now) :
    Recorded now :=
  h.keeps recorded_step (recorded_start program cells outside)

end Recurrence.Reactive
