import Recurrence.Proofs.Reactive.Current
import Recurrence.Proofs.Reactive.InFlight
import Recurrence.Proofs.Reactive.Recomputation

/-!
# Shared nodes are computed once

A node that is fed along several ways is read along each of them, and in a ladder of nodes there are
exponentially many ways. No mark says that it was read before. What saves the second visit is that
the first one has left the node up to date, and that nothing on the way between the two visits
disturbs it: recipes are quiet, and a read stores something only where nothing was up to date.

The invariant says of every recipe that the read has started what has become of it. It is running,
or its node is up to date, or the read is on its way out because of an error or an unwinding. On the
way out no recipe is started, for an error among the inputs is passed on. The graph may have cycles:
a read that comes across one is on its way out as well.
-/

namespace Recurrence.Reactive

variable {n c : Nat} {V W : Type}

/-! ## One read, seen alone -/

/-- Nothing is done but to read this node. -/
def Moment.alone (node : Fin n) (s : State n c V W) (past : List (Deed n V)) : Moment n c V W :=
  ⟨.inputs [] [.node node], [], s, past⟩

/-- The read on top of the stack comes back with this value. -/
def Moment.answer? : Moment n c V W → Option (Fin n × V)
  | ⟨.answer (.ok v), f :: _, _, _⟩ => some (f.node, v)
  | ⟨.recipe _ (.done (.ok v)), f :: _, _, _⟩ => some (f.node, v)
  | _ => none

/-- The node has come back with a value, and so has everything it depends on. -/
def Complete (system : System n c V W) (answers : List (Fin n × V)) (node : Fin n) : Prop :=
  ∀ i, Relation.ReflTransGen system.Feeds i node → ∃ v, (i, v) ∈ answers

/-- A node is complete if it has come back and its inputs are. -/
theorem complete_of_inputs {system : System n c V W} {answers : List (Fin n × V)} {node : Fin n}
    {v : V} (h : ∀ i, system.Feeds i node → Complete system answers i)
    (hnode : (node, v) ∈ answers) : Complete system answers node := by
  intro i hi
  rcases Relation.ReflTransGen.cases_tail hi with rfl | ⟨j, hij, hj⟩
  · exact ⟨v, hnode⟩
  · exact h j hj i hij

variable [BEq V]

/-- A run together with the values that reads came back with on the way, latest first. -/
inductive Answered (system : System n c V W) (start : Moment n c V W) :
    List (Fin n × V) → Moment n c V W → Prop
  | start : Answered system start [] start
  | step {answers a b} : Answered system start answers a → Step system a b →
      Answered system start (a.answer?.toList ++ answers) b

variable {system : System n c V W} {start now : Moment n c V W}
  {answers answers' : List (Fin n × V)}

theorem Answered.reaches (h : Answered system start answers now) : Reaches system start now := by
  induction h with
  | start => exact .refl
  | step _ hs ih => exact ih.tail hs

theorem Reaches.answered (h : Reaches system start now) :
    ∃ answers, Answered system start answers now := by
  induction h with
  | refl => exact ⟨[], .start⟩
  | tail _ hs ih =>
    obtain ⟨answers, hanswers⟩ := ih
    exact ⟨_, hanswers.step hs⟩

/-! ## What has been taken -/

/-- Of these sources the first ones have been taken, and they are up to date. -/
def Taken (system : System n c V W) (s : State n c V W) (answers : List (Fin n × V))
    (sources : List (Source n c)) (taken : List V) (rest : List (Source n c)) : Prop :=
  ∃ done, sources = done ++ rest ∧ AllCurrent system s done taken
    ∧ ∀ i, .node i ∈ done → Complete system answers i

/-- What is to be taken for the read on top of the stack. At the bottom it is the node alone. -/
def sourcesOn (system : System n c V W) (node : Fin n) : List (Frame n c V W) → List (Source n c)
  | [] => [.node node]
  | f :: _ => system.inputs f.node

/-- Every read on the stack is the next input of the read below it. -/
def Waiting (system : System n c V W) (node : Fin n) (s : State n c V W)
    (answers : List (Fin n × V)) : List (Frame n c V W) → Prop
  | [] => True
  | f :: stack =>
    (∃ taken rest, f.waiting = .inputs taken (.node f.node :: rest)
      ∧ Taken system s answers (sourcesOn system node stack) taken (.node f.node :: rest))
    ∧ Waiting system node s answers stack

/-- What is done on top of the stack. A recipe runs where its node was not up to date, a value has
been found where it is, and everything else is on its way out. -/
inductive AtWork (system : System n c V W) (node : Fin n) (s : State n c V W)
    (answers : List (Fin n × V)) : Task n c V W → List (Frame n c V W) → Prop
  | inputs {taken rest stack} : Taken system s answers (sourcesOn system node stack) taken rest →
      AtWork system node s answers (.inputs taken rest) stack
  | recipe {inputs rest f stack} : rest.Quiet →
      Taken system s answers (system.inputs f.node) inputs [] → (inputs == inputs) = true →
      (∀ v, ¬ Current system s (.node f.node) v) →
      AtWork system node s answers (.recipe inputs rest) (f :: stack)
  | answer {v f stack} : Current system s (.node f.node) v →
      (∀ i, system.Feeds i f.node → Complete system answers i) →
      AtWork system node s answers (.answer (.ok v)) (f :: stack)
  | failed (e stack) : AtWork system node s answers (.answer (.error e)) stack
  | unwinding (stack) : AtWork system node s answers .unwinding stack

/-- What has become of a recipe that was started. -/
inductive Spent (system : System n c V W) (s : State n c V W) (i : Fin n) :
    Task n c V W → List (Frame n c V W) → Prop
  | current {v} (task stack) : Current system s (.node i) v → Spent system s i task stack
  | running {f} (inputs rest stack) : f.node = i →
      Spent system s i (.recipe inputs rest) (f :: stack)
  | failed (e stack) : Spent system s i (.answer (.error e)) stack
  | unwinding (stack) : Spent system s i .unwinding stack

/-- A read of this node is underway that was begun in the state `s₀`. -/
structure Underway (system : System n c V W) (node : Fin n) (s₀ : State n c V W)
    (answers : List (Fin n × V)) (now : Moment n c V W) : Prop where
  waiting : Waiting system node now.state answers now.stack
  work : AtWork system node now.state answers now.doing now.stack
  /-- No recipe has been started twice. -/
  counted : ∀ i, now.state.runCount i = s₀.runCount i
    ∨ now.state.runCount i = s₀.runCount i + 1 ∧ Spent system now.state i now.doing now.stack
  /-- What has come back is up to date. -/
  answered : ∀ p ∈ answers, Current system now.state (.node p.1) p.2

theorem underway_alone (node : Fin n) (s : State n c V W) (past : List (Deed n V)) :
    Underway system node s [] (.alone node s past) where
  waiting := trivial
  work := .inputs ⟨[], rfl, .nil, fun _ h => absurd h List.not_mem_nil⟩
  counted _ := .inl rfl
  answered _ h := absurd h List.not_mem_nil

/-! ## What stays -/

variable {node : Fin n} {s s' s₀ : State n c V W} {sources rest : List (Source n c)}
  {taken inputs : List V} {f : Frame n c V W} {stack : List (Frame n c V W)}
  {task task' : Task n c V W} {past past' : List (Deed n V)} {v : V}

theorem Taken.mono (h : Taken system s answers sources taken rest)
    (hkept : Undisturbed system s s') (hsub : answers ⊆ answers') :
    Taken system s' answers' sources taken rest := by
  obtain ⟨done, hsources, hcurrent, hcomplete⟩ := h
  refine ⟨done, hsources, hkept.allCurrent hcurrent, fun i hi j hj => ?_⟩
  obtain ⟨v, hv⟩ := hcomplete i hi j hj
  exact ⟨v, hsub hv⟩

/-- One more input has been taken. -/
theorem Taken.next {source : Source n c} (h : Taken system s answers sources taken (source :: rest))
    (hv : Current system s source v)
    (hcomplete : ∀ i, source = .node i → Complete system answers i) :
    Taken system s answers sources (taken ++ [v]) rest := by
  obtain ⟨done, hsources, hcurrent, hall⟩ := h
  refine ⟨done ++ [source], by rw [hsources, List.append_assoc, List.singleton_append],
    List.rel_append hcurrent (.cons hv .nil), fun i hi => ?_⟩
  rcases List.mem_append.mp hi with hi | hi
  · exact hall i hi
  · exact hcomplete i (List.mem_singleton.mp hi).symm

/-- With nothing left all sources have been taken. -/
theorem Taken.all (h : Taken system s answers sources taken []) :
    AllCurrent system s sources taken ∧ ∀ i, .node i ∈ sources → Complete system answers i := by
  obtain ⟨done, rfl, hcurrent, hcomplete⟩ := h
  rw [List.append_nil]
  exact ⟨hcurrent, hcomplete⟩

theorem Waiting.mono (h : Waiting system node s answers stack) (hkept : Undisturbed system s s')
    (hsub : answers ⊆ answers') : Waiting system node s' answers' stack := by
  induction stack with
  | nil => trivial
  | cons f stack ih =>
    obtain ⟨⟨taken, rest, hf, htaken⟩, hstack⟩ := h
    exact ⟨⟨taken, rest, hf, htaken.mono hkept hsub⟩, ih hstack⟩

/-- Where no recipe is started, what has become of them is enough. -/
theorem Underway.counted_of (h : Underway system node s₀ answers ⟨task, stack, s, past⟩)
    {stack' : List (Frame n c V W)} (hruns : s'.runs = s.runs)
    (hspent : ∀ i, Spent system s i task stack → Spent system s' i task' stack') (i : Fin n) :
    s'.runCount i = s₀.runCount i
      ∨ s'.runCount i = s₀.runCount i + 1 ∧ Spent system s' i task' stack' := by
  have hsame : s'.runCount i = s.runCount i := by rw [State.runCount, hruns, State.runCount]
  rw [hsame]
  rcases h.counted i with hcount | ⟨hcount, hi⟩
  · exact .inl hcount
  · exact .inr ⟨hcount, hspent i hi⟩

/-! ## One step -/

/-- On its way out a read starts nothing more. -/
theorem Underway.leave (h : Underway system node s₀ answers ⟨task, stack, s, past⟩)
    (hkept : Undisturbed system s s') (hruns : s'.runs = s.runs) {stack' : List (Frame n c V W)}
    (hstack : Waiting system node s answers stack')
    (hleaves : task' = .unwinding ∨ ∃ e, task' = .answer (.error e)) :
    Underway system node s₀ answers ⟨task', stack', s', past'⟩ where
  waiting := hstack.mono hkept (List.Subset.refl _)
  work := by
    rcases hleaves with rfl | ⟨e, rfl⟩
    · exact .unwinding stack'
    · exact .failed e stack'
  counted := by
    refine h.counted_of hruns fun i _ => ?_
    rcases hleaves with rfl | ⟨e, rfl⟩
    · exact .unwinding stack'
    · exact .failed e stack'
  answered p hp := hkept.current (h.answered p hp)

/-- While inputs are taken no recipe runs on top of the stack. -/
theorem Spent.of_inputs {i : Fin n} (h : Spent system s i (.inputs taken rest) stack) :
    ∃ v, Current system s (.node i) v := by
  cases h with
  | current _ _ hv => exact ⟨_, hv⟩

/-- Taking inputs goes on, or comes to an end, without a recipe. -/
theorem Underway.take (h : Underway system node s₀ answers ⟨.inputs taken rest, stack, s, past⟩)
    (hkept : Undisturbed system s s') (hruns : s'.runs = s.runs) {stack' : List (Frame n c V W)}
    (hstack : Waiting system node s' answers stack')
    (hwork : AtWork system node s' answers task' stack') :
    Underway system node s₀ answers ⟨task', stack', s', past'⟩ where
  waiting := hstack
  work := hwork
  counted := by
    refine h.counted_of hruns fun i hi => ?_
    obtain ⟨v, hv⟩ := hi.of_inputs
    exact .current _ _ (hkept.current hv)
  answered p hp := hkept.current (h.answered p hp)

/-- A recipe starts where its node was not up to date, hence for the first time. -/
theorem Underway.recompute
    (h : Underway system node s₀ answers ⟨.inputs inputs [], f :: stack, s, past⟩)
    (hnone : s.upToDate? f.node inputs = none) (hself : (inputs == inputs) = true)
    {recipe : Recipe n c V W} (hquiet : recipe.Quiet) :
    Underway system node s₀ answers
      ⟨.recipe inputs recipe, f :: stack, s.startRun f.node inputs.length, past'⟩ := by
  have hkept : Undisturbed system s (s.startRun f.node inputs.length) := .of_same rfl rfl
  have hkept' : Undisturbed system (s.startRun f.node inputs.length) s := .of_same rfl rfl
  cases h.work with
  | inputs htaken =>
    have hnot (v : V) : ¬ Current system s (.node f.node) v := by
      intro hv
      rw [(upToDate?_eq_some_iff htaken.all.1).mpr hv] at hnone
      exact absurd hnone (by simp)
    constructor
    case waiting => exact h.waiting.mono hkept (List.Subset.refl _)
    case work =>
      exact .recipe hquiet (htaken.mono hkept (List.Subset.refl _)) hself
        fun v hv => hnot v (hkept'.current hv)
    case answered => exact fun p hp => hkept.current (h.answered p hp)
    case counted =>
      intro i
      rw [State.runCount_startRun]
      by_cases hi : i = f.node
      · subst hi
        rw [if_pos rfl]
        rcases h.counted f.node with hcount | ⟨-, hspent⟩
        · exact .inr ⟨congrArg (· + 1) hcount, .running _ _ _ rfl⟩
        · obtain ⟨v, hv⟩ := hspent.of_inputs
          exact absurd hv (hnot v)
      · rw [if_neg hi]
        rcases h.counted i with hcount | ⟨hcount, hspent⟩
        · exact .inl hcount
        · obtain ⟨v, hv⟩ := hspent.of_inputs
          exact .inr ⟨hcount, .current _ _ (hkept.current hv)⟩

/-- The recipe goes on without reading or setting anything. -/
theorem Underway.goOn {recipe recipe' : Recipe n c V W}
    (h : Underway system node s₀ answers ⟨.recipe inputs recipe, stack, s, past⟩)
    (hkept : Undisturbed system s s') (hkept' : Undisturbed system s' s) (hruns : s'.runs = s.runs)
    (hquiet : recipe.Quiet → recipe'.Quiet) :
    Underway system node s₀ answers ⟨.recipe inputs recipe', stack, s', past⟩ where
  waiting := h.waiting.mono hkept (List.Subset.refl _)
  work := by
    cases h.work with
    | recipe hrecipe htaken hsame hnot =>
      exact .recipe (hquiet hrecipe) (htaken.mono hkept (List.Subset.refl _)) hsame
        fun v hv => hnot v (hkept'.current hv)
  counted := by
    refine h.counted_of hruns fun i hspent => ?_
    cases hspent with
    | current _ _ hi => exact .current _ _ (hkept.current hi)
    | running _ _ _ hi => exact .running _ _ _ hi
  answered p hp := hkept.current (h.answered p hp)

/-- A read comes back with a value, which the one below it takes. -/
theorem Underway.comeBack (h : Underway system node s₀ answers ⟨task, f :: stack, s, past⟩)
    (hkept : Undisturbed system s s') (hruns : s'.runs = s.runs)
    (hv : Current system s' (.node f.node) v)
    (hinputs : ∀ i, system.Feeds i f.node → Complete system answers i)
    (hspent : ∀ i, Spent system s i task (f :: stack) →
      i = f.node ∨ ∃ w, Current system s (.node i) w) :
    Underway system node s₀ ((f.node, v) :: answers)
      ⟨f.waiting.resume (.ok v), stack, s', past'⟩ := by
  obtain ⟨⟨taken, rest, hf, htaken⟩, hstack⟩ := h.waiting
  have hsub : answers ⊆ (f.node, v) :: answers := List.subset_cons_self _ _
  have hcomplete : Complete system ((f.node, v) :: answers) f.node := by
    refine complete_of_inputs (fun i hi j hj => ?_) List.mem_cons_self
    obtain ⟨w, hw⟩ := hinputs i hi j hj
    exact ⟨w, hsub hw⟩
  rw [hf]
  constructor
  case waiting => exact hstack.mono hkept hsub
  case work =>
    refine .inputs ((htaken.mono hkept hsub).next hv fun i hi => ?_)
    cases hi
    exact hcomplete
  case counted =>
    refine h.counted_of hruns fun i hi => ?_
    rcases hspent i hi with rfl | ⟨w, hw⟩
    · exact .current _ _ hv
    · exact .current _ _ (hkept.current hw)
  case answered =>
    intro p hp
    rcases List.mem_cons.mp hp with rfl | hp
    · exact hv
    · exact hkept.current (h.answered p hp)

/-- Only inputs are asked for, because recipes are quiet. -/
theorem AtWork.asks {i : Fin n} (h : AtWork system node s answers task stack)
    (hasks : task.asks? = some i) :
    ∃ taken rest, task = .inputs taken (.node i :: rest)
      ∧ Taken system s answers (sourcesOn system node stack) taken (.node i :: rest) := by
  cases h with
  | @inputs taken rest _ htaken =>
    rcases rest with _ | ⟨_ | j, rest⟩
    · cases hasks
    · cases hasks
    · cases hasks
      exact ⟨taken, rest, rfl, htaken⟩
  | recipe hquiet => cases hquiet <;> cases hasks
  | answer | failed | unwinding => cases hasks

/-- **Preserved by every step**, if the inputs that are taken are equal to themselves. -/
theorem underway_step (hquiet : ∀ node inputs, (system.recipe node inputs).Quiet)
    {a b : Moment n c V W} (hs : Step system a b)
    (hsame : ∀ taken rest, a.doing = .inputs taken rest → ∀ v ∈ taken, (v == v) = true)
    (h : Underway system node s₀ answers a) :
    Underway system node s₀ (a.answer?.toList ++ answers) b := by
  have hwork := h.work
  cases hs with
  | refused hasks _ =>
    obtain ⟨task, stack, s, past⟩ := a
    obtain ⟨taken, rest, rfl, -⟩ := hwork.asks hasks
    exact h.leave (.of_same rfl rfl) rfl h.waiting (.inr ⟨_, rfl⟩)
  | @entered _ i hasks _ =>
    obtain ⟨task, stack, s, past⟩ := a
    obtain ⟨taken, rest, rfl, htaken⟩ := hwork.asks hasks
    have hkept : Undisturbed system s (s.enter i) := .of_same rfl rfl
    have htaken' := htaken.mono hkept (List.Subset.refl _)
    have hstack := h.waiting.mono hkept (List.Subset.refl _)
    refine h.take hkept rfl ⟨⟨taken, rest, rfl, htaken'⟩, hstack⟩ (.inputs ⟨[], rfl, .nil, ?_⟩)
    exact fun _ hi => absurd hi List.not_mem_nil
  | @cell taken i rest stack s past =>
    cases hwork with
    | inputs htaken =>
      exact h.take (.of_same rfl rfl) rfl h.waiting (.inputs (htaken.next (.cell i) nofun))
  | @unchanged inputs f stack s past v hfound =>
    cases hwork with
    | inputs htaken =>
      have hkept : Undisturbed system s (s.note (.unchanged f.node)) := .of_same rfl rfl
      obtain ⟨hcurrent, hcomplete⟩ := htaken.all
      have hv := (upToDate?_eq_some_iff hcurrent).mp hfound
      exact h.take hkept rfl (h.waiting.mono hkept (List.Subset.refl _))
        (.answer (hkept.current hv) hcomplete)
  | @recomputing inputs f stack s past hnone =>
    have hself : (inputs == inputs) = true :=
      (beq_iff_forall₂ _ _).mpr (List.forall₂_same.mpr (hsame inputs [] rfl))
    exact h.recompute hnone hself (hquiet _ _)
  | get =>
    refine h.goOn (.of_same rfl rfl) (.of_same rfl rfl) rfl fun hrecipe => ?_
    cases hrecipe with
    | get hnext => exact hnext _
  | runs =>
    refine h.goOn (.of_same rfl rfl) (.of_same rfl rfl) rfl fun hrecipe => ?_
    cases hrecipe with
    | runs hnext => exact hnext _
  | look =>
    refine h.goOn (.of_same rfl rfl) (.of_same rfl rfl) rfl fun hrecipe => ?_
    cases hrecipe with
    | look hnext => exact hnext _
  | leave =>
    refine h.goOn (.of_same rfl rfl) (.of_same rfl rfl) rfl fun hrecipe => ?_
    cases hrecipe with
    | leave hnext => exact hnext
  | set =>
    cases hwork with
    | recipe hrecipe => cases hrecipe
  | unwind => exact h.leave (.of_same rfl rfl) rfl h.waiting (.inl rfl)
  | @succeeded inputs v f stack s past =>
    cases hwork with
    | recipe _ htaken hself hnot =>
      obtain ⟨hcurrent, hcomplete⟩ := htaken.all
      have hstored := current_store hcurrent hself hnot v
      have hkept : Undisturbed system s (s.store f.node inputs v) :=
        Undisturbed.store (.of_same rfl rfl) hnot
      have hexit : Undisturbed system (s.store f.node inputs v)
          ((s.store f.node inputs v).exit f.node) := .of_same rfl rfl
      refine h.comeBack (hkept.trans hexit) rfl (hexit.current hstored) hcomplete fun i hi => ?_
      cases hi with
      | current _ _ hw => exact .inr ⟨_, hw⟩
      | running _ _ _ hi => exact .inl hi.symm
  | @failed inputs e f stack s past =>
    obtain ⟨⟨taken, rest, hf, -⟩, hstack⟩ := h.waiting
    have hkept : Undisturbed system s (s.exit f.node) := .of_same rfl rfl
    exact h.leave hkept rfl hstack (.inr ⟨e, by rw [hf]; rfl⟩)
  | @answered result f stack s past =>
    have hkept : Undisturbed system s (s.exit f.node) := .of_same rfl rfl
    cases hwork with
    | answer hv hcomplete =>
      refine h.comeBack hkept rfl (hkept.current hv) hcomplete fun i hi => ?_
      cases hi with
      | current _ _ hw => exact .inr ⟨_, hw⟩
    | failed e =>
      obtain ⟨⟨taken, rest, hf, -⟩, hstack⟩ := h.waiting
      exact h.leave hkept rfl hstack (.inr ⟨e, by rw [hf]; rfl⟩)
  | @unwound f stack s past =>
    have hkept : Undisturbed system s (s.exit f.node) := .of_same rfl rfl
    exact h.leave hkept rfl h.waiting.2 (.inl rfl)
  | caught =>
    obtain ⟨⟨taken, rest, hf, -⟩, -⟩ := h.waiting
    cases hf

/-! ## One read -/

/-- The values that are taken as inputs on the way are equal to themselves. -/
def SelfEqual (system : System n c V W) (start : Moment n c V W) : Prop :=
  ∀ now taken rest, Reaches system start now → now.doing = .inputs taken rest →
    ∀ v ∈ taken, (v == v) = true

/-- **Kept by the whole read.** -/
theorem Answered.underway (hquiet : ∀ node inputs, (system.recipe node inputs).Quiet)
    (hself : SelfEqual system (.alone node s past))
    (h : Answered system (.alone node s past) answers now) :
    Underway system node s answers now := by
  induction h with
  | start => exact underway_alone node s past
  | step hbefore hs ih =>
    exact underway_step hquiet hs (fun taken rest => hself _ taken rest hbefore.reaches) ih

/-- A read that has come back is up to date, and it has been through everything it depends on. -/
theorem Underway.cameBack (h : Underway system node s₀ answers ⟨.inputs [v] [], [], s, past⟩) :
    Current system s (.node node) v ∧ Complete system answers node := by
  cases h.work with
  | inputs htaken =>
    obtain ⟨hcurrent, hcomplete⟩ := htaken.all
    cases hcurrent with
    | cons hv _ => exact ⟨hv, hcomplete node List.mem_cons_self⟩

/-- Nothing but reads has happened. -/
def ReadsOnly (system : System n c V W) : State n c V W → State n c V W → Prop :=
  Relation.ReflTransGen fun a b => ∃ i, (system.read i a).state? = some b

/-- Reads leave alone what is up to date, however they end. -/
theorem ReadsOnly.undisturbed (hquiet : ∀ node inputs, (system.recipe node inputs).Quiet)
    (h : ReadsOnly system s s') : Undisturbed system s s' ∧ s'.inFlight = s.inFlight := by
  induction h with
  | refl => exact ⟨.of_same rfl rfl, rfl⟩
  | tail _ hread ih =>
    obtain ⟨i, hi⟩ := hread
    have hkept := (readWithin_preserving hquiet (n + 1)).undisturbed hi
    have hinFlight := (readWithin_sparing system (n + 1) i _ _ hi).inFlight
    exact ⟨ih.1.trans hkept, hinFlight.trans ih.2⟩

/-- The moments of a read lead to its result. -/
theorem read_leadsTo (system : System n c V W) (node : Fin n) (s : State n c V W)
    (past : List (Deed n V)) :
    LeadsTo system (.alone node s past) [] (Task.resume (.inputs [] [.node node]))
      (system.read node s) :=
  readWithin_leadsTo system (n + 1) (.inputs [] [.node node]) node [] s past rfl

/--
**A read computes each node at most once**, however many ways lead to it.

Recipes neither read nodes nor set cells, and the values that the read takes as inputs are equal to
themselves. Then the read comes to an end, and at each of its moments, up to an end of any kind, no
recipe has been started more than once. If it comes back with a value, so have the reads inside of
its node and of everything that it depends on; and from then on, until a cell is set, a read of any
of these nodes returns the value that it came back with, and does nothing but write to the log.
-/
theorem computed_at_most_once {program : Recipe n c V W} {cells : Vector V c} {outside : W}
    (h : Reaches system (.start program cells outside) now) (hidle : now.stack = [])
    (hquiet : ∀ node inputs, (system.recipe node inputs).Quiet) (node : Fin n)
    (hself : SelfEqual system (.alone node now.state now.past)) :
    system.read node now.state ≠ .exhausted
    ∧ (∀ later, Reaches system (.alone node now.state now.past) later → ∀ i,
        later.state.runCount i ≤ now.state.runCount i + 1)
    ∧ (∀ s', (system.read node now.state).state? = some s' → ∀ i,
        s'.runCount i ≤ now.state.runCount i + 1)
    ∧ ∀ v s', system.read node now.state = .returned (.ok v) s' →
        ∃ answers past, Answered system (.alone node now.state now.past) answers
            ⟨.inputs [v] [], [], s', past⟩
          ∧ (node, v) ∈ answers
          ∧ (∀ i, Relation.ReflTransGen system.Feeds i node → ∃ w, (i, w) ∈ answers)
          ∧ ∀ i w, (i, w) ∈ answers → ∀ s₁, ReadsOnly system s' s₁ →
              ∃ log, system.read i s₁ = .returned (.ok w) { s₁ with log := log } := by
  have hinFlight : now.state.inFlight = [] := by
    have htracked := (tracked_reached h).inFlight
    rwa [Moment.reads, hidle] at htracked
  have hcount (later : Moment n c V W)
      (hlater : Reaches system (.alone node now.state now.past) later) (i : Fin n) :
      later.state.runCount i ≤ now.state.runCount i + 1 := by
    obtain ⟨answers, hanswers⟩ := hlater.answered
    rcases (hanswers.underway hquiet hself).counted i with hi | ⟨hi, -⟩
    · omega
    · omega
  have hleads := read_leadsTo system node now.state now.past
  refine ⟨?ends, hcount, ?result, ?value⟩
  case ends => exact readWithin_ends (hinFlight ▸ List.nodup_nil) (by omega) node
  case result =>
    intro s' hs' i
    cases hread : system.read node now.state with
    | returned result s₁ =>
      rw [hread] at hs' hleads
      cases hs'
      obtain ⟨past, hmoment⟩ := hleads
      exact hcount _ hmoment i
    | unwound s₁ =>
      rw [hread] at hs' hleads
      cases hs'
      obtain ⟨past, hmoment⟩ := hleads
      exact hcount _ hmoment i
    | exhausted =>
      rw [hread] at hs'
      cases hs'
  case value =>
    intro v s' hread
    rw [hread] at hleads
    obtain ⟨past, hmoment⟩ := hleads
    obtain ⟨answers, hanswers⟩ := hmoment.answered
    have hunderway := hanswers.underway hquiet hself
    obtain ⟨hvalue, hcomplete⟩ := hunderway.cameBack
    have hidle' : s'.inFlight = [] := by
      have hsparing := readWithin_sparing system (n + 1) node now.state s'
      rw [(hsparing (congrArg Outcome.state? hread)).inFlight, hinFlight]
    refine ⟨answers, past, hanswers, ?_, hcomplete, fun i w hw s₁ hreads => ?_⟩
    · obtain ⟨w, hw⟩ := hcomplete node .refl
      obtain rfl : w = v := (hunderway.answered _ hw).unique hvalue
      exact hw
    · obtain ⟨hkept, hsame⟩ := hreads.undisturbed hquiet
      refine (hunderway.answered _ hw).readsBack i rfl (n + 1) s₁ hkept ?_
      rw [hsame, hidle']
      exact ⟨List.nodup_nil, by simp, by simp⟩

/-- Every rung of a ladder adds up the one below it, twice. -/
def ladder (bottom : Fin c) : System n c Nat Unit where
  inputs node :=
    if h : node.val = 0 then [.cell bottom]
    else
      let below : Fin n := ⟨node.val - 1, by omega⟩
      [.node below, .node below]
  recipe _ inputs := .pure (inputs.foldl (· + ·) 0)

/-- Four ways lead from the top of the ladder to its foot. When the cell has been set after a first
read, another one computes every rung once more, and then they are up to date. -/
theorem computed_at_most_once_ladder : ∃ s s' : State 3 1 Nat Unit,
    (∀ i, s.runCount i = 1) ∧ (ladder 0).read 2 s = .returned (.ok 20) s'
    ∧ (∀ i, s'.runCount i ≤ 2)
    ∧ ∃ w log, (ladder 0).read 1 s' = .returned (.ok w) { s' with log := log } := by
  -- the history: a read, and then the cell is set
  let program : Recipe 3 1 Nat Unit := .read 2 fun _ => .set 0 5 (.pure 0)
  have hstates : ∃ s s', run (readWithin (ladder 0) 4) program (.start #v[1] ())
        = .returned (.ok 0) s
      ∧ (∀ i, s.runCount i = 1) ∧ (ladder 0).read 2 s = .returned (.ok 20) s' := by
    refine ⟨_, _, rfl, ?_, rfl⟩
    decide
  obtain ⟨s, s', hrun, hone, hread⟩ := hstates
  have hleads := run_leadsTo (readWithin_leadsTo (ladder 0) 4) [] program [] (.start #v[1] ()) []
  rw [hrun] at hleads
  obtain ⟨past, h⟩ := hleads
  obtain ⟨-, -, hcount, hagain⟩ := computed_at_most_once h rfl (fun _ _ => .done _) 2
    fun _ _ _ _ _ v _ => beq_self_eq_true v
  have htwice (i : Fin 3) : s'.runCount i ≤ 2 := by
    have hi := hcount s' (congrArg Outcome.state? hread) i
    rwa [hone i] at hi
  obtain ⟨answers, past, -, -, hcomplete, hreads⟩ := hagain 20 s' hread
  obtain ⟨w, hw⟩ := hcomplete 1 (.single List.mem_cons_self)
  obtain ⟨log, hlog⟩ := hreads 1 w hw s' .refl
  exact ⟨s, s', hone, hread, htwice, w, log, hlog⟩

end Recurrence.Reactive
