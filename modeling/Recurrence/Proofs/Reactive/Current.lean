import Mathlib.Data.List.Forall2
import Recurrence.Proofs.Reactive.Effect
import Recurrence.Proofs.Reactive.Freshness

/-!
# Nodes that are up to date

A node says nothing about whether it is fresh. What it remembers is a snapshot of its inputs, and it
is up to date if the inputs are up to date themselves and still equal to that snapshot. This goes
down the whole graph to the cells, so it is a tree: at its leaves are cells, and inside it the
comparisons that a read would make. A cycle does not fit into a tree, hence a node with a cycle
below it is never up to date.

A read of a node that is up to date visits the whole tree, finds nothing to do anywhere, and returns
the value that is remembered. As long as no cell is set, other reads leave the tree alone, because
they store something only where nothing was up to date.
-/

namespace Recurrence.Reactive

variable {n c : Nat} {V W : Type}

/-- The recipe reads no node and sets no cell. It may look at cells, keep its own accounts, and come
to any end. -/
inductive Recipe.Quiet : Recipe n c V W → Prop
  | done (result) : Quiet (.done result)
  | get {cell next} : (∀ v, Quiet (next v)) → Quiet (.get cell next)
  | runs {node next} : (∀ count, Quiet (next count)) → Quiet (.runs node next)
  | look {next} : (∀ w, Quiet (next w)) → Quiet (.look next)
  | leave {w next} : Quiet next → Quiet (.leave w next)
  | unwind : Quiet .unwind

/-- Only its accounts have changed when a quiet recipe is at its end. -/
theorem Recipe.Quiet.run_state {recipe : Recipe n c V W} (h : recipe.Quiet) {read : Reader n c V W}
    {s s' : State n c V W} (hrun : (Reactive.run read recipe s).state? = some s') :
    ∃ outside, s' = { s with outside := outside } := by
  induction h generalizing s with
  | done | unwind =>
    cases hrun
    exact ⟨_, rfl⟩
  | get _ ih | runs _ ih | look _ ih => exact ih _ hrun
  | @leave w _ _ ih =>
    obtain ⟨outside, rfl⟩ := ih (s := { s with outside := w }) hrun
    exact ⟨outside, rfl⟩

variable {system : System n c V W} {s s' s'' : State n c V W} {sources : List (Source n c)}
  {inputs values : List V} {source : Source n c} {node i : Fin n} {v w : V}

theorem forall₂_iff_forall_zip {R : Source n c → V → Prop} :
    List.Forall₂ R sources values ↔
      sources.length = values.length ∧ ∀ p ∈ sources.zip values, R p.1 p.2 := by
  rw [List.forall₂_iff_zip]
  simp only [Prod.forall]

theorem exists_of_mem_forall₂ {R : Source n c → V → Prop} (h : List.Forall₂ R sources values)
    (hin : source ∈ sources) : ∃ v, R source v := by
  induction h with
  | nil => exact absurd hin List.not_mem_nil
  | cons hfirst _ ih =>
    rcases List.mem_cons.mp hin with rfl | hin
    · exact ⟨_, hfirst⟩
    · exact ih hin

variable [BEq V]

/-! ## The tree of comparisons -/

/-- The value of an input that is up to date: what the cell holds, or what the node remembers, if
all its inputs are up to date and equal to the snapshot. -/
inductive Current (system : System n c V W) (s : State n c V W) : Source n c → V → Prop
  | cell (i : Fin c) : Current system s (.cell i) (s.get i)
  | node {i stored inputs} : s.remembered i = some stored → (stored.snapshot == inputs) = true →
      (system.inputs i).length = inputs.length →
      (∀ p ∈ (system.inputs i).zip inputs, Current system s p.1 p.2) →
      Current system s (.node i) stored.value

/-- All these inputs are up to date, and these are their values. -/
abbrev AllCurrent (system : System n c V W) (s : State n c V W) (sources : List (Source n c))
    (values : List V) : Prop :=
  List.Forall₂ (Current system s) sources values

/-- A node is up to date if what it remembers stands for its inputs. -/
theorem current_node_iff :
    Current system s (.node i) v ↔ ∃ stored inputs, s.remembered i = some stored
      ∧ (stored.snapshot == inputs) = true ∧ AllCurrent system s (system.inputs i) inputs
      ∧ stored.value = v := by
  constructor
  · intro h
    cases h with
    | node hstored hsame hlength hinputs =>
      exact ⟨_, _, hstored, hsame, forall₂_iff_forall_zip.mpr ⟨hlength, hinputs⟩, rfl⟩
  · intro h
    obtain ⟨stored, inputs, hstored, hsame, hinputs, rfl⟩ := h
    obtain ⟨hlength, hall⟩ := forall₂_iff_forall_zip.mp hinputs
    exact .node hstored hsame hlength hall

/-- There is one value only. -/
theorem Current.unique (h : Current system s source v) (h' : Current system s source w) :
    v = w := by
  cases h with
  | cell i =>
    cases h'
    rfl
  | node hstored =>
    cases h' with
    | node hstored' =>
      cases hstored.symm.trans hstored'
      rfl

theorem AllCurrent.unique {vs ws : List V} (h : AllCurrent system s sources vs)
    (h' : AllCurrent system s sources ws) : vs = ws := by
  induction h generalizing ws with
  | nil =>
    cases h'
    rfl
  | cons hfirst _ ih =>
    cases h' with
    | cons hfirst' hrest' => rw [hfirst.unique hfirst', ih hrest']

/-- With its inputs up to date a node is up to date where a read finds that it is. -/
theorem upToDate?_eq_some_iff (h : AllCurrent system s (system.inputs i) inputs) :
    s.upToDate? i inputs = some v ↔ Current system s (.node i) v := by
  constructor
  · intro hv
    obtain ⟨stored, hstored, hsame, hvalue⟩ := State.upToDate?_eq_some hv
    exact current_node_iff.mpr ⟨stored, inputs, hstored, hsame, h, hvalue⟩
  · intro hv
    obtain ⟨stored, inputs', hstored, hsame, hinputs, hvalue⟩ := current_node_iff.mp hv
    obtain rfl := hinputs.unique h
    rw [State.upToDate?, hstored]
    dsimp only
    rw [if_pos hsame, hvalue]

/-- Whatever a node that is up to date depends on is up to date. -/
theorem Current.dependency (h : Current system s (.node node) v)
    (hdepends : Relation.ReflTransGen system.Feeds i node) :
    ∃ w, Current system s (.node i) w := by
  induction hdepends using Relation.ReflTransGen.head_induction_on with
  | refl => exact ⟨v, h⟩
  | head hfeeds _ ih =>
    obtain ⟨w, hw⟩ := ih
    obtain ⟨_, inputs, -, -, hinputs, -⟩ := current_node_iff.mp hw
    exact exists_of_mem_forall₂ hinputs hfeeds

/-- A cycle does not fit into a tree. -/
theorem Current.not_cyclic (h : Current system s (.node node) v) :
    ¬ Relation.TransGen system.Feeds node node := by
  have hnot (source : Source n c) (v : V) (h : Current system s source v) :
      ∀ i, source = .node i → ¬ Relation.TransGen system.Feeds i i := by
    induction h with
    | cell i => exact nofun
    | node _ _ hlength _ ih =>
      intro i hi hcycle
      cases hi
      -- the cycle leads through an input, which would be on the same cycle
      obtain ⟨j, hback, hfeeds⟩ := Relation.TransGen.tail'_iff.mp hcycle
      have hall : List.Forall₂ (fun source (_ : V) => ∀ i, source = Source.node i →
          ¬ Relation.TransGen system.Feeds i i) _ _ := forall₂_iff_forall_zip.mpr ⟨hlength, ih⟩
      obtain ⟨_, hj⟩ := exists_of_mem_forall₂ hall hfeeds
      exact hj j rfl (.head' hfeeds hback)
  exact hnot _ _ h node rfl

/-! ## States that agree about it -/

/-- From one state to the other no cell has changed, and no node that was up to date has forgotten
or replaced anything. -/
structure Undisturbed (system : System n c V W) (s s' : State n c V W) : Prop where
  cells : s'.cells = s.cells
  remembered : ∀ i v, Current system s (.node i) v → s'.remembered i = s.remembered i

/-- What was up to date has stayed so. -/
theorem Undisturbed.current (h : Undisturbed system s s') (hv : Current system s source v) :
    Current system s' source v := by
  induction hv with
  | cell i =>
    have hsame : s'.get i = s.get i := by rw [State.get, State.get, h.cells]
    exact hsame ▸ .cell i
  | node hstored hsame hlength hinputs ih =>
    have hi := h.remembered _ _ (.node hstored hsame hlength hinputs)
    exact .node (hi.trans hstored) hsame hlength ih

theorem Undisturbed.allCurrent (h : Undisturbed system s s')
    (hv : AllCurrent system s sources values) : AllCurrent system s' sources values :=
  hv.imp fun _ _ => h.current

/-- Counts, the log, the reads in progress and the outside have no part in it. -/
theorem Undisturbed.of_same (hcells : s'.cells = s.cells) (hstored : s'.stored = s.stored) :
    Undisturbed system s s' where
  cells := hcells
  remembered i _ _ := by rw [State.remembered, hstored, State.remembered]

theorem Undisturbed.trans (h : Undisturbed system s s') (h' : Undisturbed system s' s'') :
    Undisturbed system s s'' where
  cells := h'.cells.trans h.cells
  remembered i v hv := (h'.remembered i v (h.current hv)).trans (h.remembered i v hv)

/-- Something is stored for a node that was not up to date. -/
theorem Undisturbed.store (h : Undisturbed system s s')
    (hnot : ∀ w, ¬ Current system s (.node node) w) :
    Undisturbed system s (s'.store node inputs v) where
  cells := h.cells
  remembered i w hw := by
    have hne : i ≠ node := fun heq => hnot w (heq ▸ hw)
    rw [State.remembered_store, if_neg hne]
    exact h.remembered i w hw

/-- A node is up to date when its value has been stored with inputs that are. -/
theorem current_store (hinputs : AllCurrent system s (system.inputs node) inputs)
    (hsame : (inputs == inputs) = true) (hnot : ∀ w, ¬ Current system s (.node node) w) (v : V) :
    Current system (s.store node inputs v) (.node node) v := by
  have hkept : Undisturbed system s (s.store node inputs v) :=
    Undisturbed.store (.of_same rfl rfl) hnot
  refine current_node_iff.mpr ⟨⟨inputs, v⟩, inputs, ?_, hsame, hkept.allCurrent hinputs, rfl⟩
  rw [State.remembered_store, if_pos rfl]

/-! ## Reads leave it alone -/

/-- Reads leave alone what is up to date, and they return nothing else for it. -/
structure Preserving (system : System n c V W) (read : Reader n c V W) : Prop where
  undisturbed : ∀ {i s s'}, (read i s).state? = some s' → Undisturbed system s s'
  answer : ∀ {i s s' v w}, Current system s (.node i) v → read i s = .returned (.ok w) s' → w = v

variable {read : Reader n c V W}

theorem readSource_undisturbed (hread : Preserving system read)
    (h : (readSource read source s).state? = some s') : Undisturbed system s s' := by
  cases source with
  | cell i =>
    cases h
    exact .of_same rfl rfl
  | node i => exact hread.undisturbed h

theorem snapshot_undisturbed (hread : Preserving system read)
    (h : (snapshot read sources s).state? = some s') : Undisturbed system s s' := by
  induction sources generalizing s with
  | nil =>
    cases h
    exact .of_same rfl rfl
  | cons source rest ih =>
    rw [snapshot_cons] at h
    rcases Outcome.state?_andThen h with hended | ⟨v, s₁, hv, hrest⟩
    · exact readSource_undisturbed hread hended
    have hfirst := readSource_undisturbed hread (congrArg Outcome.state? hv)
    rcases Outcome.state?_andThen hrest with hended | ⟨vs, s₂, hvs, hall⟩
    · exact hfirst.trans (ih hended)
    · cases hall
      exact hfirst.trans (ih (congrArg Outcome.state? hvs))

/-- Inputs that are up to date are taken as they are. -/
theorem snapshot_answer (hread : Preserving system read)
    (hcurrent : AllCurrent system s sources values)
    (h : snapshot read sources s = .returned (.ok inputs) s') : inputs = values := by
  induction sources generalizing s inputs values with
  | nil =>
    cases hcurrent
    cases h
    rfl
  | cons source rest ih =>
    rw [snapshot_cons] at h
    obtain ⟨w, s₁, hw, hrest⟩ := Outcome.andThen_eq_ok h
    obtain ⟨ws, s₂, hws, hall⟩ := Outcome.andThen_eq_ok hrest
    cases hall
    have hfirst := readSource_undisturbed hread (congrArg Outcome.state? hw)
    cases hcurrent with
    | @cons _ v _ vs hv hvs =>
      have hsame : w = v := by
        cases hv with
        | cell i =>
          cases hw
          rfl
        | node hstored hsame hlength hinputs =>
          exact hread.answer (.node hstored hsame hlength hinputs) hw
      rw [hsame, ih (hfirst.allCurrent hvs) hws]

/-- Where a read finds something to do, its node was not up to date before. -/
theorem not_current_of_upToDate? (hread : Preserving system read)
    (htaken : snapshot read (system.inputs node) (s.enter node) = .returned (.ok inputs) s')
    (hstored : s'.upToDate? node inputs = none) (v : V) : ¬ Current system s (.node node) v := by
  intro hcurrent
  obtain ⟨_, values, -, -, hvalues, -⟩ := current_node_iff.mp hcurrent
  have hentered : Undisturbed system s (s.enter node) := .of_same rfl rfl
  have hkept : Undisturbed system s s' :=
    hentered.trans (snapshot_undisturbed hread (congrArg Outcome.state? htaken))
  obtain rfl := snapshot_answer hread (hentered.allCurrent hvalues) htaken
  have hfound := (upToDate?_eq_some_iff (hkept.allCurrent hvalues)).mpr (hkept.current hcurrent)
  rw [hstored] at hfound
  exact absurd hfound (by simp)

/-- **Reads leave alone what is up to date**, if all recipes are quiet. -/
theorem readWithin_preserving (hquiet : ∀ node inputs, (system.recipe node inputs).Quiet)
    (fuel : Nat) : Preserving system (readWithin system fuel) := by
  induction fuel with
  | zero => exact ⟨nofun, nofun⟩
  | succ fuel ih =>
    have hinputs {node s s₁} (htaken : (snapshot (readWithin system fuel) (system.inputs node)
        (State.enter s node)).state? = some s₁) : Undisturbed system s s₁ :=
      have hentered : Undisturbed system s (s.enter node) := .of_same rfl rfl
      hentered.trans (snapshot_undisturbed ih htaken)
    have hrecipe {node s inputs s₁ s₂} (htaken : snapshot (readWithin system fuel)
          (system.inputs node) (State.enter s node) = .returned (.ok inputs) s₁)
        (hrun : (run (readWithin system fuel) (system.recipe node inputs)
          (s₁.startRun node inputs.length)).state? = some s₂) : Undisturbed system s s₂ := by
      obtain ⟨outside, rfl⟩ := (hquiet node inputs).run_state hrun
      exact (hinputs (congrArg Outcome.state? htaken)).trans (.of_same rfl rfl)
    constructor
    case undisturbed =>
      intro node s s' h
      by_cases hin : node ∈ s.inFlight
      · rw [readWithin_of_inFlight system hin] at h
        cases h
        exact .of_same rfl rfl
      have hcourse := readWithin_course system hin fuel
      generalize readWithin system (fuel + 1) node s = outcome at h hcourse
      cases hcourse with
      | inputFailed htaken | inputUnwound htaken | unchanged htaken =>
        cases h
        exact (hinputs (congrArg Outcome.state? htaken)).trans (.of_same rfl rfl)
      | succeeded htaken hstored hrun =>
        cases h
        have hkept := hrecipe htaken (congrArg Outcome.state? hrun)
        exact (hkept.store (not_current_of_upToDate? ih htaken hstored)).trans (.of_same rfl rfl)
      | failed htaken _ hrun | unwound htaken _ hrun =>
        cases h
        exact (hrecipe htaken (congrArg Outcome.state? hrun)).trans (.of_same rfl rfl)
      | inputsExhausted | recipeExhausted => cases h
    case answer =>
      intro node s s' v w hv h
      by_cases hin : node ∈ s.inFlight
      · rw [readWithin_of_inFlight system hin] at h
        cases h
      have hcourse := readWithin_course system hin fuel
      rw [h] at hcourse
      cases hcourse with
      | unchanged htaken hfound =>
        have hkept := (hinputs (congrArg Outcome.state? htaken)).current hv
        obtain ⟨stored, hstored, -, hw⟩ := State.upToDate?_eq_some hfound
        obtain ⟨stored', _, hstored', -, -, hv'⟩ := current_node_iff.mp hkept
        cases hstored.symm.trans hstored'
        exact hw.symm.trans hv'
      | succeeded htaken hstored _ =>
        exact absurd hv (not_current_of_upToDate? ih htaken hstored v)

/-! ## Reads of what is up to date -/

/-- With inputs that are up to date nothing happens but lines in the log, if that is so for each
node among them. -/
theorem snapshot_current (hvalues : AllCurrent system s sources values)
    (hread : ∀ i v log, .node i ∈ sources → Current system s (.node i) v →
      ∃ log', read i { s with log := log } = .returned (.ok v) { s with log := log' })
    (log : List (Event n)) : ∃ log', snapshot read sources { s with log := log }
      = .returned (.ok values) { s with log := log' } := by
  induction hvalues generalizing log with
  | nil => exact ⟨log, rfl⟩
  | @cons source v rest vs hv hvs ih =>
    have hfirst : ∃ log', readSource read source { s with log := log }
        = .returned (.ok v) { s with log := log' } := by
      cases source with
      | cell i =>
        cases hv
        exact ⟨log, rfl⟩
      | node i => exact hread i v log List.mem_cons_self hv
    obtain ⟨log₁, hfirst⟩ := hfirst
    obtain ⟨log₂, hrest⟩ := ih (fun i v log hi => hread i v log (List.mem_cons_of_mem _ hi)) log₁
    refine ⟨log₂, ?_⟩
    rw [snapshot, hfirst]
    dsimp only
    rw [hrest]

/-- In every state that has been left alone since `s₀`, a read of the input, if that is a node,
returns this value and only adds to the log. -/
def ReadsBack (system : System n c V W) (s₀ : State n c V W) (source : Source n c) (v : V) : Prop :=
  ∀ node, source = .node node → ∀ fuel s, Undisturbed system s₀ s →
    Below system fuel node s.inFlight →
    ∃ log, readWithin system fuel node s = .returned (.ok v) { s with log := log }

/-- The inputs of a node are taken while the node is in flight. -/
theorem take_current {fuel : Nat} {s₀ : State n c V W} (hkept : Undisturbed system s₀ s)
    (hnot : node ∉ s.inFlight) (hbelow : Below system (fuel + 1) node s.inFlight)
    (hvalues : AllCurrent system s₀ (system.inputs node) values)
    (hback : List.Forall₂ (ReadsBack system s₀) (system.inputs node) values) :
    ∃ log, snapshot (readWithin system fuel) (system.inputs node) (s.enter node)
      = .returned (.ok values) { s.enter node with log := log } := by
  have hentered : Undisturbed system s₀ (s.enter node) := hkept.trans (.of_same rfl rfl)
  refine snapshot_current (hentered.allCurrent hvalues) (fun i v log hi hv => ?_) s.log
  have hboth := List.Forall₂.mp (fun _ _ => And.intro) hvalues hback
  obtain ⟨v', hv', hread⟩ := exists_of_mem_forall₂ hboth hi
  obtain rfl := (hentered.current hv').unique hv
  exact hread i rfl fuel _ (hentered.trans (.of_same rfl rfl)) (hbelow.next hnot hi)

/-- **A read of what is up to date finds nothing to do.** -/
theorem Current.readsBack {s₀ : State n c V W} (h : Current system s₀ source v) :
    ReadsBack system s₀ source v := by
  induction h with
  | cell i => exact nofun
  | @node i stored inputs hstored hsame hlength hinputs ih =>
    intro node hnode fuel s hkept hbelow
    cases hnode
    have hvalues : AllCurrent system s₀ (system.inputs i) inputs :=
      forall₂_iff_forall_zip.mpr ⟨hlength, hinputs⟩
    have hcurrent : Current system s₀ (.node i) stored.value := .node hstored hsame hlength hinputs
    have hnot : i ∉ s.inFlight := fun hin => hcurrent.not_cyclic (hbelow.waiting i hin)
    obtain ⟨fuel, rfl⟩ := Nat.exists_eq_add_of_lt hbelow.fuel_pos
    rw [Nat.zero_add] at hbelow ⊢
    obtain ⟨log, htaken⟩ := take_current hkept hnot hbelow hvalues
      (forall₂_iff_forall_zip.mpr ⟨hlength, ih⟩)
    -- the comparison comes out as it did before
    have htaken' : Undisturbed system s₀ { s.enter i with log := log } :=
      hkept.trans (.of_same rfl rfl)
    have hfound := (upToDate?_eq_some_iff (htaken'.allCurrent hvalues)).mpr
      (htaken'.current hcurrent)
    rw [readWithin, if_neg hnot, htaken]
    dsimp only
    rw [evaluate, hfound]
    refine ⟨.unchanged i :: log, ?_⟩
    simp [close, State.exit, State.enter, State.note]

end Recurrence.Reactive
