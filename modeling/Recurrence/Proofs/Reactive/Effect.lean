import Mathlib.Data.Fintype.EquivFin
import Recurrence.Reactive.Read

/-!
# What a read can do

`readWithin_course` lists once and for all the ways in which a read of a node can go: the inputs
decide first, then what the node remembers, and then its recipe.

Whatever recipes do on the way, a read leaves the nodes in flight alone. They stay in flight, they
remember what they did, and their recipes are not started again, because every read that could do
one of these things is refused. There is an end to it too, for no more nodes than there are can wait
for each other.
-/

namespace Recurrence.Reactive

variable {n c : Nat} {V W : Type}

/-! ## Outcomes -/

namespace Outcome

variable {A B S : Type}

/-- The state that an outcome leaves behind. -/
def state? : Outcome n A S → Option S
  | .returned _ s => some s
  | .unwound s => some s
  | .exhausted => none

/-- Goes on from a value; everything else is passed on. -/
def andThen (outcome : Outcome n A S) (next : A → S → Outcome n B S) : Outcome n B S :=
  match outcome with
  | .returned (.ok a) s => next a s
  | .returned (.error e) s => .returned (.error e) s
  | .unwound s => .unwound s
  | .exhausted => .exhausted

variable {outcome : Outcome n A S} {next : A → S → Outcome n B S}

theorem andThen_eq_ok {b : B} {s' : S} (h : outcome.andThen next = .returned (.ok b) s') :
    ∃ a s, outcome = .returned (.ok a) s ∧ next a s = .returned (.ok b) s' := by
  cases outcome with
  | returned result s =>
    cases result with
    | ok a => exact ⟨a, s, rfl, h⟩
    | error e => cases h
  | unwound s => cases h
  | exhausted => cases h

/-- What is left behind is left by the one or by the other. -/
theorem state?_andThen {s' : S} (h : (outcome.andThen next).state? = some s') :
    outcome.state? = some s'
    ∨ ∃ a s, outcome = .returned (.ok a) s ∧ (next a s).state? = some s' := by
  cases outcome with
  | returned result s =>
    cases result with
    | ok a => exact .inr ⟨a, s, rfl, h⟩
    | error e => exact .inl h
  | unwound s => exact .inl h
  | exhausted => cases h

theorem andThen_ne_exhausted (h : outcome ≠ .exhausted)
    (hnext : ∀ a s, outcome = .returned (.ok a) s → next a s ≠ .exhausted) :
    outcome.andThen next ≠ .exhausted := by
  cases outcome with
  | returned result s =>
    cases result with
    | ok a => exact hnext a s rfl
    | error e => simp [andThen]
  | unwound s => simp [andThen]
  | exhausted => exact absurd rfl h

end Outcome

/-- The first input is read, then the others. -/
theorem snapshot_cons (read : Reader n c V W) (source : Source n c) (rest : List (Source n c))
    (s : State n c V W) :
    snapshot read (source :: rest) s
      = (readSource read source s).andThen fun v s =>
          (snapshot read rest s).andThen fun vs s => .returned (.ok (v :: vs)) s := by
  rw [snapshot]
  cases readSource read source s with
  | returned result s₁ =>
    cases result with
    | ok v =>
      dsimp only [Outcome.andThen]
      cases snapshot read rest s₁ with
      | returned result s₂ => cases result <;> rfl
      | unwound s₂ => rfl
      | exhausted => rfl
    | error e => rfl
  | unwound s₁ => rfl
  | exhausted => rfl

/-! ## Nodes that are left alone -/

/-- From one state to the other the reads in progress have stayed the same, and nothing has happened
to these nodes. -/
structure Spares (nodes : List (Fin n)) (s s' : State n c V W) : Prop where
  inFlight : s'.inFlight = s.inFlight
  remembered : ∀ i ∈ nodes, s'.remembered i = s.remembered i
  runCount : ∀ i ∈ nodes, s'.runCount i = s.runCount i

variable {nodes : List (Fin n)} {node : Fin n} {s s' : State n c V W}

theorem Spares.refl (s : State n c V W) : Spares nodes s s :=
  ⟨rfl, fun _ _ => rfl, fun _ _ => rfl⟩

theorem Spares.trans {s'' : State n c V W} (h : Spares nodes s s') (h' : Spares nodes s' s'') :
    Spares nodes s s'' where
  inFlight := h'.inFlight.trans h.inFlight
  remembered i hi := (h'.remembered i hi).trans (h.remembered i hi)
  runCount i hi := (h'.runCount i hi).trans (h.runCount i hi)

theorem Spares.mono {fewer : List (Fin n)} (h : Spares nodes s s') (hsub : fewer ⊆ nodes) :
    Spares fewer s s' where
  inFlight := h.inFlight
  remembered i hi := h.remembered i (hsub hi)
  runCount i hi := h.runCount i (hsub hi)

theorem spares_startRun (h : node ∉ nodes) (s : State n c V W) (inputs : Nat) :
    Spares nodes s (s.startRun node inputs) where
  inFlight := rfl
  remembered _ _ := rfl
  runCount i hi := by
    have hne : i ≠ node := fun heq => h (heq ▸ hi)
    rw [State.runCount_startRun, if_neg hne]

theorem spares_store (h : node ∉ nodes) (s : State n c V W) (inputs : List V) (v : V) :
    Spares nodes s (s.store node inputs v) where
  inFlight := rfl
  remembered i hi := by
    have hne : i ≠ node := fun heq => h (heq ▸ hi)
    rw [State.remembered_store, if_neg hne]
  runCount _ _ := rfl

/-- The end of a read undoes its beginning. -/
theorem Spares.exit (h : Spares nodes (s.enter node) s') : Spares nodes s (s'.exit node) where
  inFlight := by
    have hinFlight : s'.inFlight = node :: s.inFlight := h.inFlight
    rw [State.exit, hinFlight, List.erase_cons_head]
  remembered := h.remembered
  runCount := h.runCount

/-! ## Recipes and inputs -/

/-- Reads leave the nodes in flight alone. -/
def Sparing (read : Reader n c V W) : Prop :=
  ∀ i s s', (read i s).state? = some s' → Spares s.inFlight s s'

variable {read : Reader n c V W}

/-- A recipe leaves alone what the reads that it makes leave alone. -/
theorem run_spares (hread : Sparing read) {recipe : Recipe n c V W} {s s' : State n c V W}
    (h : (run read recipe s).state? = some s') : Spares s.inFlight s s' := by
  induction recipe generalizing s with
  | done result =>
    cases h
    exact .refl _
  | read i next ih =>
    rw [run] at h
    cases hr : read i s with
    | returned result s₁ =>
      rw [hr] at h
      have hfirst := hread i s s₁ (congrArg Outcome.state? hr)
      exact hfirst.trans (hfirst.inFlight ▸ ih result h)
    | unwound s₁ =>
      rw [hr] at h
      cases h
      exact hread i s s' (congrArg Outcome.state? hr)
    | exhausted =>
      rw [hr] at h
      cases h
  | get cell next ih => exact ih _ h
  | set cell v next ih =>
    have hset : Spares s.inFlight s (s.set cell v) := ⟨rfl, fun _ _ => rfl, fun _ _ => rfl⟩
    exact hset.trans (ih h)
  | runs i next ih => exact ih _ h
  | look next ih => exact ih _ h
  | leave w next ih =>
    have hleave : Spares s.inFlight s { s with outside := w } :=
      ⟨rfl, fun _ _ => rfl, fun _ _ => rfl⟩
    exact hleave.trans (ih h)
  | unwind =>
    cases h
    exact .refl _

theorem readSource_spares (hread : Sparing read) {source : Source n c} {s s' : State n c V W}
    (h : (readSource read source s).state? = some s') : Spares s.inFlight s s' := by
  cases source with
  | cell i =>
    cases h
    exact .refl _
  | node i => exact hread i s s' h

theorem snapshot_spares (hread : Sparing read) {sources : List (Source n c)}
    {s s' : State n c V W} (h : (snapshot read sources s).state? = some s') :
    Spares s.inFlight s s' := by
  induction sources generalizing s with
  | nil =>
    cases h
    exact .refl _
  | cons source rest ih =>
    rw [snapshot_cons] at h
    rcases Outcome.state?_andThen h with hfirst | ⟨v, s₁, hv, hrest⟩
    · exact readSource_spares hread hfirst
    have hfirst := readSource_spares hread (congrArg Outcome.state? hv)
    rcases Outcome.state?_andThen hrest with hrest | ⟨vs, s₂, hvs, hall⟩
    · exact hfirst.trans (hfirst.inFlight ▸ ih hrest)
    · cases hall
      exact hfirst.trans (hfirst.inFlight ▸ ih (congrArg Outcome.state? hvs))

/-- The recipe of a node leaves alone whatever was in flight before the node was read. -/
theorem spares_of_run (hread : Sparing read) (hnot : node ∉ nodes) (hsub : nodes ⊆ s.inFlight)
    {recipe : Recipe n c V W} {inputs : Nat}
    (h : (run read recipe (s.startRun node inputs)).state? = some s') : Spares nodes s s' :=
  (spares_startRun hnot s inputs).trans ((run_spares hread h).mono hsub)

/-- A recipe ends if the reads that it makes end. -/
theorem run_ends (hread : Sparing read) {s : State n c V W}
    (hends : ∀ i s', s'.inFlight = s.inFlight → read i s' ≠ .exhausted)
    (recipe : Recipe n c V W) : run read recipe s ≠ .exhausted := by
  induction recipe generalizing s with
  | done result => simp [run]
  | read i next ih =>
    rw [run]
    cases hr : read i s with
    | returned result s₁ =>
      have hinFlight := (hread i s s₁ (congrArg Outcome.state? hr)).inFlight
      exact ih result fun j s' hs' => hends j s' (hs'.trans hinFlight)
    | unwound s₁ => simp
    | exhausted => exact absurd hr (hends i s rfl)
  | get cell next ih => exact ih _ hends
  | set cell v next ih => exact ih hends
  | runs i next ih => exact ih _ hends
  | look next ih => exact ih _ hends
  | leave w next ih => exact ih hends
  | unwind => simp [run]

theorem snapshot_ends (hread : Sparing read) {s : State n c V W}
    (hends : ∀ i s', s'.inFlight = s.inFlight → read i s' ≠ .exhausted)
    (sources : List (Source n c)) : snapshot read sources s ≠ .exhausted := by
  induction sources generalizing s with
  | nil => simp [snapshot]
  | cons source rest ih =>
    have hfirst : readSource read source s ≠ .exhausted := by
      cases source with
      | cell i => simp [readSource]
      | node i => exact hends i s rfl
    rw [snapshot_cons]
    refine Outcome.andThen_ne_exhausted hfirst fun v s₁ hv => ?_
    have hinFlight := (readSource_spares hread (congrArg Outcome.state? hv)).inFlight
    have hrest := ih (s := s₁) fun j s' hs' => hends j s' (hs'.trans hinFlight)
    exact Outcome.andThen_ne_exhausted hrest fun vs s₂ _ => by simp

/-! ## Reads -/

variable [BEq V]

/-- The ways in which a read of a node that is not in flight can go. -/
inductive Course (system : System n c V W) (read : Reader n c V W) (node : Fin n)
    (s : State n c V W) : Outcome n V (State n c V W) → Prop
  | inputFailed {e s₁} :
      snapshot read (system.inputs node) (s.enter node) = .returned (.error e) s₁ →
      Course system read node s (.returned (.error e) (s₁.exit node))
  | inputUnwound {s₁} : snapshot read (system.inputs node) (s.enter node) = .unwound s₁ →
      Course system read node s (.unwound (s₁.exit node))
  | unchanged {inputs s₁ v} :
      snapshot read (system.inputs node) (s.enter node) = .returned (.ok inputs) s₁ →
      s₁.upToDate? node inputs = some v →
      Course system read node s (.returned (.ok v) ((s₁.note (.unchanged node)).exit node))
  | succeeded {inputs s₁ v s₂} :
      snapshot read (system.inputs node) (s.enter node) = .returned (.ok inputs) s₁ →
      s₁.upToDate? node inputs = none →
      run read (system.recipe node inputs) (s₁.startRun node inputs.length)
        = .returned (.ok v) s₂ →
      Course system read node s (.returned (.ok v) ((s₂.store node inputs v).exit node))
  | failed {inputs s₁ e s₂} :
      snapshot read (system.inputs node) (s.enter node) = .returned (.ok inputs) s₁ →
      s₁.upToDate? node inputs = none →
      run read (system.recipe node inputs) (s₁.startRun node inputs.length)
        = .returned (.error e) s₂ →
      Course system read node s (.returned (.error e) (s₂.exit node))
  | unwound {inputs s₁ s₂} :
      snapshot read (system.inputs node) (s.enter node) = .returned (.ok inputs) s₁ →
      s₁.upToDate? node inputs = none →
      run read (system.recipe node inputs) (s₁.startRun node inputs.length) = .unwound s₂ →
      Course system read node s (.unwound (s₂.exit node))
  | inputsExhausted : snapshot read (system.inputs node) (s.enter node) = .exhausted →
      Course system read node s .exhausted
  | recipeExhausted {inputs s₁} :
      snapshot read (system.inputs node) (s.enter node) = .returned (.ok inputs) s₁ →
      run read (system.recipe node inputs) (s₁.startRun node inputs.length) = .exhausted →
      Course system read node s .exhausted

variable (system : System n c V W)

theorem readWithin_course (h : node ∉ s.inFlight) (fuel : Nat) :
    Course system (readWithin system fuel) node s (readWithin system (fuel + 1) node s) := by
  rw [readWithin, if_neg h]
  cases htaken : snapshot (readWithin system fuel) (system.inputs node) (s.enter node) with
  | returned result s₁ =>
    cases result with
    | error e => exact .inputFailed htaken
    | ok inputs =>
      simp only [evaluate]
      cases hstored : s₁.upToDate? node inputs with
      | some v => exact .unchanged htaken hstored
      | none =>
        dsimp only
        cases hrun : run (readWithin system fuel) (system.recipe node inputs)
            (s₁.startRun node inputs.length) with
        | returned result s₂ =>
          cases result with
          | ok v => exact .succeeded htaken hstored hrun
          | error e => exact .failed htaken hstored hrun
        | unwound s₂ => exact .unwound htaken hstored hrun
        | exhausted => exact .recipeExhausted htaken hrun
  | unwound s₁ => exact .inputUnwound htaken
  | exhausted => exact .inputsExhausted htaken

/-- A read of a node in flight is refused, and nothing tells of it. -/
theorem readWithin_of_inFlight (h : node ∈ s.inFlight) (fuel : Nat) :
    readWithin system (fuel + 1) node s = .returned (.error (.circular node)) s := by
  rw [readWithin, if_pos h]

/-- **A read leaves the nodes in flight alone.** -/
theorem readWithin_sparing (fuel : Nat) : Sparing (readWithin system fuel) := by
  induction fuel with
  | zero =>
    intro node s s' h
    cases h
  | succ fuel ih =>
    intro node s s' h
    by_cases hin : node ∈ s.inFlight
    · rw [readWithin_of_inFlight system hin] at h
      cases h
      exact .refl s
    -- up to its exit the read has only touched its own node
    have hinputs {s₁} (htaken : (snapshot (readWithin system fuel) (system.inputs node)
        (s.enter node)).state? = some s₁) : Spares s.inFlight (s.enter node) s₁ :=
      (snapshot_spares ih htaken).mono (List.subset_cons_self _ _)
    have hrecipe {inputs s₁ s₂} (htaken : snapshot (readWithin system fuel) (system.inputs node)
        (s.enter node) = .returned (.ok inputs) s₁) (hrun : (run (readWithin system fuel)
        (system.recipe node inputs) (s₁.startRun node inputs.length)).state? = some s₂) :
        Spares s.inFlight (s.enter node) s₂ := by
      have hbefore := hinputs (congrArg Outcome.state? htaken)
      have hinFlight : s₁.inFlight = node :: s.inFlight := hbefore.inFlight
      have hsub : s.inFlight ⊆ s₁.inFlight := hinFlight ▸ List.subset_cons_self _ _
      exact hbefore.trans (spares_of_run ih hin hsub hrun)
    have hcourse := readWithin_course system hin fuel
    generalize readWithin system (fuel + 1) node s = outcome at h hcourse
    cases hcourse with
    | inputFailed htaken | inputUnwound htaken =>
      cases h
      exact Spares.exit (hinputs (congrArg Outcome.state? htaken))
    | unchanged htaken _ =>
      cases h
      have hbefore := hinputs (congrArg Outcome.state? htaken)
      exact Spares.exit ⟨hbefore.inFlight, hbefore.remembered, hbefore.runCount⟩
    | succeeded htaken _ hrun =>
      cases h
      have hbefore := hrecipe htaken (congrArg Outcome.state? hrun)
      exact Spares.exit (hbefore.trans (spares_store hin _ _ _))
    | failed htaken _ hrun | unwound htaken _ hrun =>
      cases h
      exact Spares.exit (hrecipe htaken (congrArg Outcome.state? hrun))
    | inputsExhausted _ | recipeExhausted _ _ => cases h

variable {system}

/-- **A read ends** if its fuel is enough for the nodes that are not in flight. -/
theorem readWithin_ends {fuel : Nat} {s : State n c V W} (hnodup : s.inFlight.Nodup)
    (hfuel : n < s.inFlight.length + fuel) (node : Fin n) :
    readWithin system fuel node s ≠ .exhausted := by
  induction fuel generalizing node s with
  | zero =>
    have hlength := hnodup.length_le_card
    rw [Fintype.card_fin] at hlength
    omega
  | succ fuel ih =>
    by_cases hin : node ∈ s.inFlight
    · rw [readWithin_of_inFlight system hin]
      simp
    have hread := readWithin_sparing system fuel
    have hends : ∀ i s', s'.inFlight = node :: s.inFlight →
        readWithin system fuel i s' ≠ .exhausted := by
      intro i s' hs'
      refine ih ?_ ?_ i
      · rw [hs']
        exact List.nodup_cons.mpr ⟨hin, hnodup⟩
      · rw [hs', List.length_cons]
        omega
    intro hexhausted
    have hcourse := readWithin_course system hin fuel
    rw [hexhausted] at hcourse
    cases hcourse with
    | inputsExhausted htaken => exact snapshot_ends hread hends _ htaken
    | @recipeExhausted inputs s₁ htaken hrun =>
      have hinFlight : s₁.inFlight = node :: s.inFlight :=
        (snapshot_spares hread (congrArg Outcome.state? htaken)).inFlight
      have hends' : ∀ i s', s'.inFlight = s₁.inFlight →
          readWithin system fuel i s' ≠ .exhausted :=
        fun i s' hs' => hends i s' (hs'.trans hinFlight)
      exact run_ends (s := s₁.startRun node inputs.length) hread hends' _ hrun

end Recurrence.Reactive
