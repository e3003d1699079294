import Mathlib.Data.List.Forall2
import Recurrence.Proofs.Reactive.History

/-!
# Recomputation happens exactly on change

A read of a node compares what it has just taken of the inputs with the snapshot of the latest
success. The recipe that ran in between may have set the very cells that the snapshot was taken
from; the snapshot keeps what they held before, so the next read finds the difference. A recipe that
fails leaves the snapshot of the latest success where it is, so going back to those inputs brings
the old value back.

While a node is read it is in flight, and all other reads leave it alone. That is why the comparison
is with what the node remembered when its read began, though its inputs are read in between.
-/

namespace Recurrence.Reactive

variable {n c : Nat} {V W : Type} {s s' : State n c V W} {node : Fin n} {inputs : List V}

/-! ## Taking inputs -/

/-- A snapshot that succeeds has a value for each input, read one after the other. -/
theorem snapshot_cons_ok {read : Reader n c V W} {source : Source n c} {rest : List (Source n c)}
    (h : snapshot read (source :: rest) s = .returned (.ok inputs) s') :
    ∃ v s₁ others, readSource read source s = .returned (.ok v) s₁
      ∧ snapshot read rest s₁ = .returned (.ok others) s' ∧ inputs = v :: others := by
  rw [snapshot_cons] at h
  obtain ⟨v, s₁, hfirst, h⟩ := Outcome.andThen_eq_ok h
  obtain ⟨others, s₂, hrest, h⟩ := Outcome.andThen_eq_ok h
  cases h
  exact ⟨v, s₁, others, hfirst, hrest, rfl⟩

/-- The place of a cell among the inputs has what the cell holds when it is its turn. -/
theorem snapshot_cell {read : Reader n c V W} {before after : List (Source n c)} {i : Fin c}
    {us : List V} {s₁ : State n c V W}
    (hbefore : snapshot read before s = .returned (.ok us) s₁)
    (hall : snapshot read (before ++ .cell i :: after) s = .returned (.ok inputs) s') :
    inputs[before.length]? = some (s₁.get i) := by
  induction before generalizing s inputs us with
  | nil =>
    cases hbefore
    obtain ⟨v, s₂, others, hcell, -, rfl⟩ := snapshot_cons_ok hall
    cases hcell
    rfl
  | cons source before ih =>
    obtain ⟨v, s₂, others, hfirst, hrest, -⟩ := snapshot_cons_ok hbefore
    obtain ⟨v', s₂', others', hfirst', hrest', rfl⟩ := snapshot_cons_ok hall
    cases hfirst.symm.trans hfirst'
    exact ih hrest hrest'

/-- Cells are taken as they are, and nothing else happens. -/
theorem snapshot_cells (read : Reader n c V W) (cells : List (Fin c)) (s : State n c V W) :
    snapshot read (cells.map .cell) s = .returned (.ok (cells.map s.get)) s := by
  induction cells with
  | nil => rfl
  | cons i cells ih =>
    rw [List.map_cons, snapshot, readSource]
    dsimp only
    rw [ih]
    rfl

/-! ## Comparing snapshots -/

variable [BEq V]

/-- The inputs are equal, one by one, to those that the value was computed from. -/
def Stored.StandsFor (stored : Stored V) (inputs : List V) : Prop :=
  List.Forall₂ (fun a b => (a == b) = true) stored.snapshot inputs

theorem beq_iff_forall₂ (xs ys : List V) :
    (xs == ys) = true ↔ List.Forall₂ (fun a b => (a == b) = true) xs ys := by
  induction xs generalizing ys with
  | nil => cases ys <;> simp
  | cons x xs ih =>
    cases ys with
    | nil => simp
    | cons y ys => simp [ih]

/-- A difference at one place is enough. -/
theorem Stored.not_standsFor {stored : Stored V} {inputs : List V} {place : Nat} {a b : V}
    (ha : stored.snapshot[place]? = some a) (hb : inputs[place]? = some b)
    (hne : (a == b) = false) : ¬ stored.StandsFor inputs := by
  intro hstands
  obtain ⟨hplace, rfl⟩ := List.getElem?_eq_some_iff.mp ha
  obtain ⟨hplace', rfl⟩ := List.getElem?_eq_some_iff.mp hb
  have hsame := List.Forall₂.get hstands hplace hplace'
  rw [List.get_eq_getElem, List.get_eq_getElem, hne] at hsame
  exact absurd hsame (by simp)

theorem standsFor_of_upToDate? {v : V} (h : s.upToDate? node inputs = some v) :
    ∃ stored, s.remembered node = some stored ∧ stored.StandsFor inputs ∧ stored.value = v := by
  obtain ⟨stored, hstored, hsame, hvalue⟩ := State.upToDate?_eq_some h
  exact ⟨stored, hstored, (beq_iff_forall₂ _ _).mp hsame, hvalue⟩

theorem not_standsFor_of_upToDate? (h : s.upToDate? node inputs = none) (stored : Stored V)
    (hstored : s.remembered node = some stored) : ¬ stored.StandsFor inputs := by
  intro hstands
  have hsame : (stored.snapshot == inputs) = true := (beq_iff_forall₂ _ _).mpr hstands
  rw [State.upToDate?, hstored] at h
  simp only [hsame, if_true] at h
  exact absurd h (by simp)

/-! ## The node that is read -/

/-- What a read takes of the inputs of its node before it decides anything. -/
def System.take (system : System n c V W) (fuel : Nat) (node : Fin n) (s : State n c V W) :
    Outcome n (List V) (State n c V W) :=
  snapshot (readWithin system fuel) (system.inputs node) (s.enter node)

variable {system : System n c V W} {fuel : Nat}

/-- Reading the inputs does nothing to the node itself. -/
theorem take_own (h : (system.take fuel node s).state? = some s') :
    s'.remembered node = s.remembered node ∧ s'.runCount node = s.runCount node := by
  have hspared := snapshot_spares (readWithin_sparing system fuel) h
  have hin : node ∈ (s.enter node).inFlight := List.mem_cons_self
  exact ⟨hspared.remembered node hin, hspared.runCount node hin⟩

/-- Where the recipe runs, nothing stored stood for the inputs, and the run is one more. What it
comes to is not remembered yet. -/
theorem run_own {s₁ : State n c V W} (htaken : system.take fuel node s = .returned (.ok inputs) s₁)
    (hstored : s₁.upToDate? node inputs = none)
    (hrun : (run (readWithin system fuel) (system.recipe node inputs)
      (s₁.startRun node inputs.length)).state? = some s') :
    (∀ stored, s.remembered node = some stored → ¬ stored.StandsFor inputs)
    ∧ s'.remembered node = s.remembered node ∧ s'.runCount node = s.runCount node + 1 := by
  have hsparing := readWithin_sparing system fuel
  obtain ⟨hremembered, hcount⟩ := take_own (congrArg Outcome.state? htaken)
  have hinFlight : s₁.inFlight = node :: s.inFlight :=
    (snapshot_spares hsparing (congrArg Outcome.state? htaken)).inFlight
  have hspared := run_spares hsparing hrun
  have hin : node ∈ (s₁.startRun node inputs.length).inFlight := by
    show node ∈ s₁.inFlight
    rw [hinFlight]
    exact List.mem_cons_self
  have hstarted : (s₁.startRun node inputs.length).runCount node = s.runCount node + 1 := by
    rw [State.runCount_startRun, if_pos rfl, hcount]
  refine ⟨?_, (hspared.remembered node hin).trans hremembered,
    (hspared.runCount node hin).trans hstarted⟩
  exact fun stored hs => not_standsFor_of_upToDate? hstored stored (hremembered.trans hs)

/-- A read does not run the recipe, or it runs it once. -/
theorem idle_or_ran (hnot : node ∉ s.inFlight)
    (h : (readWithin system (fuel + 1) node s).state? = some s') :
    (s'.runCount node = s.runCount node ∧ s'.remembered node = s.remembered node
      ∧ ∀ inputs s₁, system.take fuel node s = .returned (.ok inputs) s₁ →
          ∃ stored, s.remembered node = some stored ∧ stored.StandsFor inputs
            ∧ readWithin system (fuel + 1) node s = .returned (.ok stored.value) s')
    ∨ (s'.runCount node = s.runCount node + 1
      ∧ ∃ inputs s₁, system.take fuel node s = .returned (.ok inputs) s₁
        ∧ (∀ stored, s.remembered node = some stored → ¬ stored.StandsFor inputs)
        ∧ ((∃ v, readWithin system (fuel + 1) node s = .returned (.ok v) s'
              ∧ s'.remembered node = some ⟨inputs, v⟩)
            ∨ (∀ v, readWithin system (fuel + 1) node s ≠ .returned (.ok v) s')
              ∧ s'.remembered node = s.remembered node)) := by
  have hcourse := readWithin_course system hnot fuel
  generalize readWithin system (fuel + 1) node s = outcome at h hcourse ⊢
  cases hcourse with
  | inputFailed htaken | inputUnwound htaken =>
    cases h
    obtain ⟨hremembered, hcount⟩ := take_own (congrArg Outcome.state? htaken)
    refine .inl ⟨hcount, hremembered, fun inputs s₁ htaken' => ?_⟩
    cases htaken.symm.trans htaken'
  | unchanged htaken hstored =>
    cases h
    obtain ⟨hremembered, hcount⟩ := take_own (congrArg Outcome.state? htaken)
    refine .inl ⟨hcount, hremembered, fun inputs s₁ htaken' => ?_⟩
    cases htaken.symm.trans htaken'
    obtain ⟨stored, hin, hstands, rfl⟩ := standsFor_of_upToDate? hstored
    exact ⟨stored, hremembered ▸ hin, hstands, rfl⟩
  | @succeeded inputs s₁ v s₂ htaken hstored hrun =>
    cases h
    obtain ⟨hchanged, -, hcount⟩ := run_own htaken hstored (congrArg Outcome.state? hrun)
    have hnew : (s₂.store node inputs v).remembered node = some ⟨inputs, v⟩ := by
      rw [State.remembered_store, if_pos rfl]
    exact .inr ⟨hcount, inputs, s₁, htaken, hchanged, .inl ⟨v, rfl, hnew⟩⟩
  | failed htaken hstored hrun | unwound htaken hstored hrun =>
    cases h
    obtain ⟨hchanged, hold, hcount⟩ := run_own htaken hstored (congrArg Outcome.state? hrun)
    exact .inr ⟨hcount, _, _, htaken, hchanged, .inr ⟨fun v => by simp, hold⟩⟩
  | inputsExhausted _ | recipeExhausted _ _ => cases h

/-! ## Reads recompute exactly on change -/

/-- A read from `s` to `s'` ran the recipe of its node exactly if that was needed. -/
structure Frugal (system : System n c V W) (fuel : Nat) (node : Fin n)
    (s s' : State n c V W) : Prop where
  /-- It ran if all inputs were read and what is stored, if anything, does not stand for them. -/
  ran_iff : s'.runCount node = s.runCount node + 1 ↔
    ∃ inputs s₁, system.take fuel node s = .returned (.ok inputs) s₁
      ∧ ∀ stored, s.remembered node = some stored → ¬ stored.StandsFor inputs
  /-- Otherwise it did not run. -/
  ran_once : s'.runCount node = s.runCount node ∨ s'.runCount node = s.runCount node + 1
  /-- If it did not run and no input failed, the stored value was returned. -/
  idle : ∀ inputs s₁, system.take fuel node s = .returned (.ok inputs) s₁ →
    s'.runCount node = s.runCount node → ∃ stored, s.remembered node = some stored
      ∧ readWithin system (fuel + 1) node s = .returned (.ok stored.value) s'
  /-- If it ran and succeeded, then its inputs and its value are stored. -/
  succeeded : ∀ v, readWithin system (fuel + 1) node s = .returned (.ok v) s' →
    s'.runCount node = s.runCount node + 1 → ∃ inputs s₁,
      system.take fuel node s = .returned (.ok inputs) s₁ ∧ s'.remembered node = some ⟨inputs, v⟩
  /-- If the read ended without a value, what was stored has stayed. -/
  failed : (∀ v, readWithin system (fuel + 1) node s ≠ .returned (.ok v) s') →
    s'.remembered node = s.remembered node
  /-- A cell among the inputs that has changed since the stored snapshot was noticed. -/
  noticed : ∀ before i after us s₁ inputs s₂ stored v,
    system.inputs node = before ++ .cell i :: after →
    snapshot (readWithin system fuel) before (s.enter node) = .returned (.ok us) s₁ →
    system.take fuel node s = .returned (.ok inputs) s₂ →
    s.remembered node = some stored → stored.snapshot[before.length]? = some v →
    (v == s₁.get i) = false → s'.runCount node = s.runCount node + 1
  /-- Cells that hold what they held at the latest success brought its value back. -/
  restored : ∀ (cells : List (Fin c)) stored, system.inputs node = cells.map .cell →
    s.remembered node = some stored → stored.StandsFor (cells.map s.get) →
    readWithin system (fuel + 1) node s = .returned (.ok stored.value) s'
      ∧ s'.runCount node = s.runCount node

theorem ran_iff_changed (hnot : node ∉ s.inFlight)
    (h : (readWithin system (fuel + 1) node s).state? = some s') :
    s'.runCount node = s.runCount node + 1 ↔
      ∃ inputs s₁, system.take fuel node s = .returned (.ok inputs) s₁
        ∧ ∀ stored, s.remembered node = some stored → ¬ stored.StandsFor inputs := by
  rcases idle_or_ran hnot h with ⟨hcount, -, hidle⟩ | ⟨hcount, inputs, s₁, htaken, hchanged, -⟩
  · constructor
    · intro hran
      omega
    · intro hneeded
      obtain ⟨inputs, s₁, htaken, hchanged⟩ := hneeded
      obtain ⟨stored, hstored, hstands, -⟩ := hidle inputs s₁ htaken
      exact absurd hstands (hchanged stored hstored)
  · exact ⟨fun _ => ⟨inputs, s₁, htaken, hchanged⟩, fun _ => hcount⟩

theorem readWithin_frugal (hnot : node ∉ s.inFlight)
    (h : (readWithin system (fuel + 1) node s).state? = some s') :
    Frugal system fuel node s s' where
  ran_iff := ran_iff_changed hnot h
  ran_once := by
    rcases idle_or_ran hnot h with ⟨hcount, -⟩ | ⟨hcount, -⟩
    · exact .inl hcount
    · exact .inr hcount
  idle inputs s₁ htaken hcount := by
    rcases idle_or_ran hnot h with ⟨-, -, hidle⟩ | ⟨hran, -⟩
    · obtain ⟨stored, hstored, -, hread⟩ := hidle inputs s₁ htaken
      exact ⟨stored, hstored, hread⟩
    · omega
  succeeded v hread hran := by
    rcases idle_or_ran hnot h with
      ⟨hcount, -⟩ | ⟨-, inputs, s₁, htaken, -, ⟨v', hread', hnew⟩ | ⟨hfailed, -⟩⟩
    · omega
    · cases hread.symm.trans hread'
      exact ⟨inputs, s₁, htaken, hnew⟩
    · exact absurd hread (hfailed v)
  failed hfailed := by
    rcases idle_or_ran hnot h with ⟨-, hold, -⟩ | ⟨-, -, -, -, -, ⟨v, hread, -⟩ | ⟨-, hold⟩⟩
    · exact hold
    · exact absurd hread (hfailed v)
    · exact hold
  noticed before i after us s₁ inputs s₂ stored v hinputs hbefore htaken hstored hv hne := by
    refine (ran_iff_changed hnot h).mpr ⟨inputs, s₂, htaken, fun stored' hstored' => ?_⟩
    cases hstored.symm.trans hstored'
    rw [System.take, hinputs] at htaken
    exact Stored.not_standsFor hv (snapshot_cell hbefore htaken) hne
  restored cells stored hinputs hstored hstands := by
    have htaken : system.take fuel node s = .returned (.ok (cells.map s.get)) (s.enter node) := by
      rw [System.take, hinputs]
      exact snapshot_cells _ cells (s.enter node)
    rcases idle_or_ran hnot h with ⟨hcount, -, hidle⟩ | ⟨-, inputs, s₁, htaken', hchanged, -⟩
    · obtain ⟨stored', hstored', -, hread⟩ := hidle _ _ htaken
      cases hstored.symm.trans hstored'
      exact ⟨hread, hcount⟩
    · cases htaken.symm.trans htaken'
      exact absurd hstands (hchanged stored hstored)

/--
**Recomputation happens exactly on change.**

At every moment of every run a node remembers the inputs and the value of its latest run that
succeeded, and its runs have been counted. A read of a node that is not in flight, made at any
moment from outside or inside, comes to an end, and it runs the recipe exactly if all inputs were
read and differ from what is remembered. Its moments belong to the run: they lead from the moment
that asks for the read to the one that goes on with its result.
-/
theorem recomputed_iff_changed {program : Recipe n c V W} {cells : Vector V c} {outside : W}
    {now : Moment n c V W} (h : Reaches system (.start program cells outside) now) :
    (∀ i, now.state.remembered i = lastSuccess i now.past
      ∧ now.state.runCount i = startCount i now.past)
    ∧ ∀ node fuel, node ∉ now.state.inFlight →
        (n ≤ fuel → readWithin system (fuel + 1) node now.state ≠ .exhausted)
        ∧ (∀ s', (readWithin system (fuel + 1) node now.state).state? = some s' →
            Frugal system fuel node now.state s')
        ∧ (now.doing.asks? = some node →
            LeadsTo system now now.stack now.doing.resume
              (readWithin system (fuel + 1) node now.state)) := by
  have hr := recorded_reached h
  refine ⟨fun i => ⟨hr.remembered i, hr.runCount i⟩, fun node fuel hnot => ⟨?_, ?_, ?_⟩⟩
  · intro hfuel
    exact readWithin_ends (hr.tracked.inFlight ▸ hr.tracked.nodup) (by omega) node
  · intro s' hs'
    exact readWithin_frugal hnot hs'
  · exact readWithin_leadsTo system (fuel + 1) now.doing node now.stack now.state now.past

/-- Each run of a purse takes a coin from the cell that it counts, and an empty purse fails. -/
def purse (coins : Fin c) : System n c Nat W where
  inputs _ := [.cell coins]
  recipe _ inputs :=
    match inputs with
    | [left + 1] => .set coins left (.pure (left + 1))
    | _ => .fail "empty"

/-- The coin that a run takes is noticed by the next read, which fails. With the coin put back the
old value is returned without a run. -/
theorem recomputed_iff_changed_purse : ∃ once twice : State 1 1 Nat Unit,
    (purse 0).read 0 (.start #v[1] ()) = .returned (.ok 1) once ∧ once.runCount 0 = 1
    ∧ once.get 0 = 0 ∧ (purse 0).read 0 once = .returned (.error (.failed "empty")) twice
    ∧ twice.runCount 0 = 2
    ∧ ∃ s, (purse 0).read 0 (twice.set 0 1) = .returned (.ok 1) s ∧ s.runCount 0 = 2 := by
  -- the history in which all of this happens
  let program : Recipe 1 1 Nat Unit := .read 0 fun _ => .read 0 fun _ => .set 0 1 (.pure 0)
  have hrun := run_leadsTo (readWithin_leadsTo (purse 0) 2) [] program [] (.start #v[1] ()) []
  obtain ⟨past, h⟩ := hrun
  obtain ⟨-, hreads⟩ := recomputed_iff_changed h
  obtain ⟨-, hfrugal, -⟩ := hreads 0 1 List.not_mem_nil
  have hstands : Stored.StandsFor ⟨[1], 1⟩ [1] := .cons rfl .nil
  obtain ⟨hread, hcount⟩ := (hfrugal _ rfl).restored [0] ⟨[1], 1⟩ rfl rfl hstands
  exact ⟨_, _, rfl, rfl, rfl, rfl, rfl, _, hread, hcount⟩

end Recurrence.Reactive
