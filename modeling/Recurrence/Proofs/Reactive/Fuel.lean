import Recurrence.Proofs.Reactive.Effect

/-!
# Fuel

Fuel bounds how many reads run inside each other, and that is all it does: a read that comes to an
end with some fuel comes to the same end with more.
-/

namespace Recurrence.Reactive

variable {n c : Nat} {V W : Type}

/-- Where the one comes to an end, the other comes to the same. -/
def Extends {A S : Type} (outcome' outcome : Outcome n A S) : Prop :=
  outcome ≠ .exhausted → outcome' = outcome

namespace Extends

variable {A B S : Type} {outcome outcome' : Outcome n A S}

theorem refl (outcome : Outcome n A S) : Extends outcome outcome := fun _ => rfl

theorem andThen {next next' : A → S → Outcome n B S} (h : Extends outcome' outcome)
    (hnext : ∀ a s, Extends (next' a s) (next a s)) :
    Extends (outcome'.andThen next') (outcome.andThen next) := by
  intro hends
  have hfirst : outcome ≠ .exhausted := by
    rintro rfl
    exact hends rfl
  rw [h hfirst]
  cases outcome with
  | returned result s =>
    cases result with
    | ok a => exact hnext a s hends
    | error e => rfl
  | unwound s => rfl
  | exhausted => rfl

/-- What passes running out of fuel on keeps everything else. -/
theorem passedOn {B S' : Type} {f : Outcome n A S → Outcome n B S'} (hf : f .exhausted = .exhausted)
    (h : Extends outcome' outcome) : Extends (f outcome') (f outcome) := by
  intro hends
  have hfirst : outcome ≠ .exhausted := by
    rintro rfl
    exact hends hf
  rw [h hfirst]

end Extends

variable {read read' : Reader n c V W}

theorem run_extends (hread : ∀ i s, Extends (read' i s) (read i s)) (recipe : Recipe n c V W)
    (s : State n c V W) : Extends (run read' recipe s) (run read recipe s) := by
  induction recipe generalizing s with
  | done result => exact .refl _
  | read i next ih =>
    intro h
    rw [run] at h
    rw [run, run]
    have hends : read i s ≠ .exhausted := by
      intro hexhausted
      rw [hexhausted] at h
      exact h rfl
    rw [hread i s hends]
    cases hr : read i s with
    | returned result s' =>
      rw [hr] at h
      exact ih result s' h
    | unwound s' => rfl
    | exhausted => rfl
  | get cell next ih => exact ih _ _
  | set cell v next ih => exact ih _
  | runs i next ih => exact ih _ _
  | look next ih => exact ih _ _
  | leave w next ih => exact ih _
  | unwind => exact .refl _

theorem snapshot_extends (hread : ∀ i s, Extends (read' i s) (read i s))
    (sources : List (Source n c)) (s : State n c V W) :
    Extends (snapshot read' sources s) (snapshot read sources s) := by
  induction sources generalizing s with
  | nil => exact .refl _
  | cons source rest ih =>
    have hfirst : Extends (readSource read' source s) (readSource read source s) := by
      cases source with
      | cell i => exact .refl _
      | node i => exact hread i s
    rw [snapshot_cons, snapshot_cons]
    exact hfirst.andThen fun v s => (ih s).andThen fun vs s => .refl _

variable [BEq V] (system : System n c V W)

theorem evaluate_extends (hread : ∀ i s, Extends (read' i s) (read i s)) (node : Fin n)
    (inputs : List V) (s : State n c V W) :
    Extends (evaluate system read' node inputs s) (evaluate system read node inputs s) := by
  unfold evaluate
  split
  · exact .refl _
  · exact (run_extends hread _ _).passedOn rfl

theorem readWithin_succ (fuel : Nat) {node : Fin n} {s : State n c V W} (h : node ∉ s.inFlight) :
    readWithin system (fuel + 1) node s
      = close node ((snapshot (readWithin system fuel) (system.inputs node) (s.enter node)).andThen
          (evaluate system (readWithin system fuel) node)) := by
  rw [readWithin, if_neg h]
  rcases snapshot (readWithin system fuel) (system.inputs node) (s.enter node) with
    ⟨_ | _, _⟩ | _ | _ <;> rfl

/-- **More fuel keeps a read that has come to its end.** -/
theorem readWithin_extends {fuel fuel' : Nat} (hle : fuel ≤ fuel') (node : Fin n)
    (s : State n c V W) :
    Extends (readWithin system fuel' node s) (readWithin system fuel node s) := by
  induction fuel generalizing fuel' node s with
  | zero => exact fun h => absurd rfl h
  | succ fuel ih =>
    obtain ⟨more, rfl⟩ : ∃ more, fuel' = more + 1 := ⟨fuel' - 1, by omega⟩
    by_cases hin : node ∈ s.inFlight
    · rw [readWithin_of_inFlight system hin, readWithin_of_inFlight system hin]
      exact .refl _
    have hread (i : Fin n) (s : State n c V W) := ih (by omega : fuel ≤ more) i s
    rw [readWithin_succ system fuel hin, readWithin_succ system more hin]
    have hsnapshot := snapshot_extends hread (system.inputs node) (s.enter node)
    exact (hsnapshot.andThen (evaluate_extends system hread node)).passedOn rfl

end Recurrence.Reactive
