import Recurrence.Memo.Run

/-!
# Fuel

Fuel bounds how many computations run inside each other, and that is all it does: a call that comes
to an end with some fuel comes to the same end with more.
-/

namespace Recurrence.Memo

variable {n : Nat} {K V W : Type} [DecidableEq K]

/-- A call with the answer of its lookup set apart from the state. -/
theorem call_succ (body : Fin n → K → Computation n K V W) (fuel : Nat) (m : Fin n) (key : K)
    (s : State n K V W) :
    call body (fuel + 1) m key s =
      match (s.lookup m key).1 with
      | .hit v => .returned (.ok v) (s.lookup m key).2
      | .inFlight => .returned (.error (.cycle key)) (s.lookup m key).2
      | .absent =>
        finish m key (run (call body fuel) (body m key) ((s.lookup m key).2.begin m key)) := by
  rw [call]
  rcases s.lookup m key with ⟨_ | _ | v, s'⟩ <;> rfl

theorem finish_eq_exhausted_iff {m : Fin n} {key : K} {outcome : Outcome K V (State n K V W)} :
    finish m key outcome = .exhausted ↔ outcome = .exhausted := by
  rcases outcome with ⟨_ | _, _⟩ | _ | _ <;> simp [finish]

theorem finish_eq_unwound_iff {m : Fin n} {key : K} {outcome : Outcome K V (State n K V W)}
    {cause : Overflow} {s : State n K V W} :
    finish m key outcome = .unwound cause s ↔ outcome = .unwound cause s := by
  rcases outcome with ⟨_ | _, _⟩ | _ | _ <;> simp [finish]

theorem run_mono {call call' : Fin n → K → State n K V W → Outcome K V (State n K V W)}
    (hcall : ∀ m key s, call m key s ≠ .exhausted → call' m key s = call m key s)
    (c : Computation n K V W) (s : State n K V W) (h : run call c s ≠ .exhausted) :
    run call' c s = run call c s := by
  induction c generalizing s with
  | done result => rfl
  | call m key next ih =>
    rw [run] at h
    rw [run, run]
    have hc : call m key s ≠ .exhausted := by
      intro he
      rw [he] at h
      exact h rfl
    rw [hcall m key s hc]
    cases hr : call m key s with
    | returned result s' =>
      rw [hr] at h
      exact ih result s' h
    | unwound cause s' => rfl
    | exhausted => rfl
  | probe m key next ih => exact ih _ _ _ h
  | runs m next ih => exact ih _ _ h
  | advance d next ih =>
    rw [run] at h
    rw [run, run]
    cases hd : s.advance? d with
    | some s' =>
      rw [hd] at h
      exact ih s' h
    | none => rfl
  | clear m next ih => exact ih _ h
  | invalidate m key next ih => exact ih _ h
  | look next ih => exact ih _ _ h
  | leave w next ih => exact ih _ h
  | unwind cause => rfl

/-- More fuel keeps a finished answer. -/
theorem call_mono (body : Fin n → K → Computation n K V W) {fuel fuel' : Nat}
    (hle : fuel ≤ fuel') {m : Fin n} {key : K} {s : State n K V W}
    (h : call body fuel m key s ≠ .exhausted) :
    call body fuel' m key s = call body fuel m key s := by
  induction fuel generalizing fuel' m key s with
  | zero => exact absurd rfl h
  | succ fuel ih =>
    obtain ⟨more, rfl⟩ : ∃ more, fuel' = more + 1 := ⟨fuel' - 1, by omega⟩
    rw [call_succ] at h
    rw [call_succ, call_succ]
    cases hl : (s.lookup m key).1 with
    | hit v => rfl
    | inFlight => rfl
    | absent =>
      rw [hl] at h
      have hrun := mt finish_eq_exhausted_iff.mpr h
      have hsame := run_mono (fun _ _ _ hc => ih (by omega : fuel ≤ more) hc)
        (body m key) ((s.lookup m key).2.begin m key) hrun
      exact congrArg (finish m key) hsame

end Recurrence.Memo
