import Mathlib.Logic.Relation
import Recurrence.Memo.Computation

/-!
# Computing without a memory

What a recursion comes to when nothing is remembered: each call is answered by computing its key
anew. `Recursion` writes a recursion down with its calls alone, and it has a result for every key if
the calls that are really made go to smaller keys.

A computation may do more than call: it may look at the outside, at a cache and at counters, move
the clock and drop results. `Evaluates` says that it comes to one result whatever it sees there, so
that it is a function of its key; that a key evaluates at all says that its recursion ends.
-/

namespace Recurrence

variable {n : Nat} {K V W : Type}

/-! ## Recursions -/

/-- A recursion as it is written down; the next call may depend on the answers so far. -/
inductive Recursion (n : Nat) (K V : Type) where
  | done (result : MemoResult K V)
  | call (m : Fin n) (key : K) (next : MemoResult K V → Recursion n K V)

namespace Recursion

/-- The recursion comes to a result when each call is answered by the result of its key. -/
inductive Yields (plan : Fin n → K → Recursion n K V) :
    Recursion n K V → MemoResult K V → Prop
  | done {result} : Yields plan (.done result) result
  | call {m key next answer result} : Yields plan (plan m key) answer →
      Yields plan (next answer) result → Yields plan (.call m key next) result

/-- The recursion really calls a key: the calls before it have had their answers. -/
inductive Calls (plan : Fin n → K → Recursion n K V) : Recursion n K V → Fin n × K → Prop
  | here {m key next} : Calls plan (.call m key next) (m, key)
  | later {m key next answer x} : Yields plan (plan m key) answer →
      Calls plan (next answer) x → Calls plan (.call m key next) x

variable {plan : Fin n → K → Recursion n K V}

theorem Yields.unique {c : Recursion n K V} {r r' : MemoResult K V} (h : Yields plan c r)
    (h' : Yields plan c r') : r = r' := by
  induction h generalizing r' with
  | done => cases h'; rfl
  | call _ _ ihkey ihnext =>
    cases h' with
    | call hkey hnext =>
      cases ihkey hkey
      exact ihnext hnext

/-- A recursion whose calls have results has one itself. -/
theorem exists_yields (c : Recursion n K V)
    (hcalls : ∀ x, Calls plan c x → ∃ r, Yields plan (plan x.1 x.2) r) : ∃ r, Yields plan c r := by
  induction c with
  | done result => exact ⟨result, .done⟩
  | call m key next ih =>
    obtain ⟨answer, hanswer⟩ := hcalls (m, key) .here
    obtain ⟨r, hr⟩ := ih answer fun x hx => hcalls x (.later hanswer hx)
    exact ⟨r, .call hanswer hr⟩

/-- **Every key has a result** if each call goes to a smaller key. -/
theorem exists_yields_of_smaller {lt : Fin n × K → Fin n × K → Prop} (wf : WellFounded lt)
    (hsmaller : ∀ x y : Fin n × K, Calls plan (plan y.1 y.2) x → lt x y) (m : Fin n) (key : K) :
    ∃ r, Yields plan (plan m key) r := by
  suffices h : ∀ x : Fin n × K, ∃ r, Yields plan (plan x.1 x.2) r from h (m, key)
  intro x
  induction x using wf.induction with
  | _ x ih => exact exists_yields _ fun y hy => ih y (hsmaller y x hy)

end Recursion

/-- The computation makes the calls of a recursion and ends with its result, and does what it likes
in between. -/
inductive Performs : Computation n K V W → Recursion n K V → Prop
  | done {result} : Performs (.done result) (.done result)
  | call {m key next next'} : (∀ answer, Performs (next answer) (next' answer)) →
      Performs (.call m key next) (.call m key next')
  | probe {m key next r} : (∀ cached size, Performs (next cached size) r) →
      Performs (.probe m key next) r
  | runs {m next r} : (∀ count, Performs (next count) r) → Performs (.runs m next) r
  | advance {d next r} : Performs next r → Performs (.advance d next) r
  | clear {m next r} : Performs next r → Performs (.clear m next) r
  | invalidate {m key next r} : Performs next r → Performs (.invalidate m key next) r
  | look {next r} : (∀ w, Performs (next w) r) → Performs (.look next) r
  | leave {w next r} : Performs next r → Performs (.leave w next) r

/-! ## Evaluation -/

/-- The computation comes to a result when calls are computed anew, whatever else it sees. -/
inductive Evaluates (body : Fin n → K → Computation n K V W) :
    Computation n K V W → MemoResult K V → Prop
  | done {result} : Evaluates body (.done result) result
  | call {m key next answer result} : Evaluates body (body m key) answer →
      Evaluates body (next answer) result → Evaluates body (.call m key next) result
  | probe {m key next result} : (∀ cached size, Evaluates body (next cached size) result) →
      Evaluates body (.probe m key next) result
  | runs {m next result} : (∀ count, Evaluates body (next count) result) →
      Evaluates body (.runs m next) result
  | advance {d next result} : Evaluates body next result →
      Evaluates body (.advance d next) result
  | clear {m next result} : Evaluates body next result → Evaluates body (.clear m next) result
  | invalidate {m key next result} : Evaluates body next result →
      Evaluates body (.invalidate m key next) result
  | look {next result} : (∀ w, Evaluates body (next w) result) →
      Evaluates body (.look next) result
  | leave {w next result} : Evaluates body next result → Evaluates body (.leave w next) result

variable {body : Fin n → K → Computation n K V W}

/-- Evaluation has one result, provided that there is an outside to be seen. -/
theorem Evaluates.unique [Nonempty W] {c : Computation n K V W} {r r' : MemoResult K V}
    (h : Evaluates body c r) (h' : Evaluates body c r') : r = r' := by
  induction h generalizing r' with
  | done => cases h'; rfl
  | call _ _ ihkey ihnext =>
    cases h' with
    | call hkey hnext =>
      cases ihkey hkey
      exact ihnext hnext
  | probe _ ih => cases h' with | probe h => exact ih true 0 (h true 0)
  | runs _ ih => cases h' with | runs h => exact ih 0 (h 0)
  | advance _ ih => cases h' with | advance h => exact ih h
  | clear _ ih => cases h' with | clear h => exact ih h
  | invalidate _ ih => cases h' with | invalidate h => exact ih h
  | look _ ih =>
    obtain ⟨w⟩ := ‹Nonempty W›
    cases h' with | look h => exact ih w (h w)
  | leave _ ih => cases h' with | leave h => exact ih h

/-- What a computation does between its calls makes no difference to its evaluation. -/
theorem Performs.evaluates_of {c : Computation n K V W} {r : Recursion n K V}
    {result : MemoResult K V} (hc : Performs c r)
    (hdone : ∀ last, r = .done last → Evaluates body (.done last) result)
    (hcall : ∀ m key next next', r = .call m key next' →
      (∀ answer, Performs (next answer) (next' answer)) →
      Evaluates body (.call m key next) result) :
    Evaluates body c result := by
  induction hc with
  | done => exact hdone _ rfl
  | call hnext => exact hcall _ _ _ _ rfl hnext
  | probe _ ih => exact .probe fun cached size => ih cached size hdone hcall
  | runs _ ih => exact .runs fun count => ih count hdone hcall
  | advance _ ih => exact .advance (ih hdone hcall)
  | clear _ ih => exact .clear (ih hdone hcall)
  | invalidate _ ih => exact .invalidate (ih hdone hcall)
  | look _ ih => exact .look fun w => ih w hdone hcall
  | leave _ ih => exact .leave (ih hdone hcall)

/-- **Computations evaluate to what the recursions they perform come to.** -/
theorem Performs.evaluates {plan : Fin n → K → Recursion n K V}
    (hbody : ∀ m key, Performs (body m key) (plan m key)) {r : Recursion n K V}
    {result : MemoResult K V} (hr : r.Yields plan result) {c : Computation n K V W}
    (hc : Performs c r) : Evaluates body c result := by
  induction hr generalizing c with
  | done =>
    refine hc.evaluates_of ?_ ?_
    · rintro last ⟨⟩
      exact .done
    · rintro m key next next' ⟨⟩
  | @call m key next' answer result _ _ ihkey ihnext =>
    refine hc.evaluates_of ?_ ?_
    · rintro last ⟨⟩
    · rintro m key next next' ⟨⟩ hnext
      exact .call (ihkey (hbody m key)) (ihnext (hnext answer))

/-! ## Which keys are asked for -/

/-- The computation may ask for a key on its way to its result. -/
inductive Reads (body : Fin n → K → Computation n K V W) :
    Computation n K V W → Fin n × K → Prop
  | here {m key next} : Reads body (.call m key next) (m, key)
  | later {m key next answer x} : Evaluates body (body m key) answer →
      Reads body (next answer) x → Reads body (.call m key next) x
  | probe {m key next cached size x} : Reads body (next cached size) x →
      Reads body (.probe m key next) x
  | runs {m next count x} : Reads body (next count) x → Reads body (.runs m next) x
  | advance {d next x} : Reads body next x → Reads body (.advance d next) x
  | clear {m next x} : Reads body next x → Reads body (.clear m next) x
  | invalidate {m key next x} : Reads body next x → Reads body (.invalidate m key next) x
  | look {next w x} : Reads body (next w) x → Reads body (.look next) x
  | leave {w next x} : Reads body next x → Reads body (.leave w next) x

/-- The computation of the second key may ask for the first. -/
def Asks (body : Fin n → K → Computation n K V W) (x y : Fin n × K) : Prop :=
  Reads body (body y.1 y.2) x

/-- No chain of questions goes on for ever below a computation that evaluates. -/
theorem Evaluates.acc_of_reads [Nonempty W] {c : Computation n K V W} {r : MemoResult K V}
    (h : Evaluates body c r) {x : Fin n × K} (hx : Reads body c x) : Acc (Asks body) x := by
  induction h generalizing x with
  | done => cases hx
  | call hkey _ ihkey ihnext =>
    cases hx with
    | here => exact ⟨_, fun y hy => ihkey hy⟩
    | later hkey' hx =>
      -- there is only one answer to go on with
      cases hkey.unique hkey'
      exact ihnext hx
  | probe _ ih => cases hx with | probe hx => exact ih _ _ hx
  | runs _ ih => cases hx with | runs hx => exact ih _ hx
  | advance _ ih => cases hx with | advance hx => exact ih hx
  | clear _ ih => cases hx with | clear hx => exact ih hx
  | invalidate _ ih => cases hx with | invalidate hx => exact ih hx
  | look _ ih => cases hx with | look hx => exact ih _ hx
  | leave _ ih => cases hx with | leave hx => exact ih hx

/-- The first computation is that of a key that the second may ask for. -/
def Needs (body : Fin n → K → Computation n K V W) (c c' : Computation n K V W) : Prop :=
  ∃ x, Reads body c' x ∧ c = body x.1 x.2

theorem acc_needs_of_acc_asks {x : Fin n × K} (h : Acc (Asks body) x) :
    Acc (Needs body) (body x.1 x.2) := by
  induction h with
  | intro x _ ih =>
    refine ⟨_, ?_⟩
    rintro _ ⟨y, hy, rfl⟩
    exact ih y hy

/-- No chain of computations that need each other goes on for ever below one that evaluates. -/
theorem Evaluates.acc_needs [Nonempty W] {c : Computation n K V W} {r : MemoResult K V}
    (h : Evaluates body c r) : Acc (Needs body) c := by
  refine ⟨_, ?_⟩
  rintro _ ⟨x, hx, rfl⟩
  exact acc_needs_of_acc_asks (h.acc_of_reads hx)

theorem not_rel_self_of_acc {α : Type} {r : α → α → Prop} {x : α} (h : Acc r x) : ¬ r x x := by
  induction h with
  | intro x _ ih => exact fun hself => ih x hself hself

/-- A key that evaluates does not ask for itself, not even through others. -/
theorem Evaluates.not_asks_itself [Nonempty W] {m : Fin n} {key : K} {r : MemoResult K V}
    (h : Evaluates body (body m key) r) :
    ¬ Relation.TransGen (Asks body) (m, key) (m, key) := by
  have hacc : Acc (Asks body) (m, key) := ⟨_, fun _ hx => h.acc_of_reads hx⟩
  exact not_rel_self_of_acc hacc.transGen

end Recurrence
