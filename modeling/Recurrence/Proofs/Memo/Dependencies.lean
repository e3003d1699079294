import Mathlib.Data.Set.Finite.Basic
import Recurrence.Proofs.Cycle
import Recurrence.Proofs.Memo.Termination
import Recurrence.Proofs.Memo.Transparency

/-!
# Cycles of dependencies

Let each key have a list of keys that its computation asks for, in their order, and let it pass the
first error on. Then a call is a search through the graph of these dependencies, depth first, and
what it says about the key is true: there is a result if and only if no cycle can be reached, and
otherwise the error names a key on a cycle that can be reached.

The keys on the stack are a path of the graph, so a key that is refused closes a cycle. That no
cycle is overlooked is a matter of the results that are held: they are held only for keys from
which no cycle can be reached, and this cannot be spoilt by errors, by dropping and expiring of
results, or by what earlier calls have left.
-/

namespace Recurrence

variable {n : Nat} {K V W : Type}

/-! ## Computations that ask in order -/

/-- Asks for keys in order, passes the first error on, and combines the results. -/
def Recursion.inOrder : List (Fin n × K) → (List V → V) → Recursion n K V
  | [], combine => .done (.ok (combine []))
  | (m, key) :: rest, combine => .call m key fun
    | .ok v => inOrder rest fun vs => combine (v :: vs)
    | .error e => .done (.error e)

/-- The computation that makes the calls of a recursion and does nothing else. -/
def Recursion.bare : Recursion n K V → Computation n K V W
  | .done result => .done result
  | .call m key next => .call m key fun answer => (next answer).bare

theorem performs_bare (r : Recursion n K V) : Performs (W := W) r.bare r := by
  induction r with
  | done result => exact .done
  | call m key next ih => exact .call ih

/-! ## The graph -/

/-- The keys that each key asks for. -/
abbrev Dependencies (n : Nat) (K : Type) := Fin n × K → List (Fin n × K)

namespace Dependencies

variable (deps : Dependencies n K)

/-- One key asks for the other. -/
def Edge (x y : Fin n × K) : Prop := y ∈ deps x

/-- One key leads to the other, by any number of edges. -/
def Leads : Fin n × K → Fin n × K → Prop := Relation.ReflTransGen deps.Edge

/-- The key lies on a cycle. -/
def OnCycle (x : Fin n × K) : Prop := Relation.TransGen deps.Edge x x

/-- The key leads to a cycle. -/
def Cyclic (x : Fin n × K) : Prop := ∃ y, deps.Leads x y ∧ deps.OnCycle y

variable {deps}

/-- A key on a cycle asks for a key that leads to it. -/
theorem not_cyclic_of_edges {x : Fin n × K} (h : ∀ y ∈ deps x, ¬ deps.Cyclic y) :
    ¬ deps.Cyclic x :=
  not_cycleAhead_of_edges h

/-- What a result says about the key: there is no cycle ahead, or a key on one is named. -/
def Verdict (deps : Dependencies n K) (x : Fin n × K) : MemoResult K V → Prop
  | .ok _ => ¬ deps.Cyclic x
  | .error e => ∃ m key, e = .cycle key ∧ deps.Leads x (m, key) ∧ deps.OnCycle (m, key)

theorem Verdict.ok_iff {x : Fin n × K} {result : MemoResult K V} (h : deps.Verdict x result) :
    (∃ v, result = .ok v) ↔ ¬ deps.Cyclic x := by
  cases result with
  | ok v => exact ⟨fun _ => h, fun _ => ⟨v, rfl⟩⟩
  | error e =>
    obtain ⟨m, key, -, hleads, hcycle⟩ := h
    constructor
    · intro hok
      obtain ⟨v, hv⟩ := hok
      cases hv
    · intro hnone
      exact absurd ⟨_, hleads, hcycle⟩ hnone

/-- An error is passed on to the keys that ask. -/
theorem Verdict.passed_on {x y : Fin n × K} {e : MemoError K} (hedge : y ∈ deps x)
    (h : deps.Verdict y (.error e : MemoResult K V)) :
    deps.Verdict x (.error e : MemoResult K V) := by
  obtain ⟨m, key, he, hleads, hcycle⟩ := h
  exact ⟨m, key, he, hleads.head hedge, hcycle⟩

end Dependencies

namespace Memo

open Dependencies

variable {deps : Dependencies n K}

/-! ## Half of the way through -/

/-- The recursion of `x` after some answers: these were results for the first of its keys and the
others are still to come, or there was an error. -/
inductive Halfway (deps : Dependencies n K) (x : Fin n × K) : Recursion n K V → Prop
  | asking {before rest combine} : deps x = before ++ rest → (∀ y ∈ before, ¬ deps.Cyclic y) →
      Halfway deps x (.inOrder rest combine)
  | failed {e} : deps.Verdict x (.error e : MemoResult K V) → Halfway deps x (.done (.error e))

/-- At its end a recursion has a verdict. -/
theorem Halfway.verdict {x : Fin n × K} {r : Recursion n K V} (h : Halfway deps x r)
    {result : MemoResult K V} (hr : r = .done result) : deps.Verdict x result := by
  cases h with
  | @asking before rest combine hdeps hbefore =>
    cases rest with
    | nil =>
      cases hr
      rw [List.append_nil] at hdeps
      exact not_cyclic_of_edges (hdeps ▸ hbefore)
    | cons y rest => cases hr
  | failed hverdict =>
    cases hr
    exact hverdict

/-- A recursion asks for a key that its own key depends on, and goes on with the verdict. -/
theorem Halfway.call {x : Fin n × K} {r : Recursion n K V} (h : Halfway deps x r) {m : Fin n}
    {key : K} {next : MemoResult K V → Recursion n K V} (hr : r = .call m key next) :
    (m, key) ∈ deps x ∧ ∀ result, deps.Verdict (m, key) result → Halfway deps x (next result) := by
  cases h with
  | @asking before rest combine hdeps hbefore =>
    cases rest with
    | nil => cases hr
    | cons y rest =>
      cases hr
      have hedge : y ∈ deps x := by
        rw [hdeps]
        exact List.mem_append_right _ List.mem_cons_self
      refine ⟨hedge, fun result hverdict => ?_⟩
      cases result with
      | ok v =>
        have hdeps' : deps x = (before ++ [y]) ++ rest := by rw [hdeps, List.append_cons]
        refine .asking hdeps' ?_
        intro z hz
        rcases List.mem_append.mp hz with hz | hz
        · exact hbefore z hz
        · exact List.mem_singleton.mp hz ▸ hverdict
      | error e => exact .failed (hverdict.passed_on hedge)
  | failed _ => cases hr

/-- The computation makes the rest of the calls of a recursion that is half of the way through. -/
def Midway (deps : Dependencies n K) (x : Fin n × K) (c : Computation n K V W) : Prop :=
  ∃ r, Performs c r ∧ Halfway deps x r

/-- A property of computations that stays as they go on, provided that calls are answered by
verdicts. -/
structure Stays (deps : Dependencies n K) (P : Computation n K V W → Prop) : Prop where
  answered : ∀ {m key next result}, P (.call m key next) → deps.Verdict (m, key) result →
    P (next result)
  left : ∀ {c c'}, Left c' c → (∀ m key next, c ≠ .call m key next) → P c → P c'

theorem stays_midway (x : Fin n × K) :
    Stays deps (Midway (V := V) (W := W) deps x) where
  answered := by
    intro m key next result h hverdict
    obtain ⟨r, hperforms, hhalfway⟩ := h
    cases hperforms with
    | call hnext => exact ⟨_, hnext result, (hhalfway.call rfl).2 result hverdict⟩
  left := by
    intro c c' hleft hcall h
    obtain ⟨r, hperforms, hhalfway⟩ := h
    refine ⟨r, ?_, hhalfway⟩
    cases hleft with
    | call answer => exact absurd rfl (hcall _ _ _)
    | probe cached size => cases hperforms with | probe h => exact h cached size
    | runs count => cases hperforms with | runs h => exact h count
    | advance => cases hperforms with | advance h => exact h
    | clear => cases hperforms with | clear h => exact h
    | invalidate => cases hperforms with | invalidate h => exact h
    | look w => cases hperforms with | look h => exact h w
    | leave => cases hperforms with | leave h => exact h

theorem stays_true : Stays (V := V) (W := W) deps fun _ => True :=
  ⟨fun _ _ => trivial, fun _ _ _ => trivial⟩

/-- A call on its own, or its answer. -/
def Alone (deps : Dependencies n K) (x : Fin n × K) (c : Computation n K V W) : Prop :=
  c = .call x.1 x.2 .done ∨ ∃ result, c = .done result ∧ deps.Verdict x result

theorem stays_alone (x : Fin n × K) : Stays deps (Alone (V := V) (W := W) deps x) where
  answered := by
    intro m key next result h hverdict
    rcases h with h | ⟨result', h, -⟩
    · cases h
      exact .inr ⟨result, rfl, hverdict⟩
    · cases h
  left := by
    intro c c' hleft hcall h
    rcases h with rfl | ⟨result, rfl, -⟩
    · exact absurd rfl (hcall _ _ _)
    · cases hleft

/-! ## The stack is a path -/

/-- Each computation on the stack is half of the way through, and the program at the bottom has the
property `P`; all but the innermost one still have to get their answer. -/
def Asking (deps : Dependencies n K) (P : Computation n K V W → Prop) :
    Computation n K V W → List (Frame n K V W) → Prop
  | c, [] => P c
  | c, f :: stack => Midway deps (f.memo, f.key) c ∧ Asking deps P (.call f.memo f.key f.next) stack

section

variable {P : Computation n K V W → Prop} {c c' : Computation n K V W}
  {stack : List (Frame n K V W)}

/-- What the innermost computation goes on with has the properties that stay. -/
theorem Asking.goes_on (hP : Stays deps P) (h : Asking deps P c stack)
    (hgoes : ∀ Q : Computation n K V W → Prop, Stays deps Q → Q c → Q c') :
    Asking deps P c' stack := by
  cases stack with
  | nil => exact hgoes P hP h
  | cons f stack => exact ⟨hgoes _ (stays_midway _) h.1, h.2⟩

theorem Asking.answered (hP : Stays deps P) {m : Fin n} {key : K}
    {next : MemoResult K V → Computation n K V W} (h : Asking deps P (.call m key next) stack)
    {result : MemoResult K V} (hverdict : deps.Verdict (m, key) result) :
    Asking deps P (next result) stack :=
  h.goes_on hP fun _ hQ hc => hQ.answered hc hverdict

theorem Asking.left (hP : Stays deps P) (h : Asking deps P c stack) (hleft : Left c' c)
    (hcall : ∀ m key next, c ≠ .call m key next) : Asking deps P c' stack :=
  h.goes_on hP fun _ hQ hc => hQ.left hleft hcall hc

/-- The end of a computation is a verdict, with which the one below goes on. -/
theorem Asking.ended (hP : Stays deps P) {result : MemoResult K V} {f : Frame n K V W}
    (h : Asking deps P (.done result) (f :: stack)) :
    deps.Verdict (f.memo, f.key) result ∧ Asking deps P (f.next result) stack := by
  obtain ⟨⟨r, hperforms, hhalfway⟩, hbelow⟩ := h
  cases hperforms
  have hverdict := hhalfway.verdict rfl
  exact ⟨hverdict, Asking.answered hP hbelow hverdict⟩

theorem Asking.edge {m : Fin n} {key : K} {next : MemoResult K V → Computation n K V W}
    {f : Frame n K V W} (h : Asking deps P (.call m key next) (f :: stack)) :
    (m, key) ∈ deps (f.memo, f.key) := by
  obtain ⟨⟨r, hperforms, hhalfway⟩, -⟩ := h
  cases hperforms
  exact (hhalfway.call rfl).1

/-- **The stack is a path:** each key on it leads to the one that is asked for. -/
theorem Asking.path {m : Fin n} {key : K} {next : MemoResult K V → Computation n K V W}
    (h : Asking deps P (.call m key next) stack) {g : Frame n K V W} (hg : g ∈ stack) :
    Relation.TransGen deps.Edge (g.memo, g.key) (m, key) := by
  induction stack generalizing m key next with
  | nil => cases hg
  | cons f stack ih =>
    rcases List.mem_cons.mp hg with rfl | hg
    · exact .single h.edge
    · exact (ih h.2 hg).tail h.edge

/-- Under a call on its own everything that is asked for is where its key leads. -/
theorem Asking.leads {x : Fin n × K} {m : Fin n} {key : K}
    {next : MemoResult K V → Computation n K V W}
    (h : Asking deps (Alone deps x) (.call m key next) stack) : deps.Leads x (m, key) := by
  induction stack generalizing m key next with
  | nil =>
    rcases h with h | ⟨result, h, -⟩
    · cases h
      exact .refl
    · cases h
  | cons f stack ih => exact (ih h.2).tail h.edge

end

/-! ## The search -/

variable [DecidableEq K] {body : Fin n → K → Computation n K V W}
  {combine : Fin n → K → List V → V}

/-- What holds at every moment: the marks are the stack, results are held only for keys without a
cycle ahead, and the stack is a path. -/
structure Searching (deps : Dependencies n K) (P : Computation n K V W → Prop)
    (now : Moment n K V W) : Prop where
  marked : Marked now
  results : now.state.AllGood fun m key _ => ¬ deps.Cyclic (m, key)
  asking : Asking deps P now.doing now.stack

theorem searching_start (program : Computation n K V W) (policies : Vector Cache.Policy n)
    (outside : W) : Searching deps (fun _ => True) (.start program policies outside) where
  marked := marked_start program policies outside
  results := State.allGood_start policies outside
  asking := trivial

/-- A key that is refused lies on a cycle: it leads to the key that asks for it. -/
theorem Searching.refused {P : Computation n K V W → Prop} {m : Fin n} {key : K}
    {next : MemoResult K V → Computation n K V W} {stack : List (Frame n K V W)}
    {s : State n K V W} (h : Searching deps P ⟨.call m key next, stack, s⟩)
    (hmark : s.InFlight m key) :
    deps.Verdict (m, key) (.error (.cycle key) : MemoResult K V) := by
  obtain ⟨g, hg, hkey⟩ := List.mem_map.mp ((h.marked.marks m key).mp hmark)
  have hpath := h.asking.path hg
  rw [hkey] at hpath
  exact ⟨m, key, rfl, .refl, hpath⟩

/-- **Preserved by every step.** -/
theorem searching_step
    (hbody : ∀ m key, Performs (body m key) (.inOrder (deps (m, key)) (combine m key)))
    {P : Computation n K V W → Prop} (hP : Stays deps P) (a b : Moment n K V W)
    (hs : Step body a b) (h : Searching deps P a) : Searching deps P b := by
  have hmarked := marked_step a b hs h.marked
  have hresults := h.results
  have hasking := h.asking
  cases hs with
  | @hit m key _ _ s v hl =>
    have hgood := hresults m key v (State.slot?_of_lookup_hit hl)
    exact ⟨hmarked, hresults.lookup m key, hasking.answered hP hgood⟩
  | @refused m key _ _ s hl =>
    have hverdict := h.refused (State.lookup_eq_inFlight_iff.mp hl)
    exact ⟨hmarked, hresults.lookup m key, hasking.answered hP hverdict⟩
  | @started m key next _ s _ =>
    -- of the keys that the new computation asks for none has been asked for yet
    have hdeps : deps (m, key) = [] ++ deps (m, key) := (List.nil_append _).symm
    have hmidway : Midway deps (m, key) (body m key) :=
      ⟨_, hbody m key, .asking hdeps (by simp)⟩
    exact ⟨hmarked, (hresults.lookup m key).begin m key, hmidway, hasking⟩
  | succeeded =>
    obtain ⟨hverdict, hbelow⟩ := hasking.ended hP
    exact ⟨hmarked, hresults.resolve hverdict, hbelow⟩
  | @failed f _ _ _ => exact ⟨hmarked, hresults.abandon f.memo f.key, (hasking.ended hP).2⟩
  | probe => exact ⟨hmarked, hresults, hasking.left hP (.probe _ _) (by simp)⟩
  | runs => exact ⟨hmarked, hresults, hasking.left hP (.runs _) (by simp)⟩
  | advance hd => exact ⟨hmarked, hresults.advance hd, hasking.left hP .advance (by simp)⟩
  | @clear m _ _ s => exact ⟨hmarked, hresults.clear m, hasking.left hP .clear (by simp)⟩
  | @invalidate m key _ _ s =>
    exact ⟨hmarked, hresults.invalidate m key, hasking.left hP .invalidate (by simp)⟩
  | look => exact ⟨hmarked, hresults, hasking.left hP (.look _) (by simp)⟩
  | leave => exact ⟨hmarked, hresults, hasking.left hP .leave (by simp)⟩
  | wait => exact ⟨hmarked, hresults, hasking⟩

/-- After any history a call can be looked at on its own. -/
theorem Searching.alone {P : Computation n K V W → Prop} {rest : Computation n K V W}
    {s : State n K V W} (h : Searching deps P ⟨rest, [], s⟩) (x : Fin n × K) :
    Searching deps (Alone deps x) ⟨.call x.1 x.2 .done, [], s⟩ :=
  ⟨h.marked.of_same fun _ _ => Iff.rfl, h.results, .inl rfl⟩

/-- None of these computations gives up on its own account. -/
theorem Searching.not_unwind {x : Fin n × K} {cause : Overflow}
    {stack : List (Frame n K V W)} {s : State n K V W}
    (h : Searching deps (Alone deps x) ⟨.unwind cause, stack, s⟩) : False := by
  cases stack with
  | nil =>
    rcases h.asking with h | ⟨result, h, -⟩
    · cases h
    · cases h
  | cons f stack =>
    obtain ⟨r, hperforms, -⟩ := h.asking.1
    cases hperforms

/-! ## Computations that only call -/

/-- All computations make their calls and do nothing else. -/
structure AllBare (now : Moment n K V W) : Prop where
  doing : ∃ r : Recursion n K V, now.doing = r.bare
  stack : ∀ f ∈ now.stack, ∀ answer, ∃ r : Recursion n K V, f.next answer = r.bare

theorem allBare_step (hbare : ∀ m key, ∃ r : Recursion n K V, body m key = r.bare)
    (a b : Moment n K V W) (hs : Step body a b) (h : AllBare a) : AllBare b := by
  obtain ⟨⟨r, hdoing⟩, hstack⟩ := h
  have hnext {m : Fin n} {key : K} {next : MemoResult K V → Computation n K V W}
      (hr : .call m key next = (r.bare : Computation n K V W)) (answer : MemoResult K V) :
      ∃ r' : Recursion n K V, next answer = r'.bare := by
    cases r with
    | done result => cases hr
    | call m key next' =>
      cases hr
      exact ⟨next' answer, rfl⟩
  cases hs with
  | hit | refused => exact ⟨hnext hdoing _, hstack⟩
  | started => exact ⟨hbare _ _, List.forall_mem_cons.mpr ⟨hnext hdoing, hstack⟩⟩
  | succeeded | failed =>
    obtain ⟨htop, hrest⟩ := List.forall_mem_cons.mp hstack
    exact ⟨htop _, hrest⟩
  | wait => exact ⟨⟨r, hdoing⟩, hstack⟩
  | probe | runs | advance | clear | invalidate | look | leave => cases r <;> cases hdoing

/-- Then the clock is in nobody's way. -/
theorem not_outOfTime_of_bare (hbare : ∀ m key, ∃ r : Recursion n K V, body m key = r.bare)
    {m : Fin n} {key : K} {s s' : State n K V W} :
    ¬ OutOfTime body ⟨.call m key .done, [], s⟩ s' := by
  intro h
  obtain ⟨d, next, stack, hreach, -⟩ := h
  have hstart : AllBare (⟨.call m key .done, [], s⟩ : Moment n K V W) :=
    ⟨⟨.call m key .done, rfl⟩, by simp⟩
  obtain ⟨⟨r, hr⟩, -⟩ := hreach.keeps (allBare_step hbare) hstart
  cases r <;> cases hr

/-! ## The verdict -/

/--
**A call says whether there is a cycle ahead.** The computation of each key asks for the keys that
it depends on, passes the first error on and otherwise combines the results; between its calls it
may do what it likes. Then after any history, under any policies, and for any key that leads to
finitely many keys, the call comes back, unless the manual clock is moved too far meanwhile, which
computations that only call do not do. There is a result if and only if the key does not lead to a
cycle, and otherwise the error names a key on a cycle that it leads to. Time may pass at any moment
of the run without a difference.
-/
theorem call_verdict
    (hbody : ∀ m key, Performs (body m key) (.inOrder (deps (m, key)) (combine m key)))
    {program : Computation n K V W} {policies : Vector Cache.Policy n} {outside : W}
    {rest : Computation n K V W} {s : State n K V W}
    (h : Reaches body (.start program policies outside) ⟨rest, [], s⟩) (m : Fin n) (key : K)
    (hfinite : {x | deps.Leads (m, key) x}.Finite) :
    ((∃ result s', ComesTo body m key s (.returned result s'))
      ∨ ∃ s', ComesTo body m key s (.unwound .instant s')
          ∧ OutOfTime body ⟨.call m key .done, [], s⟩ s')
    ∧ ((∀ m key, body m key = (Recursion.inOrder (deps (m, key)) (combine m key)).bare) →
        ∃ result s', ComesTo body m key s (.returned result s'))
    ∧ Ends body ⟨.call m key .done, [], s⟩
    ∧ ∀ result s',
        ComesTo body m key s (.returned result s')
          ∨ Reaches body ⟨.call m key .done, [], s⟩ ⟨.done result, [], s'⟩ →
        ((∃ v, result = .ok v) ↔ ¬ ∃ y, deps.Leads (m, key) y ∧ deps.OnCycle y)
        ∧ ∀ e, result = .error e → ∃ m' k, e = .cycle k
            ∧ deps.Leads (m, key) (m', k) ∧ deps.OnCycle (m', k)
            ∧ ∀ shown, e.message shown = "Cycle detected. key: " ++ shown k := by
  have hhistory := h.keeps (searching_step hbody stays_true)
    (searching_start program policies outside)
  have hsearch {now : Moment n K V W}
      (hnow : Reaches body ⟨.call m key .done, [], s⟩ now) :
      Searching deps (Alone deps (m, key)) now :=
    hnow.keeps (searching_step hbody (stays_alone (m, key))) (hhistory.alone (m, key))
  -- what is called is where the key leads, and those are finitely many keys
  have hdeep {now : Moment n K V W} (hnow : Reaches body ⟨.call m key .done, [], s⟩ now) :
      now.stack.length ≤ hfinite.toFinset.card := by
    refine stack_le_card ?_ hnow
    intro now hnow m' k next hdoing
    obtain ⟨doing, stack, s'⟩ := now
    cases hdoing
    exact hfinite.mem_toFinset.mpr (hsearch hnow).asking.leads
  have hcomes : (∃ result s', ComesTo body m key s (.returned result s'))
      ∨ ∃ s', ComesTo body m key s (.unwound .instant s')
          ∧ OutOfTime body ⟨.call m key .done, [], s⟩ s' := by
    have hdeep' : ∀ later, Reaches body ⟨.call m key .done, [], s⟩ later →
        later.stack.length ≤ hfinite.toFinset.card := fun _ => hdeep
    rcases call_of_stack_le hdeep' with
      ⟨result, s', hcall, -⟩ | ⟨cause, ⟨doing, stack, s'⟩, hcall, hreach, hunwinds⟩
    · exact .inl ⟨result, s', _, hcall⟩
    · rcases hunwinds with rfl | ⟨rfl, d, next, rfl, hd⟩
      · exact ((hsearch hreach).not_unwind).elim
      · exact .inr ⟨s', ⟨_, hcall⟩, d, next, stack, hreach, hd⟩
  refine ⟨hcomes, ?bare, ends_of_stack_le fun _ => hdeep, ?verdict⟩
  case bare =>
    intro hbare
    rcases hcomes with hreturned | ⟨s', -, hlate⟩
    · exact hreturned
    · exact absurd hlate (not_outOfTime_of_bare fun m key => ⟨_, hbare m key⟩)
  case verdict =>
    intro result s' hresult
    have hreach : Reaches body ⟨.call m key .done, [], s⟩ ⟨.done result, [], s'⟩ := by
      rcases hresult with ⟨enough, hcall⟩ | hreach
      · have hleads := call_leadsTo body enough m key .done [] s
        rw [hcall enough le_rfl] at hleads
        exact hleads
      · exact hreach
    have hverdict : deps.Verdict (m, key) result := by
      rcases (hsearch hreach).asking with hcalling | ⟨result', hdone, hverdict⟩
      · cases hcalling
      · cases hdone
        exact hverdict
    refine ⟨hverdict.ok_iff, ?_⟩
    rintro e rfl
    obtain ⟨m', k, rfl, hleads, hcycle⟩ := hverdict
    exact ⟨m', k, rfl, hleads, hcycle, fun _ => rfl⟩

/-- Two keys that ask for each other, a key that runs into them after it has had a result, and two
keys without a cycle ahead. -/
def entangled : Dependencies 1 (Fin 5)
  | (m, 0) => [(m, 3), (m, 1)]
  | (m, 1) => [(m, 2)]
  | (m, 2) => [(m, 1)]
  | (_, 3) => []
  | (m, 4) => [(m, 3), (m, 3)]

/-- One more than the results that a key has asked for. -/
def oneMore (m : Fin 1) (key : Fin 5) : Computation 1 (Fin 5) Nat Unit :=
  (Recursion.inOrder (entangled (m, key)) fun vs => vs.sum + 1).bare

/-- After a call has run into the cycle, another key on it is found to lie on one, and a key beside
it has its result. -/
theorem call_verdict_entangled : ∃ s : State 1 (Fin 5) Nat Unit,
    Reaches oneMore (.start (.call 0 0 .done) #v[.lru 1] ()) ⟨.done (.error (.cycle 1)), [], s⟩
    ∧ (∃ k s', ComesTo oneMore 0 2 s (.returned (.error (.cycle k)) s')
        ∧ entangled.OnCycle (0, k))
    ∧ ∃ v s', ComesTo oneMore 0 4 s (.returned (.ok v) s') := by
  have h : Reaches oneMore (.start (.call 0 0 .done) #v[.lru 1] ())
      ⟨.done (.error (.cycle 1)), [], _⟩ :=
    ((((((((Relation.ReflTransGen.single (.started (by decide +kernel))).tail
      (.started (by decide +kernel))).tail .succeeded).tail
      (.started (by decide +kernel))).tail (.started (by decide +kernel))).tail
      (.refused (by decide +kernel))).tail .failed).tail .failed).tail .failed
  have hbody : ∀ m key, Performs (oneMore m key)
      (.inOrder (entangled (m, key)) fun vs => vs.sum + 1) := fun m key => performs_bare _
  have hcyclic : ∃ y, entangled.Leads (0, 2) y ∧ entangled.OnCycle y := by
    have hone : entangled.Edge (0, 2) (0, 1) := List.mem_singleton.mpr rfl
    have htwo : entangled.Edge (0, 1) (0, 2) := List.mem_singleton.mpr rfl
    exact ⟨_, .refl, .tail (.single hone) htwo⟩
  have hacyclic : ¬ ∃ y, entangled.Leads (0, 4) y ∧ entangled.OnCycle y := by
    have hthree : ¬ entangled.Cyclic (0, 3) := not_cyclic_of_edges (by simp [entangled])
    refine not_cyclic_of_edges fun y hy => ?_
    have hy' : y = (0, 3) := by simpa [entangled] using hy
    exact hy' ▸ hthree
  refine ⟨_, h, ?_, ?_⟩
  · obtain ⟨-, hreturns, -, hverdict⟩ := call_verdict hbody h 0 2 (Set.toFinite _)
    obtain ⟨result, s', hcomes⟩ := hreturns fun _ _ => rfl
    obtain ⟨hok, herror⟩ := hverdict result s' (.inl hcomes)
    cases result with
    | ok v => exact absurd hcyclic (hok.mp ⟨v, rfl⟩)
    | error e =>
      obtain ⟨m', k, rfl, -, hcycle, -⟩ := herror e rfl
      cases Subsingleton.elim m' 0
      exact ⟨k, s', hcomes, hcycle⟩
  · obtain ⟨-, hreturns, -, hverdict⟩ := call_verdict hbody h 0 4 (Set.toFinite _)
    obtain ⟨result, s', hcomes⟩ := hreturns fun _ _ => rfl
    obtain ⟨v, rfl⟩ := (hverdict result s' (.inl hcomes)).1.mpr hacyclic
    exact ⟨v, s', hcomes⟩

end Memo

end Recurrence
