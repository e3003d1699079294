import Recurrence.Proofs.Cycle
import Recurrence.Proofs.Reactive.Effect
import Recurrence.Proofs.Reactive.Freshness
import Recurrence.Reactive.Formula

/-!
# Circular dependencies

A node depends on the nodes among its inputs and on those that its recipe reads. If these are always
the same ones, and errors are passed on, then a read is a search through the graph of dependencies,
and what it reports is true: there is a value if and only if no cycle can be reached, and otherwise
the error names a node on a cycle that can be reached.

The reads in progress are a path of the graph, so a node that is refused closes a cycle. That no
cycle is overlooked is not obvious, because a node whose inputs have not changed does not read the
other nodes again. But what a node remembers is a success, for which it did read all of them. So
values are remembered only for nodes without a cycle ahead, and this cannot be spoilt by cells that
are set and reads that fail.
-/

namespace Recurrence.Reactive

variable {n c : Nat} {V W : Type}

/-! ## The graph -/

/-- The recipe reads these nodes in their order. The first error is passed on, and without one there
is a value in the end. In between it may look around and keep its own accounts. -/
inductive Recipe.Asks : Recipe n c V W → List (Fin n) → Prop
  | done {v} : Asks (.done (.ok v)) []
  | read {node next rest} : (∀ v, Asks (next (.ok v)) rest) →
      (∀ e, (next (.error e)).Yields (.error e)) → Asks (.read node next) (node :: rest)
  | get {cell next nodes} : (∀ v, Asks (next v) nodes) → Asks (.get cell next) nodes
  | runs {node next nodes} : (∀ count, Asks (next count) nodes) → Asks (.runs node next) nodes
  | look {next nodes} : (∀ w, Asks (next w) nodes) → Asks (.look next) nodes
  | leave {w next nodes} : Asks next nodes → Asks (.leave w next) nodes

/-- The first node depends on the second one: it is an input, or it is read on the side. -/
def System.Needs (system : System n c V W) (asked : Fin n → List (Fin n)) (x y : Fin n) : Prop :=
  system.Feeds y x ∨ y ∈ asked x

/-! ## What a read reports -/

/-- Values are remembered only for nodes without a cycle ahead. -/
def Cleared (needs : Fin n → Fin n → Prop) (s : State n c V W) : Prop :=
  ∀ x stored, s.remembered x = some stored → ¬ ∃ y, CycleAhead needs x y

/-- The error names a node on a cycle ahead. -/
def Blames (needs : Fin n → Fin n → Prop) (x : Fin n) (e : Error n) : Prop :=
  ∃ y, e = .circular y ∧ CycleAhead needs x y

/-- What an outcome says about a node: it is clear, in the sense that is meant, or a node on a cycle
ahead is named. It is not an unwinding. -/
def Outcome.Reports {A : Type} (needs : Fin n → Fin n → Prop) (x : Fin n) (clear : Prop) :
    Outcome n A (State n c V W) → Prop
  | .returned (.ok _) s => clear ∧ Cleared needs s
  | .returned (.error e) s => Blames needs x e ∧ Cleared needs s
  | .unwound _ => False
  | .exhausted => True

variable {needs : Fin n → Fin n → Prop}

theorem cleared_start (cells : Vector V c) (outside : W) :
    Cleared needs (.start cells outside : State n c V W) := by
  intro x stored hstored
  have hnone : (State.start cells outside : State n c V W).remembered x = none :=
    Vector.getElem_replicate ..
  exact absurd (hnone.symm.trans hstored) (by simp)

theorem Cleared.store {s : State n c V W} (h : Cleared needs s) {node : Fin n}
    (hnode : ¬ ∃ y, CycleAhead needs node y) (inputs : List V) (v : V) :
    Cleared needs (s.store node inputs v) := by
  intro x stored hstored
  rw [State.remembered_store] at hstored
  by_cases hx : x = node
  · exact hx ▸ hnode
  · rw [if_neg hx] at hstored
    exact h x stored hstored

theorem Blames.head {x y : Fin n} {e : Error n} (hedge : needs x y) (h : Blames needs y e) :
    Blames needs x e := by
  obtain ⟨z, he, hz⟩ := h
  exact ⟨z, he, hz.head hedge⟩

theorem Outcome.Reports.imp {A : Type} {x : Fin n} {clear clear' : Prop}
    {outcome : Outcome n A (State n c V W)} (h : outcome.Reports needs x clear)
    (hclear : clear → clear') : outcome.Reports needs x clear' := by
  cases outcome with
  | returned result s =>
    cases result with
    | ok a => exact ⟨hclear h.1, h.2⟩
    | error e => exact h
  | unwound s => exact h
  | exhausted => trivial

/-- A report is followed up where there is no error. -/
theorem Outcome.Reports.andThen {A B : Type} {x : Fin n} {clear clear' : Prop}
    {outcome : Outcome n A (State n c V W)}
    {next : A → State n c V W → Outcome n B (State n c V W)}
    (h : outcome.Reports needs x clear)
    (hnext : ∀ a s, outcome = .returned (.ok a) s → clear → Cleared needs s →
      (next a s).Reports needs x clear') :
    (outcome.andThen next).Reports needs x clear' := by
  cases outcome with
  | returned result s =>
    cases result with
    | ok a => exact hnext a s rfl h.1 h.2
    | error e => exact h
  | unwound s => exact h
  | exhausted => trivial

/-! ## Inputs and recipes -/

/-- While these reads are in progress, a read of a node that `x` needs reports about that node. -/
def ReportsFrom (needs : Fin n → Fin n → Prop) (x : Fin n) (inFlight : List (Fin n))
    (read : Reader n c V W) : Prop :=
  ∀ y s, needs x y → s.inFlight = inFlight → Cleared needs s →
    (read y s).Reports needs y (¬ ∃ z, CycleAhead needs y z)

variable {read : Reader n c V W} {x : Fin n} {inFlight : List (Fin n)}

/-- The report about a node that is needed is a report about the node that needs it. -/
theorem ReportsFrom.passedOn (h : ReportsFrom needs x inFlight read) {y : Fin n}
    {s : State n c V W} (hedge : needs x y) (hs : s.inFlight = inFlight)
    (hcleared : Cleared needs s) : (read y s).Reports needs x (¬ ∃ z, CycleAhead needs y z) := by
  have hread := h y s hedge hs hcleared
  cases hr : read y s with
  | returned result s' =>
    rw [hr] at hread
    cases result with
    | ok v => exact hread
    | error e => exact ⟨hread.1.head hedge, hread.2⟩
  | unwound s' => rwa [hr] at hread
  | exhausted => trivial

theorem snapshot_reports (hsparing : Sparing read) (hread : ReportsFrom needs x inFlight read)
    {sources : List (Source n c)} (hneeds : ∀ y, .node y ∈ sources → needs x y)
    {s : State n c V W} (hs : s.inFlight = inFlight) (hcleared : Cleared needs s) :
    (snapshot read sources s).Reports needs x
      (∀ y, .node y ∈ sources → ¬ ∃ z, CycleAhead needs y z) := by
  induction sources generalizing s with
  | nil => exact ⟨by simp, hcleared⟩
  | cons source rest ih =>
    have hfirst : (readSource read source s).Reports needs x
        (∀ y, .node y = source → ¬ ∃ z, CycleAhead needs y z) := by
      cases source with
      | cell i => exact ⟨by simp, hcleared⟩
      | node i =>
        refine (hread.passedOn (hneeds i List.mem_cons_self) hs hcleared).imp fun hclear y hy => ?_
        cases hy
        exact hclear
    rw [snapshot_cons]
    refine hfirst.andThen fun v s₁ hv hclear hcleared₁ => ?_
    have hsame := (readSource_spares hsparing (congrArg Outcome.state? hv)).inFlight
    have hrest := ih (fun y hy => hneeds y (List.mem_cons_of_mem _ hy)) (hsame.trans hs) hcleared₁
    refine hrest.andThen fun vs s₂ _ hclears hcleared₂ => ⟨fun y hy => ?_, hcleared₂⟩
    rcases List.mem_cons.mp hy with hy | hy
    · exact hclear y hy
    · exact hclears y hy

theorem run_reports (hsparing : Sparing read) (hread : ReportsFrom needs x inFlight read)
    {recipe : Recipe n c V W} {nodes : List (Fin n)} (h : recipe.Asks nodes)
    (hneeds : ∀ y ∈ nodes, needs x y) {s : State n c V W} (hs : s.inFlight = inFlight)
    (hcleared : Cleared needs s) :
    (run read recipe s).Reports needs x (∀ y ∈ nodes, ¬ ∃ z, CycleAhead needs y z) := by
  induction h generalizing s with
  | done => exact ⟨by simp, hcleared⟩
  | @read node next rest _ hfails ih =>
    have hfirst := hread.passedOn (hneeds node List.mem_cons_self) hs hcleared
    rw [run]
    cases hr : read node s with
    | returned result s₁ =>
      rw [hr] at hfirst
      have hsame := (hsparing node s s₁ (congrArg Outcome.state? hr)).inFlight
      cases result with
      | ok v =>
        have hrest := ih v (fun y hy => hneeds y (List.mem_cons_of_mem _ hy)) (hsame.trans hs)
          hfirst.2
        exact hrest.imp fun hclears => List.forall_mem_cons.mpr ⟨hfirst.1, hclears⟩
      | error e =>
        -- the error is the result, whatever the recipe still looks at
        obtain ⟨outside, hrun⟩ := (hfails e).run read s₁
        dsimp only
        rw [hrun]
        exact hfirst
    | unwound s₁ => rwa [hr] at hfirst
    | exhausted => trivial
  | get _ ih => exact ih _ hneeds hs hcleared
  | runs _ ih => exact ih _ hneeds hs hcleared
  | look _ ih => exact ih _ hneeds hs hcleared
  | leave _ ih => exact ih hneeds hs hcleared

/-! ## Reads -/

variable {system : System n c V W} {asked : Fin n → List (Fin n)}

/-- A node is clear if its inputs and the nodes that it reads are. -/
theorem not_cycleAhead_of_needs {node : Fin n}
    (hinputs : ∀ y, .node y ∈ system.inputs node → ¬ ∃ z, CycleAhead (system.Needs asked) y z)
    (hasked : ∀ y ∈ asked node, ¬ ∃ z, CycleAhead (system.Needs asked) y z) :
    ¬ ∃ z, CycleAhead (system.Needs asked) node z := by
  refine not_cycleAhead_of_edges fun y hy => ?_
  rcases hy with hinput | hside
  · exact hinputs y hinput
  · exact hasked y hside

variable [BEq V]

/-- **What a read reports is true**, if each read in progress leads to its node. -/
theorem readWithin_reports
    (hrecipe : ∀ node inputs, (system.recipe node inputs).Asks (asked node)) (fuel : Nat)
    (node : Fin n) {s : State n c V W} (hcleared : Cleared (system.Needs asked) s)
    (hpath : ∀ k ∈ s.inFlight, Relation.TransGen (system.Needs asked) k node) :
    (readWithin system fuel node s).Reports (system.Needs asked) node
      (¬ ∃ z, CycleAhead (system.Needs asked) node z) := by
  induction fuel generalizing node s with
  | zero => trivial
  | succ fuel ih =>
    by_cases hin : node ∈ s.inFlight
    · rw [readWithin_of_inFlight system hin]
      exact ⟨⟨node, rfl, .refl, hpath node hin⟩, hcleared⟩
    have hsparing := readWithin_sparing system fuel
    -- the path goes on to whatever the node needs
    have hread : ReportsFrom (system.Needs asked) node (node :: s.inFlight)
        (readWithin system fuel) := by
      intro y s' hedge hs' hcleared'
      refine ih y hcleared' fun k hk => ?_
      rw [hs'] at hk
      rcases List.mem_cons.mp hk with rfl | hk
      · exact .single hedge
      · exact (hpath k hk).tail hedge
    have htaken := snapshot_reports (s := s.enter node) hsparing hread
      (fun y hy => .inl hy) rfl hcleared
    have hrun {inputs s₁} (htakes : snapshot (readWithin system fuel) (system.inputs node)
        (s.enter node) = .returned (.ok inputs) s₁) :
        (run (readWithin system fuel) (system.recipe node inputs)
          (s₁.startRun node inputs.length)).Reports (system.Needs asked) node
          (∀ y ∈ asked node, ¬ ∃ z, CycleAhead (system.Needs asked) y z) := by
      rw [htakes] at htaken
      have hsame := (snapshot_spares hsparing (congrArg Outcome.state? htakes)).inFlight
      exact run_reports hsparing hread (hrecipe node inputs) (fun y hy => .inr hy) hsame htaken.2
    have hcourse := readWithin_course system hin fuel
    generalize readWithin system (fuel + 1) node s = outcome at hcourse ⊢
    cases hcourse with
    | inputFailed htakes =>
      rw [htakes] at htaken
      exact htaken
    | inputUnwound htakes =>
      rw [htakes] at htaken
      exact htaken
    | unchanged htakes hstored =>
      rw [htakes] at htaken
      obtain ⟨stored, hin, -, -⟩ := State.upToDate?_eq_some hstored
      exact ⟨htaken.2 node stored hin, htaken.2⟩
    | @succeeded inputs _ v _ htakes _ hruns =>
      have hran := hrun htakes
      rw [hruns] at hran
      rw [htakes] at htaken
      have hnode := not_cycleAhead_of_needs htaken.1 hran.1
      exact ⟨hnode, hran.2.store hnode inputs v⟩
    | failed htakes _ hruns =>
      have hran := hrun htakes
      rw [hruns] at hran
      exact hran
    | unwound htakes _ hruns =>
      have hran := hrun htakes
      rw [hruns] at hran
      exact hran
    | inputsExhausted _ | recipeExhausted _ _ => trivial

/-! ## After any history -/

/-- A read from outside comes back with a report. -/
theorem read_reports (hrecipe : ∀ node inputs, (system.recipe node inputs).Asks (asked node))
    {s : State n c V W} (hcleared : Cleared (system.Needs asked) s) (hidle : s.inFlight = [])
    (node : Fin n) :
    ∃ result s', system.read node s = .returned result s'
      ∧ (Outcome.returned result s').Reports (system.Needs asked) node
          (¬ ∃ z, CycleAhead (system.Needs asked) node z) := by
  have hreports := readWithin_reports hrecipe (n + 1) node hcleared (by simp [hidle])
  have hends : readWithin system (n + 1) node s ≠ .exhausted :=
    readWithin_ends (by simp [hidle]) (by simp [hidle]) node
  rw [System.read]
  cases hr : readWithin system (n + 1) node s with
  | returned result s' => exact ⟨result, s', rfl, hr ▸ hreports⟩
  | unwound s' =>
    rw [hr] at hreports
    exact hreports.elim
  | exhausted => exact absurd hr hends

/-- **Preserved by every set and every read.** -/
theorem Reached.cleared (hrecipe : ∀ node inputs, (system.recipe node inputs).Asks (asked node))
    {s : State n c V W} (h : Reached system s) :
    Cleared (system.Needs asked) s ∧ s.inFlight = [] := by
  induction h with
  | start cells outside => exact ⟨cleared_start cells outside, rfl⟩
  | set cell v _ ih => exact ih
  | @read s node result s' _ hread ih =>
    obtain ⟨result', s₁, hread', hreports⟩ := read_reports hrecipe ih.1 ih.2 node
    cases hread.symm.trans hread'
    have hsame := (readWithin_sparing system (n + 1) node s s'
      (congrArg Outcome.state? hread)).inFlight
    refine ⟨?_, hsame.trans ih.2⟩
    cases result with
    | ok v => exact hreports.2
    | error e => exact hreports.2

/--
**Circular dependencies are reported exactly where they are.** Let the recipe of each node read
always the same nodes, pass errors on, and not fail on its own account. Then after any history a read
of any node comes back. It has a value if and only if no cycle can be reached from the node, and
otherwise the error is a circular dependency of a node on a cycle that can be reached.
-/
theorem read_verdict (hrecipe : ∀ node inputs, (system.recipe node inputs).Asks (asked node))
    {s : State n c V W} (h : Reached system s) (node : Fin n) :
    ∃ result s', system.read node s = .returned result s'
      ∧ ((∃ v, result = .ok v) ↔
          ¬ ∃ y, Relation.ReflTransGen (system.Needs asked) node y
            ∧ Relation.TransGen (system.Needs asked) y y)
      ∧ ∀ e, result = .error e → ∃ y, e = .circular y
          ∧ Relation.ReflTransGen (system.Needs asked) node y
          ∧ Relation.TransGen (system.Needs asked) y y := by
  obtain ⟨hcleared, hidle⟩ := h.cleared hrecipe
  obtain ⟨result, s', hread, hreports⟩ := read_reports hrecipe hcleared hidle node
  refine ⟨result, s', hread, ?_⟩
  cases result with
  | ok v => exact ⟨⟨fun _ => hreports.1, fun _ => ⟨v, rfl⟩⟩, by simp⟩
  | error e =>
    obtain ⟨y, he, hy⟩ := hreports.1
    refine ⟨⟨by simp, fun hnone => absurd ⟨y, hy⟩ hnone⟩, ?_⟩
    intro e' he'
    cases he'
    exact ⟨y, he, hy⟩

/-! ## Formulas -/

/-- A formula that lists its inputs and what it reads. -/
def Formula.listing (nodes : List (Fin n)) : Formula n c := ⟨none, nodes, [], [], false, .list⟩

theorem Formula.readAll_asks {next : List Datum → Recipe n c Datum W}
    (h : ∀ vs, (next vs).Asks []) (nodes : List (Fin n)) : (readAll nodes next).Asks nodes := by
  induction nodes generalizing next with
  | nil => exact h []
  | cons node rest ih => exact .read (fun v => ih fun vs => h (v :: vs)) fun e => .done

theorem Formula.listing_asks (nodes : List (Fin n)) (self : Fin n) (inputs : List Datum) :
    ((listing nodes).recipe self inputs : Recipe n c Datum W).Asks nodes :=
  .runs fun _ => readAll_asks (fun _ => .done) nodes

/-- Two nodes that depend on each other, a node that reads one of them after its input, and the
input. -/
def knot (base : Fin c) : System 4 c Datum W where
  inputs
    | 0 => [.node 3]
    | 1 => [.node 2]
    | _ => [.cell base]
  recipe node := (Formula.listing (if node = 0 ∨ node = 2 then [1] else [])).recipe node

/-- A read runs into the cycle and a cell is set. Then a node on the cycle is found to be on one, and
the input has its value. -/
theorem read_verdict_knot : ∃ (x y : Fin 4) (v : Datum) (s₁ s₂ s₃ : State 4 1 Datum Unit),
    (knot 0).read 0 (.start #v[.int 1] ()) = .returned (.error (.circular x)) s₁
    ∧ (knot 0).read 2 (s₁.set 0 (.int 2)) = .returned (.error (.circular y)) s₂
    ∧ (knot 0).read 3 s₂ = .returned (.ok v) s₃ := by
  have hstart : Reached (knot (0 : Fin 1)) (.start #v[.int 1] ()) := .start _ _
  have hverdict {s : State 4 1 Datum Unit} (h : Reached (knot 0) s) (node : Fin 4) :=
    read_verdict (fun node inputs => Formula.listing_asks _ node inputs) h node
  let needs := (knot (0 : Fin 1) : System 4 1 Datum Unit).Needs
    fun node => if node = 0 ∨ node = 2 then [1] else []
  -- a read of the first or the third node fails, because both lead to the second one
  have hfails {s : State 4 1 Datum Unit} (h : Reached (knot 0) s) {node : Fin 4}
      (hnode : node = 0 ∨ node = 2) :
      ∃ x s', (knot 0).read node s = .returned (.error (.circular x)) s' := by
    have hedge : needs node 1 := .inr (by simp [hnode])
    have hinput : needs 1 2 := .inl (by simp [System.Feeds, knot])
    have hcycle : Relation.TransGen needs 1 1 := .tail (.single hinput) (.inr (by simp))
    obtain ⟨result, s', hread, hok, herror⟩ := hverdict h node
    cases result with
    | ok v => exact absurd ⟨1, .single hedge, hcycle⟩ (hok.mp ⟨v, rfl⟩)
    | error e =>
      obtain ⟨x, rfl, -, -⟩ := herror e rfl
      exact ⟨x, s', hread⟩
  have hthree : ¬ ∃ y, CycleAhead needs 3 y :=
    not_cycleAhead_of_needs (by simp [knot]) (by simp)
  obtain ⟨x, s₁, h₁⟩ := hfails hstart (.inl rfl)
  have hset := (hstart.read h₁).set 0 (.int 2)
  obtain ⟨y, s₂, h₂⟩ := hfails hset (.inr rfl)
  obtain ⟨result, s₃, h₃, hok, -⟩ := hverdict (hset.read h₂) 3
  obtain ⟨v, rfl⟩ := hok.mpr hthree
  exact ⟨x, y, v, s₁, s₂, s₃, h₁, h₂, h₃⟩

end Recurrence.Reactive
