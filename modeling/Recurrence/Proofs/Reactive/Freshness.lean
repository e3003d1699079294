import Mathlib.Data.Fintype.EquivFin
import Recurrence.Proofs.Reactive.FromScratch
import Recurrence.Reactive.Read

/-!
# Reads are never stale

What a node has stored may be as old as it likes: it is a snapshot with the value that the combining
function gives *that* snapshot, and this is true whatever has become of the inputs since. It is used
only if the inputs are equal to the snapshot, and then it is right.

So a read gives the value from scratch by induction along the graph. The reads in progress are of
nodes that are fed by the node being read, hence of other nodes, and nothing is refused.
-/

namespace Recurrence.Reactive

variable {n c : Nat} {V W : Type} {system : System n c V W}
  {combine : Fin n → List V → Except (Error n) V}

/-! ## Pure recipes -/

/-- The recipe comes to a result whatever it sees: it may look around and keep its own accounts, but
it reads no node and sets no cell. -/
inductive Recipe.Yields : Recipe n c V W → Except (Error n) V → Prop
  | done {result} : Yields (.done result) result
  | get {cell next result} : (∀ v, Yields (next v) result) → Yields (.get cell next) result
  | runs {node next result} : (∀ count, Yields (next count) result) →
      Yields (.runs node next) result
  | look {next result} : (∀ w, Yields (next w) result) → Yields (.look next) result
  | leave {w next result} : Yields next result → Yields (.leave w next) result

/-- It leaves everything as it is, except for its accounts. -/
theorem Recipe.Yields.run {recipe : Recipe n c V W} {result : Except (Error n) V}
    (h : recipe.Yields result) (read : Reader n c V W) (s : State n c V W) :
    ∃ outside, Reactive.run read recipe s = .returned result { s with outside := outside } := by
  induction h generalizing s with
  | done => exact ⟨s.outside, rfl⟩
  | get _ ih => exact ih _ s
  | runs _ ih => exact ih _ s
  | look _ ih => exact ih _ s
  | @leave w _ _ _ ih => exact ih { s with outside := w }

/-! ## The invariant -/

/-- What is stored for a node is a value of its combining function. -/
def Settled (combine : Fin n → List V → Except (Error n) V) (s : State n c V W) : Prop :=
  ∀ node stored, s.remembered node = some stored →
    combine node stored.snapshot = .ok stored.value

theorem settled_start (cells : Vector V c) (outside : W) :
    Settled combine (.start cells outside : State n c V W) := by
  intro node stored hstored
  have hnone : (State.start cells outside : State n c V W).remembered node = none :=
    Vector.getElem_replicate ..
  exact absurd (hnone.symm.trans hstored) (by simp)

theorem Settled.store {s : State n c V W} (h : Settled combine s) {node : Fin n}
    {snapshot : List V} {v : V} (hv : combine node snapshot = .ok v) :
    Settled combine (s.store node snapshot v) := by
  intro i stored hstored
  rw [State.remembered_store] at hstored
  split at hstored
  · rename_i heq
    cases hstored
    rw [heq]
    exact hv
  · exact h i stored hstored

/-- An outcome is a result, with cells and the reads in progress as they were. -/
def Answers {A : Type} (combine : Fin n → List V → Except (Error n) V) (s : State n c V W)
    (result : Except (Error n) A) (outcome : Outcome n A (State n c V W)) : Prop :=
  ∃ s', outcome = .returned result s' ∧ s'.cells = s.cells ∧ s'.inFlight = s.inFlight
    ∧ Settled combine s'

/-! ## Inputs -/

theorem readSource_answers {read : Reader n c V W} {nodes : Fin n → Except (Error n) V}
    {source : Source n c} {s : State n c V W} (h : Settled combine s)
    (hread : ∀ i, source = .node i → Answers combine s (nodes i) (read i s)) :
    Answers combine s (source.value s.cells nodes) (readSource read source s) := by
  cases source with
  | cell i => exact ⟨s, rfl, rfl, rfl, h⟩
  | node i => exact hread i rfl

/-- A snapshot has the values of the inputs, if reads give those of the nodes. -/
theorem snapshot_answers {read : Reader n c V W} {nodes : Fin n → Except (Error n) V}
    {sources : List (Source n c)} {s : State n c V W} (h : Settled combine s)
    (hread : ∀ i, .node i ∈ sources → ∀ s' : State n c V W, s'.cells = s.cells →
      s'.inFlight = s.inFlight → Settled combine s' →
      Answers combine s' (nodes i) (read i s')) :
    Answers combine s (inputValues s.cells sources fun i _ => nodes i)
      (snapshot read sources s) := by
  induction sources generalizing s with
  | nil => exact ⟨s, rfl, rfl, rfl, h⟩
  | cons source rest ih =>
    have hfirst : Answers combine s (source.value s.cells nodes) (readSource read source s) :=
      readSource_answers h fun i hi => hread i (hi ▸ List.mem_cons_self) s rfl rfl h
    obtain ⟨s₁, hfirst, hcells₁, hinFlight₁, hsettled₁⟩ := hfirst
    rw [inputValues_cons, snapshot, hfirst]
    cases source.value s.cells nodes with
    | error e => exact ⟨s₁, rfl, hcells₁, hinFlight₁, hsettled₁⟩
    | ok v =>
      have hrest := ih hsettled₁ fun i hi s' hcells hinFlight =>
        hread i (List.mem_cons_of_mem _ hi) s' (hcells.trans hcells₁)
          (hinFlight.trans hinFlight₁)
      obtain ⟨s₂, hrest, hcells₂, hinFlight₂, hsettled₂⟩ := hrest
      rw [hcells₁] at hrest
      simp only [hrest]
      have hcells := hcells₂.trans hcells₁
      have hinFlight := hinFlight₂.trans hinFlight₁
      cases inputValues s.cells rest fun i _ => nodes i with
      | error e => exact ⟨s₂, rfl, hcells, hinFlight, hsettled₂⟩
      | ok vs => exact ⟨s₂, rfl, hcells, hinFlight, hsettled₂⟩

/-- The reads in progress wait for this node, and the fuel is enough for all the others. -/
structure Below (system : System n c V W) (fuel : Nat) (node : Fin n)
    (inFlight : List (Fin n)) : Prop where
  nodup : inFlight.Nodup
  waiting : ∀ k ∈ inFlight, Relation.TransGen system.Feeds node k
  fuel : n < inFlight.length + fuel

variable {fuel : Nat} {node : Fin n} {inFlight : List (Fin n)}

theorem Below.not_mem (h : Below system fuel node inFlight) (hacyclic : system.Acyclic) :
    node ∉ inFlight :=
  fun hin => hacyclic node (h.waiting node hin)

/-- There is fuel left, because no more nodes than there are can be waiting. -/
theorem Below.fuel_pos (h : Below system fuel node inFlight) : 0 < fuel := by
  have hlength := h.nodup.length_le_card
  rw [Fintype.card_fin] at hlength
  have := h.fuel
  omega

theorem Below.next (h : Below system (fuel + 1) node inFlight) (hnot : node ∉ inFlight)
    {i : Fin n} (hi : system.Feeds i node) : Below system fuel i (node :: inFlight) where
  nodup := List.nodup_cons.mpr ⟨hnot, h.nodup⟩
  waiting k hk := by
    rcases List.mem_cons.mp hk with rfl | hk
    · exact .single hi
    · exact .head hi (h.waiting k hk)
  fuel := by
    have := h.fuel
    rw [List.length_cons]
    omega

theorem Below.input (h : Below system (fuel + 1) node inFlight) (hacyclic : system.Acyclic)
    {i : Fin n} (hi : system.Feeds i node) : Below system fuel i (node :: inFlight) :=
  h.next (h.not_mem hacyclic) hi

/-! ## Reads along the graph -/

variable [BEq V]

/-- A stored value that is used is the value of the inputs. -/
theorem Settled.upToDate {s : State n c V W} (h : Settled combine s)
    (hcongr : ∀ node xs ys, (xs == ys) = true → combine node xs = combine node ys)
    {node : Fin n} {inputs : List V} {v : V} (hv : s.upToDate? node inputs = some v) :
    combine node inputs = .ok v := by
  obtain ⟨stored, hstored, hsame, rfl⟩ := State.upToDate?_eq_some hv
  rw [← hcongr node _ _ hsame]
  exact h node stored hstored

theorem evaluate_answers (hrecipe : ∀ node inputs, (system.recipe node inputs).Yields
      (combine node inputs))
    (hcongr : ∀ node xs ys, (xs == ys) = true → combine node xs = combine node ys)
    (read : Reader n c V W) (node : Fin n) (inputs : List V) {s : State n c V W}
    (h : Settled combine s) :
    Answers combine s (combine node inputs) (evaluate system read node inputs s) := by
  rw [evaluate]
  cases hv : s.upToDate? node inputs with
  | some v =>
    rw [h.upToDate hcongr hv]
    exact ⟨_, rfl, rfl, rfl, h⟩
  | none =>
    -- the recipe runs, and only a success is stored
    obtain ⟨outside, hrun⟩ := (hrecipe node inputs).run read (s.startRun node inputs.length)
    simp only [hrun]
    cases hresult : combine node inputs with
    | ok v =>
      have hsettled : Settled combine { s.startRun node inputs.length with outside := outside } := h
      exact ⟨_, rfl, rfl, rfl, hsettled.store hresult⟩
    | error e => exact ⟨_, rfl, rfl, rfl, h⟩

/-- **A read gives the value from scratch**, by induction along the graph. -/
theorem readWithin_answers (hacyclic : system.Acyclic)
    (hrecipe : ∀ node inputs, (system.recipe node inputs).Yields (combine node inputs))
    (hcongr : ∀ node xs ys, (xs == ys) = true → combine node xs = combine node ys)
    {s : State n c V W} (h : Settled combine s) (hbelow : Below system fuel node s.inFlight) :
    Answers combine s (fromScratch hacyclic combine s.cells node)
      (readWithin system fuel node s) := by
  induction node using hacyclic.wellFounded.induction generalizing fuel s with
  | _ node ih =>
    obtain ⟨fuel, rfl⟩ := Nat.exists_eq_add_of_lt hbelow.fuel_pos
    rw [Nat.zero_add] at hbelow ⊢
    -- with this node in flight its inputs are read as the induction says
    have hinputs : Answers combine (s.enter node)
        (inputValues s.cells (system.inputs node) fun i _ => fromScratch hacyclic combine s.cells i)
        (snapshot (readWithin system fuel) (system.inputs node) (s.enter node)) := by
      refine snapshot_answers (s := s.enter node) h fun i hi s' hcells hinFlight hs' => ?_
      have hinFlight' : s'.inFlight = node :: s.inFlight := hinFlight
      have hread := ih i hi hs' (hinFlight' ▸ hbelow.input hacyclic hi)
      rw [hcells] at hread
      exact hread
    obtain ⟨s₁, hsnapshot, hcells₁, hinFlight₁, hsettled₁⟩ := hinputs
    rw [readWithin, if_neg (hbelow.not_mem hacyclic), fromScratch_eq, hsnapshot]
    -- whatever comes of it, the node is taken out of flight at the end
    have hexit {s₂ : State n c V W} (hinFlight₂ : s₂.inFlight = node :: s.inFlight) :
        (s₂.exit node).inFlight = s.inFlight := by
      rw [State.exit, hinFlight₂, List.erase_cons_head]
    cases inputValues s.cells (system.inputs node)
        fun i _ => fromScratch hacyclic combine s.cells i with
    | error e => exact ⟨_, rfl, hcells₁, hexit hinFlight₁, hsettled₁⟩
    | ok inputs =>
      obtain ⟨s₂, hevaluate, hcells₂, hinFlight₂, hsettled₂⟩ := evaluate_answers hrecipe hcongr
        (readWithin system fuel) node inputs hsettled₁
      simp only [hevaluate]
      exact ⟨_, rfl, hcells₂.trans hcells₁, hexit (hinFlight₂.trans hinFlight₁), hsettled₂⟩

/-! ## After any history -/

/-- Cells have been set and nodes been read in some order, and reads may have failed. -/
inductive Reached (system : System n c V W) : State n c V W → Prop
  | start (cells : Vector V c) (outside : W) : Reached system (.start cells outside)
  | set {s} (cell : Fin c) (v : V) : Reached system s → Reached system (s.set cell v)
  | read {s node result s'} : Reached system s → system.read node s = .returned result s' →
      Reached system s'

/-- A read from outside. -/
theorem read_answers (hacyclic : system.Acyclic)
    (hrecipe : ∀ node inputs, (system.recipe node inputs).Yields (combine node inputs))
    (hcongr : ∀ node xs ys, (xs == ys) = true → combine node xs = combine node ys)
    {s : State n c V W} (h : Settled combine s) (hidle : s.inFlight = []) (node : Fin n) :
    Answers combine s (fromScratch hacyclic combine s.cells node) (system.read node s) := by
  refine readWithin_answers hacyclic hrecipe hcongr h ?_
  rw [hidle]
  exact ⟨List.nodup_nil, by simp, by simp⟩

/-- **Preserved by every set and every read.** -/
theorem Reached.settled (hacyclic : system.Acyclic)
    (hrecipe : ∀ node inputs, (system.recipe node inputs).Yields (combine node inputs))
    (hcongr : ∀ node xs ys, (xs == ys) = true → combine node xs = combine node ys)
    {s : State n c V W} (h : Reached system s) : Settled combine s ∧ s.inFlight = [] := by
  induction h with
  | start cells outside => exact ⟨settled_start cells outside, rfl⟩
  | set cell v _ ih => exact ih
  | @read s node result s' _ hread ih =>
    obtain ⟨s₁, houtcome, -, hinFlight, hsettled⟩ :=
      read_answers hacyclic hrecipe hcongr ih.1 ih.2 node
    cases hread.symm.trans houtcome
    exact ⟨hsettled, hinFlight.trans ih.2⟩

/--
**Reads are never stale.** After any history a read of any node returns what the graph comes to from
scratch with what the cells hold now, and it changes no cell. If inputs fail, that is the error of
the first of them.
-/
theorem read_eq_fromScratch (hacyclic : system.Acyclic)
    (hrecipe : ∀ node inputs, (system.recipe node inputs).Yields (combine node inputs))
    (hcongr : ∀ node xs ys, (xs == ys) = true → combine node xs = combine node ys)
    {s : State n c V W} (h : Reached system s) (node : Fin n) :
    ∃ s', system.read node s = .returned (fromScratch hacyclic combine s.cells node) s'
      ∧ s'.cells = s.cells
      ∧ ∀ before source after e, system.inputs node = before ++ source :: after →
          (∀ x ∈ before, ∃ v, x.value s.cells (fromScratch hacyclic combine s.cells) = .ok v) →
          source.value s.cells (fromScratch hacyclic combine s.cells) = .error e →
          system.read node s = .returned (.error e) s' := by
  obtain ⟨hsettled, hidle⟩ := h.settled hacyclic hrecipe hcongr
  obtain ⟨s', houtcome, hcells, -, -⟩ :=
    read_answers hacyclic hrecipe hcongr hsettled hidle node
  refine ⟨s', houtcome, hcells, ?_⟩
  intro before source after e hinputs hbefore hsource
  rw [houtcome, fromScratch_error hacyclic hinputs hbefore hsource]

/-- One node divides its first input by its second one; every other node adds up its inputs. -/
def combineShares (share node : Fin n) (inputs : List Nat) : Except (Error n) Nat :=
  if node = share then
    match inputs with
    | [_, 0] => .error (.failed "nobody is there")
    | [a, b] => .ok (a / b)
    | _ => .error (.failed "not a division")
  else .ok (inputs.foldl (· + ·) 0)

/-- One cell is an input twice over, and one node feeds another along two ways. -/
def shares (price crowd : Fin c) (share twice : Fin n) : System n c Nat Unit where
  inputs node :=
    if node = share then [.cell price, .cell crowd]
    else if node = twice then [.cell price, .cell price]
    else [.node share, .node twice, .node share]
  recipe node inputs := .done (combineShares share node inputs)

theorem shares_acyclic (price crowd : Fin c) (share twice : Fin n) :
    (shares price crowd share twice).Acyclic := by
  have hfeeds {i j : Fin n} (h : (shares price crowd share twice).Feeds i j) :
      (i = share ∨ i = twice) ∧ j ≠ share ∧ j ≠ twice := by
    simp only [System.Feeds, shares] at h
    split at h
    · simp at h
    split at h
    · simp at h
    · rename_i hshare htwice
      have hi : i = share ∨ i = twice := by simpa [or_comm] using h
      exact ⟨hi, hshare, htwice⟩
  intro node h
  have hlast : node ≠ share ∧ node ≠ twice := by
    cases h with
    | single h => exact (hfeeds h).2
    | tail _ h => exact (hfeeds h).2
  have hfirst : node = share ∨ node = twice := by
    obtain ⟨i, h, -⟩ := Relation.TransGen.head'_iff.mp h
    exact (hfeeds h).1
  rcases hfirst with rfl | rfl
  · exact hlast.1 rfl
  · exact hlast.2 rfl

theorem fromScratch_shares (a b : Nat) :
    fromScratch (shares_acyclic (0 : Fin 2) 1 (0 : Fin 3) 1) (combineShares 0) #v[a, b] 2 = (do
      let share ← combineShares 0 (0 : Fin 3) [a, b]
      let twice ← combineShares 0 1 [a, a]
      combineShares 0 2 [share, twice, share]) := by
  have hshare : (Source.node 0).value #v[a, b]
      (fromScratch (shares_acyclic (0 : Fin 2) 1 (0 : Fin 3) 1) (combineShares 0) #v[a, b])
      = combineShares 0 0 [a, b] := fromScratch_eq (shares_acyclic 0 1 0 1) _ 0
  have htwice : (Source.node 1).value #v[a, b]
      (fromScratch (shares_acyclic (0 : Fin 2) 1 (0 : Fin 3) 1) (combineShares 0) #v[a, b])
      = combineShares 0 1 [a, a] := fromScratch_eq (shares_acyclic 0 1 0 1) _ 1
  have hinputs : (shares (0 : Fin 2) 1 (0 : Fin 3) 1).inputs 2
      = [.node 0, .node 1, .node 0] := rfl
  rw [fromScratch_eq, hinputs, inputValues_cons, inputValues_cons, inputValues_cons, hshare, htwice]
  cases combineShares (0 : Fin 3) 0 [a, b] <;> rfl

/-- A read, a read that fails after a set, and a read after another set. -/
theorem read_eq_fromScratch_shares : ∃ s₁ s₂ s₃,
    (shares (0 : Fin 2) 1 (0 : Fin 3) 1).read 2 (.start #v[6, 2] ()) = .returned (.ok 18) s₁
    ∧ (shares (0 : Fin 2) 1 (0 : Fin 3) 1).read 2 (s₁.set 1 0)
        = .returned (.error (.failed "nobody is there")) s₂
    ∧ (shares (0 : Fin 2) 1 (0 : Fin 3) 1).read 2 (s₂.set 1 3) = .returned (.ok 16) s₃ := by
  have hread {s : State 3 2 Nat Unit} (h : Reached (shares 0 1 0 1) s) {a b : Nat}
      (hs : s.cells = #v[a, b]) :
      ∃ s', (shares 0 1 0 1).read 2 s
          = .returned (fromScratch (shares_acyclic 0 1 0 1) (combineShares 0) #v[a, b] 2) s'
        ∧ s'.cells = #v[a, b] := by
    have hacyclic := shares_acyclic (0 : Fin 2) 1 (0 : Fin 3) 1
    obtain ⟨s', hread, hcells, -⟩ := read_eq_fromScratch hacyclic
      (fun _ _ => .done) (fun _ _ _ heq => by rw [eq_of_beq heq]) h 2
    rw [hs] at hread
    exact ⟨s', hread, hcells.trans hs⟩
  have hstart : Reached (shares (0 : Fin 2) 1 (0 : Fin 3) 1) (.start #v[6, 2] ()) := .start _ _
  obtain ⟨s₁, h₁, hcells₁⟩ := hread hstart rfl
  have hnobody := (hstart.read h₁).set 1 0
  obtain ⟨s₂, h₂, hcells₂⟩ := hread (a := 6) (b := 0) hnobody (by rw [State.set, hcells₁]; rfl)
  have hthree := (hnobody.read h₂).set 1 3
  obtain ⟨s₃, h₃, -⟩ := hread (a := 6) (b := 3) hthree (by rw [State.set, hcells₂]; rfl)
  rw [fromScratch_shares] at h₁ h₂ h₃
  exact ⟨s₁, s₂, s₃, h₁, h₂, h₃⟩

end Recurrence.Reactive
