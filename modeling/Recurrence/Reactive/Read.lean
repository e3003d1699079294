import Recurrence.Decimal.Digits
import Recurrence.Log
import Recurrence.Reactive.Recipe

/-!
# Reading nodes

Setting a cell notifies nobody; a read finds out by itself what has changed. It takes a snapshot of
the node's inputs, reading the nodes among them, and compares it with the snapshot of the last
recipe that succeeded. If they are equal the stored value is still right; otherwise the recipe runs.

A node is in flight from the start of its read to the end, however the read ends, and a read of a
node in flight is refused. So no stack of reads is longer than the number of nodes.
-/

namespace Recurrence.Reactive

variable {n c : Nat} {V W : Type}

/-- The name of a node: nodes are counted from one. -/
def nodeName (node : Fin n) : String := "#" ++ natText (node.val + 1)

/-- A node as it is shown: by its number alone, since its recipe has no text. -/
def nodeText (node : Fin n) : String :=
  "Computed \x7b id: NodeId(" ++ natText (node.val + 1) ++ "), .. \x7d"

def Error.message : Error n → String
  | .circular node => "Circular dependency detected. node: " ++ nodeName node
  | .failed reason => "Computation failed. reason: " ++ reason

/-- What a read did, as far as the log tells. -/
inductive Event (n : Nat) where
  | unchanged (node : Fin n)
  | recomputing (node : Fin n) (inputs : Nat)
deriving DecidableEq, Repr

def Event.line : Event n → Log.Line
  | .unchanged node => ⟨.trace, "Inputs unchanged. node: " ++ nodeName node⟩
  | .recomputing node inputs =>
    ⟨.debug, "Recomputing. node: " ++ nodeName node ++ ", inputs: " ++ natText inputs⟩

/-- The snapshot and the result of a recipe's last success. -/
structure Stored (V : Type) where
  snapshot : List V
  value : V

/-- Cells, what nodes remember, the reads in progress, the outside of recipes, and the log, latest
event first. -/
structure State (n c : Nat) (V W : Type) where
  cells : Vector V c
  stored : Vector (Option (Stored V)) n
  runs : Vector Nat n
  inFlight : List (Fin n)
  outside : W
  log : List (Event n)

/-- How a read ends. -/
inductive Outcome (n : Nat) (A S : Type) where
  | returned (result : Except (Error n) A) (state : S)
  | unwound (state : S)
  /-- There was not enough fuel. -/
  | exhausted

namespace State

/-- No node has been read yet. -/
def start (cells : Vector V c) (outside : W) : State n c V W where
  cells := cells
  stored := .replicate n none
  runs := .replicate n 0
  inFlight := []
  outside := outside
  log := []

/-- What a cell holds. -/
def get (s : State n c V W) (cell : Fin c) : V := s.cells.get cell

def set (s : State n c V W) (cell : Fin c) (v : V) : State n c V W :=
  { s with cells := s.cells.set cell v cell.isLt }

theorem get_set (s : State n c V W) (cell i : Fin c) (v : V) :
    (s.set cell v).get i = if i = cell then v else s.get i := by
  have h (w : Vector V c) : w.get i = w[i.val] := rfl
  rw [get, get, h, h, set, Vector.getElem_set]
  simp only [Fin.ext_iff, eq_comm]

/-- What a node remembers. -/
def remembered (s : State n c V W) (node : Fin n) : Option (Stored V) := s.stored.get node

/-- How often the recipe of a node has been started. -/
def runCount (s : State n c V W) (node : Fin n) : Nat := s.runs.get node

def note (s : State n c V W) (event : Event n) : State n c V W :=
  { s with log := event :: s.log }

/-- A read of a node begins. -/
def enter (s : State n c V W) (node : Fin n) : State n c V W :=
  { s with inFlight := node :: s.inFlight }

/-- A read of a node has ended. -/
def exit (s : State n c V W) (node : Fin n) : State n c V W :=
  { s with inFlight := s.inFlight.erase node }

/-- The recipe of a node starts. -/
def startRun (s : State n c V W) (node : Fin n) (inputs : Nat) : State n c V W :=
  { s.note (.recomputing node inputs) with
    runs := s.runs.set node (s.runCount node + 1) node.isLt }

/-- Remembers a success. -/
def store (s : State n c V W) (node : Fin n) (snapshot : List V) (v : V) : State n c V W :=
  { s with stored := s.stored.set node (some ⟨snapshot, v⟩) node.isLt }

theorem remembered_store (s : State n c V W) (node i : Fin n) (snapshot : List V) (v : V) :
    (s.store node snapshot v).remembered i
      = if i = node then some ⟨snapshot, v⟩ else s.remembered i := by
  have h (w : Vector (Option (Stored V)) n) : w.get i = w[i.val] := rfl
  rw [remembered, remembered, h, h, store, Vector.getElem_set]
  simp only [Fin.ext_iff, eq_comm]

theorem runCount_startRun (s : State n c V W) (node i : Fin n) (inputs : Nat) :
    (s.startRun node inputs).runCount i
      = if i = node then s.runCount node + 1 else s.runCount i := by
  have h (w : Vector Nat n) : w.get i = w[i.val] := rfl
  rw [runCount, h, startRun, Vector.getElem_set]
  simp only [Fin.ext_iff, eq_comm]
  rfl

end State

/-- What reads of nodes do. -/
abbrev Reader (n c : Nat) (V W : Type) :=
  Fin n → State n c V W → Outcome n V (State n c V W)

/-- Runs a recipe, given what reads do. -/
def run (read : Reader n c V W) :
    Recipe n c V W → State n c V W → Outcome n V (State n c V W)
  | .done result, s => .returned result s
  | .read node next, s =>
    match read node s with
    | .returned result s => run read (next result) s
    | .unwound s => .unwound s
    | .exhausted => .exhausted
  | .get cell next, s => run read (next (s.get cell)) s
  | .set cell v next, s => run read next (s.set cell v)
  | .runs node next, s => run read (next (s.runCount node)) s
  | .look next, s => run read (next s.outside) s
  | .leave w next, s => run read next { s with outside := w }
  | .unwind, s => .unwound s

/-- Reads an input. -/
def readSource (read : Reader n c V W) :
    Source n c → State n c V W → Outcome n V (State n c V W)
  | .cell i, s => .returned (.ok (s.get i)) s
  | .node i, s => read i s

/-- Reads inputs in order; the first error ends it. -/
def snapshot (read : Reader n c V W) :
    List (Source n c) → State n c V W → Outcome n (List V) (State n c V W)
  | [], s => .returned (.ok []) s
  | source :: rest, s =>
    match readSource read source s with
    | .returned (.ok v) s =>
      match snapshot read rest s with
      | .returned (.ok vs) s => .returned (.ok (v :: vs)) s
      | other => other
    | .returned (.error e) s => .returned (.error e) s
    | .unwound s => .unwound s
    | .exhausted => .exhausted

/-- Remembers the result of a recipe if it succeeded. -/
def settle (node : Fin n) (inputs : List V) :
    Outcome n V (State n c V W) → Outcome n V (State n c V W)
  | .returned (.ok v) s => .returned (.ok v) (s.store node inputs v)
  | other => other

/-- Does what is stored for a node stand for these inputs? -/
def State.upToDate? [BEq V] (s : State n c V W) (node : Fin n) (inputs : List V) : Option V :=
  match s.remembered node with
  | some stored => if stored.snapshot == inputs then some stored.value else none
  | none => none

theorem State.upToDate?_eq_some [BEq V] {s : State n c V W} {node : Fin n} {inputs : List V} {v : V}
    (h : s.upToDate? node inputs = some v) :
    ∃ stored, s.remembered node = some stored ∧ (stored.snapshot == inputs) = true
      ∧ stored.value = v := by
  rw [upToDate?] at h
  cases hstored : s.remembered node with
  | none =>
    rw [hstored] at h
    exact absurd h (by simp)
  | some stored =>
    simp only [hstored] at h
    split at h
    · rename_i hsame
      exact ⟨stored, rfl, hsame, Option.some.inj h⟩
    · exact absurd h (by simp)

/-- The value of a node, given its inputs: the stored one, or that of its recipe. -/
def evaluate [BEq V] (system : System n c V W) (read : Reader n c V W) (node : Fin n)
    (inputs : List V) (s : State n c V W) : Outcome n V (State n c V W) :=
  match s.upToDate? node inputs with
  | some v => .returned (.ok v) (s.note (.unchanged node))
  | none =>
    settle node inputs (run read (system.recipe node inputs) (s.startRun node inputs.length))

/-- Ends a read. -/
def close (node : Fin n) : Outcome n V (State n c V W) → Outcome n V (State n c V W)
  | .returned result s => .returned result (s.exit node)
  | .unwound s => .unwound (s.exit node)
  | .exhausted => .exhausted

/-- Reads a node with so many reads inside each other at most. -/
def readWithin [BEq V] (system : System n c V W) : (fuel : Nat) → Reader n c V W
  | 0, _, _ => .exhausted
  | fuel + 1, node, s =>
    if node ∈ s.inFlight then .returned (.error (.circular node)) s
    else
      close node <|
        match snapshot (readWithin system fuel) (system.inputs node) (s.enter node) with
        | .returned (.ok inputs) s => evaluate system (readWithin system fuel) node inputs s
        | .returned (.error e) s => .returned (.error e) s
        | .unwound s => .unwound s
        | .exhausted => .exhausted

/-- Reads a node. Each of the reads inside each other is of another node, except that the innermost
may be refused, so fuel for one more than there are nodes is enough. -/
def System.read [BEq V] (system : System n c V W) : Reader n c V W :=
  readWithin system (n + 1)

end Recurrence.Reactive
