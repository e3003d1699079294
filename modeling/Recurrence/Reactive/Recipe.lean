/-!
# Cells, nodes and recipes

A cell holds a value that anyone may set. A node derives its value from an ordered list of inputs,
which are cells and nodes, by a recipe: a tree of steps that starts from the values of the inputs
and may on the way read any node, use any cell, and count its own runs. Each run of a recipe comes
to an end, by a result or by unwinding.
-/

namespace Recurrence.Reactive

/-- What a node takes as an input: one of `c` cells or one of `n` nodes. -/
inductive Source (n c : Nat) where
  | cell (i : Fin c)
  | node (i : Fin n)
deriving DecidableEq, Repr

/-- Why a node has no value. -/
inductive Error (n : Nat) where
  /-- The node is already being read. -/
  | circular (node : Fin n)
  | failed (reason : String)
deriving DecidableEq, Repr

/-- A recipe over `n` nodes and `c` cells, with an outside of type `W`. -/
inductive Recipe (n c : Nat) (V W : Type) where
  | done (result : Except (Error n) V)
  /-- Reads a node; its error may be passed on or handled. -/
  | read (node : Fin n) (next : Except (Error n) V → Recipe n c V W)
  | get (cell : Fin c) (next : V → Recipe n c V W)
  | set (cell : Fin c) (value : V) (next : Recipe n c V W)
  /-- Asks how often a node's recipe has been started. -/
  | runs (node : Fin n) (next : Nat → Recipe n c V W)
  | look (next : W → Recipe n c V W)
  | leave (w : W) (next : Recipe n c V W)
  /-- Gives up without a result, and so do all reads that wait for it. -/
  | unwind

/-- The inputs and the recipes of all nodes. -/
structure System (n c : Nat) (V W : Type) where
  inputs : Fin n → List (Source n c)
  recipe : Fin n → List V → Recipe n c V W

namespace Recipe

variable {n c : Nat} {V W : Type}

/-- Ends with a value. -/
def pure (v : V) : Recipe n c V W := .done (.ok v)

/-- Ends with a failure. -/
def fail (reason : String) : Recipe n c V W := .done (.error (.failed reason))

/-- Reads a node and passes an error on. -/
def value (node : Fin n) (next : V → Recipe n c V W) : Recipe n c V W :=
  .read node fun
    | .ok v => next v
    | .error e => .done (.error e)

end Recipe

end Recurrence.Reactive
