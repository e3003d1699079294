import Mathlib.Data.Fintype.EquivFin
import Mathlib.Logic.Relation
import Recurrence.Reactive.Recipe

/-!
# Evaluating a graph from scratch

Nodes and the nodes among their inputs form a graph. If no node feeds itself, not even through
others, then the value of a node can be computed from what the cells hold, by the combining
functions alone and without remembering anything. That value is what a read is measured by.
-/

namespace Recurrence.Reactive

variable {n c : Nat} {V W : Type}

namespace System

/-- The first node is an input of the second one. -/
def Feeds (system : System n c V W) (i j : Fin n) : Prop := .node i ∈ system.inputs j

/-- No node feeds itself, not even through others. -/
def Acyclic (system : System n c V W) : Prop :=
  ∀ node, ¬ Relation.TransGen system.Feeds node node

/-- There are only so many nodes, so one comes to an end on the way from inputs to inputs. -/
theorem Acyclic.wellFounded {system : System n c V W} (h : system.Acyclic) :
    WellFounded system.Feeds := by
  have hirrefl : Std.Irrefl (Relation.TransGen system.Feeds) := ⟨h⟩
  have htrans : WellFounded (Relation.TransGen system.Feeds) :=
    Finite.wellFounded_of_trans_of_irrefl _
  exact Subrelation.wf Relation.TransGen.single htrans

end System

/-- The values of inputs in their order, or the first error among them. -/
def inputValues (cells : Vector V c) : (sources : List (Source n c)) →
    (nodes : ∀ i, .node i ∈ sources → Except (Error n) V) → Except (Error n) (List V)
  | [], _ => .ok []
  | .cell i :: rest, nodes => do
    return cells.get i :: (← inputValues cells rest fun i h => nodes i (List.mem_cons_of_mem _ h))
  | .node i :: rest, nodes => do
    return (← nodes i List.mem_cons_self)
      :: (← inputValues cells rest fun i h => nodes i (List.mem_cons_of_mem _ h))

/-- The value of a node: its combining function is given the values of its inputs, which are found
in the same way. -/
noncomputable def fromScratch {system : System n c V W} (h : system.Acyclic)
    (combine : Fin n → List V → Except (Error n) V) (cells : Vector V c) :
    Fin n → Except (Error n) V :=
  h.wellFounded.fix fun node below =>
    inputValues cells (system.inputs node) below >>= combine node

variable {system : System n c V W} {combine : Fin n → List V → Except (Error n) V}

theorem fromScratch_eq (h : system.Acyclic) (cells : Vector V c) (node : Fin n) :
    fromScratch h combine cells node
      = inputValues cells (system.inputs node) (fun i _ => fromScratch h combine cells i)
          >>= combine node := by
  rw [fromScratch, WellFounded.fix_eq]
  rfl

/-- The value of an input, for given values of the nodes. -/
def Source.value (cells : Vector V c) (nodes : Fin n → Except (Error n) V) :
    Source n c → Except (Error n) V
  | .cell i => .ok (cells.get i)
  | .node i => nodes i

theorem inputValues_cons (cells : Vector V c) (nodes : Fin n → Except (Error n) V)
    (source : Source n c) (rest : List (Source n c)) :
    inputValues cells (source :: rest) (fun i _ => nodes i) = (do
      return (← source.value cells nodes) :: (← inputValues cells rest fun i _ => nodes i)) := by
  cases source <;> rfl

/-- The first error ends it. -/
theorem inputValues_error {cells : Vector V c} {nodes : Fin n → Except (Error n) V}
    {before after : List (Source n c)} {source : Source n c} {e : Error n}
    (hbefore : ∀ x ∈ before, ∃ v, x.value cells nodes = .ok v)
    (hsource : source.value cells nodes = .error e) :
    inputValues cells (before ++ source :: after) (fun i _ => nodes i) = .error e := by
  induction before with
  | nil =>
    rw [List.nil_append, inputValues_cons, hsource]
    rfl
  | cons x before ih =>
    obtain ⟨v, hv⟩ := hbefore x List.mem_cons_self
    have hrest := ih fun y hy => hbefore y (List.mem_cons_of_mem _ hy)
    rw [List.cons_append, inputValues_cons, hv, hrest]
    rfl

/-- A node whose inputs fail has the first of their errors for its value. -/
theorem fromScratch_error (h : system.Acyclic) {cells : Vector V c} {node : Fin n}
    {before after : List (Source n c)} {source : Source n c} {e : Error n}
    (hinputs : system.inputs node = before ++ source :: after)
    (hbefore : ∀ x ∈ before, ∃ v, x.value cells (fromScratch h combine cells) = .ok v)
    (hsource : source.value cells (fromScratch h combine cells) = .error e) :
    fromScratch h combine cells node = .error e := by
  rw [fromScratch_eq, hinputs, inputValues_error hbefore hsource]
  rfl

end Recurrence.Reactive
