import Mathlib.Logic.Relation

/-!
# Cycles of a graph

What depends on something else, directly or through others, depends on itself if there is a cycle
ahead. Where there is one can be told edge by edge, and this is how calls and reads find it: they
follow the edges of a key or a node one after the other and put together what they have been told.
-/

namespace Recurrence

variable {α : Type} {edge : α → α → Prop} {x y z : α}

/-- The edges lead from `x` to `y`, and `y` lies on a cycle. -/
def CycleAhead (edge : α → α → Prop) (x y : α) : Prop :=
  Relation.ReflTransGen edge x y ∧ Relation.TransGen edge y y

/-- A cycle is seen from further away, too. -/
theorem CycleAhead.head (hedge : edge x y) (h : CycleAhead edge y z) : CycleAhead edge x z :=
  ⟨h.1.head hedge, h.2⟩

/-- What is on a cycle has an edge to something that leads to it, so a cycle ahead is seen along
the first edge. -/
theorem not_cycleAhead_of_edges (h : ∀ y, edge x y → ¬ ∃ z, CycleAhead edge y z) :
    ¬ ∃ z, CycleAhead edge x z := by
  intro hcyclic
  obtain ⟨z, hz, hcycle⟩ := hcyclic
  rcases Relation.ReflTransGen.cases_head hz with rfl | ⟨y, hy, hyz⟩
  · obtain ⟨y, hy, hyx⟩ := Relation.TransGen.head'_iff.mp hcycle
    exact h y hy ⟨x, hyx, hcycle⟩
  · exact h y hy ⟨z, hyz, hcycle⟩

end Recurrence
