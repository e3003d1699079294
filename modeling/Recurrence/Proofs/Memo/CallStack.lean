import Recurrence.Proofs.Memo.Moment
import Recurrence.Proofs.Memo.View

/-!
# Marks are the call stack

A memoizer has a mark for a key exactly while a computation of that key is on the stack, and then
there is only one such computation. That is what makes the guard right: it refuses the keys it finds
marked, and those are the keys whose computation would run inside itself.

The invariant is kept by every step whatever the policies are. A computation begins where there is
no mark and sets one, its end takes away that one and no other, and everything else, eviction,
expiry, dropping by hand, only forgets results.
-/

namespace Recurrence.Memo

variable {n : Nat} {K V W : Type} [DecidableEq K] {body : Fin n → K → Computation n K V W}

/-- The marks are those of the computations in progress, of which there is one for each mark. -/
structure Marked (now : Moment n K V W) : Prop where
  nodup : now.activations.Nodup
  marks : ∀ m key, now.state.InFlight m key ↔ (m, key) ∈ now.activations

theorem marked_start (program : Computation n K V W) (policies : Vector Cache.Policy n)
    (outside : W) : Marked (.start program policies outside) where
  nodup := List.nodup_nil
  marks m key := by
    show (State.start policies outside).slot? m key = _ ↔ (m, key) ∈ []
    rw [State.slot?_start]
    simp

/-- A step that leaves the stack and the marks alone. -/
theorem Marked.of_same {c c' : Computation n K V W} {stack : List (Frame n K V W)}
    {s s' : State n K V W} (h : Marked ⟨c, stack, s⟩)
    (hs : ∀ m key, s'.InFlight m key ↔ s.InFlight m key) : Marked ⟨c', stack, s'⟩ :=
  ⟨h.nodup, fun m key => (hs m key).trans (h.marks m key)⟩

/-- A computation ends, and its mark is the only one that goes. -/
theorem Marked.pop {c c' : Computation n K V W} {f : Frame n K V W}
    {stack : List (Frame n K V W)} {s s' : State n K V W} (h : Marked ⟨c, f :: stack, s⟩)
    (hs : ∀ m key, s'.InFlight m key ↔ ¬ (m = f.memo ∧ key = f.key) ∧ s.InFlight m key) :
    Marked ⟨c', stack, s'⟩ := by
  have hnd := List.nodup_cons.mp h.nodup
  refine ⟨hnd.2, fun m key => ?_⟩
  have hmem : s.InFlight m key ↔ (m, key) ∈ (f.memo, f.key) :: _ := h.marks m key
  rw [hs m key, hmem, List.mem_cons, Prod.mk.injEq]
  constructor
  · rintro ⟨hne, heq | hin⟩
    · exact absurd heq hne
    · exact hin
  · intro hin
    refine ⟨?_, Or.inr hin⟩
    rintro ⟨rfl, rfl⟩
    exact hnd.1 hin

/-- A computation begins for a key without a mark. -/
theorem Marked.push {c c' : Computation n K V W} {f : Frame n K V W}
    {stack : List (Frame n K V W)} {s s' : State n K V W} (h : Marked ⟨c, stack, s⟩)
    (hfree : ¬ s.InFlight f.memo f.key)
    (hs : ∀ m key, s'.InFlight m key ↔ (m = f.memo ∧ key = f.key) ∨ s.InFlight m key) :
    Marked ⟨c', f :: stack, s'⟩ := by
  refine ⟨List.nodup_cons.mpr ⟨?_, h.nodup⟩, fun m key => ?_⟩
  · exact fun hin => hfree ((h.marks _ _).mpr hin)
  · have hmem : s.InFlight m key ↔ (m, key) ∈ stack.map _ := h.marks m key
    show _ ↔ (m, key) ∈ (f.memo, f.key) :: stack.map _
    rw [hs m key, hmem, List.mem_cons, Prod.mk.injEq]

/-- **Preserved by every step.** -/
theorem marked_step (a b : Moment n K V W) (hs : Step body a b) (h : Marked a) : Marked b := by
  cases hs with
  | @hit m key _ _ s _ _ => exact h.of_same fun m' k => s.inFlight_lookup m m' key k
  | @refused m key _ _ s _ => exact h.of_same fun m' k => s.inFlight_lookup m m' key k
  | @started m key next stack s hl =>
    refine h.push (f := ⟨m, key, next⟩) ?_ fun m' k => ?_
    -- the lookup was no refusal, so there is no mark yet
    · intro hmark
      rw [State.lookup_eq_inFlight_iff.mpr hmark] at hl
      exact absurd hl (by simp)
    · rw [State.inFlight_begin, State.inFlight_lookup]
  | @succeeded f _ s v => exact h.pop fun m k => s.inFlight_resolve f.memo m f.key k v
  | @failed f _ s _ => exact h.pop fun m k => s.inFlight_abandon f.memo m f.key k
  | advance hd => exact h.of_same fun m k => State.inFlight_advance hd m k
  | @clear m _ _ s => exact h.of_same fun m' k => s.inFlight_clear m m' k
  | @invalidate m key _ _ s => exact h.of_same fun m' k => s.inFlight_invalidate m m' key k
  | probe | runs | look | leave | wait => exact h.of_same fun _ _ => Iff.rfl

theorem marked_reached {program : Computation n K V W} {policies : Vector Cache.Policy n}
    {outside : W} {now : Moment n K V W}
    (h : Reaches body (.start program policies outside) now) : Marked now :=
  h.keeps marked_step (marked_start program policies outside)

/-- A call that returns leaves the marks as they were. -/
theorem Marked.call_returned {now : Moment n K V W} (h : Marked now) {fuel : Nat} {m : Fin n}
    {key : K} {result : MemoResult K V} {s : State n K V W}
    (hc : call body fuel m key now.state = .returned result s) (m' : Fin n) (k : K) :
    s.InFlight m' k ↔ now.state.InFlight m' k := by
  have hreach := call_leadsTo body fuel m key .done now.stack now.state
  rw [hc] at hreach
  have hcalling : Marked ⟨.call m key .done, now.stack, now.state⟩ := h.of_same fun _ _ => Iff.rfl
  have hafter : Marked ⟨.done result, now.stack, s⟩ := hreach.keeps marked_step hcalling
  exact (hafter.marks m' k).trans (h.marks m' k).symm

/-- A call for a marked key is refused, and nothing but the log tells of it. -/
theorem call_of_inFlight {s : State n K V W} {m : Fin n} {key : K} (h : s.InFlight m key)
    (fuel : Nat) : call body (fuel + 1) m key s
      = .returned (.error (.cycle key)) { s with log := .rejected key :: s.log } := by
  rw [call, State.lookup_of_inFlight h]

/--
**The marks of a memoizer are its part of the call stack**, at every moment of every run.

So a call for a key on the stack is refused without a computation, and refused with the key's own
text; the guard refuses no other call; and every call that returns has left the marks as they were.
The last part also says which moments a call has: it leads from the moment it is made to the one
that goes on with its result.
-/
theorem inFlight_iff_on_stack {program : Computation n K V W}
    {policies : Vector Cache.Policy n} {outside : W} {now : Moment n K V W}
    (h : Reaches body (.start program policies outside) now) :
    (∀ m key, (now.state.InFlight m key ↔ now.activations.count (m, key) = 1)
      ∧ now.activations.count (m, key) ≤ 1)
    ∧ (∀ m key, (m, key) ∈ now.activations →
        (∀ fuel, call body (fuel + 1) m key now.state
          = .returned (.error (.cycle key))
              { now.state with log := .rejected key :: now.state.log })
        ∧ ∀ shown, (MemoError.cycle key).message shown = "Cycle detected. key: " ++ shown key)
    ∧ (∀ m key, (m, key) ∉ now.activations → (now.state.lookup m key).1 ≠ .inFlight)
    ∧ ∀ fuel m key next result s, call body fuel m key now.state = .returned result s →
        Reaches body ⟨.call m key next, now.stack, now.state⟩ ⟨next result, now.stack, s⟩
        ∧ ∀ m' k, s.InFlight m' k ↔ now.state.InFlight m' k := by
  have hm := marked_reached h
  refine ⟨fun m key => ⟨?_, List.nodup_iff_count.mp hm.nodup _⟩, ?_, ?_, ?_⟩
  · rw [hm.marks, ← List.count_pos_iff]
    have := List.nodup_iff_count.mp hm.nodup (m, key)
    omega
  · intro m key hin
    exact ⟨call_of_inFlight ((hm.marks m key).mpr hin), fun _ => rfl⟩
  · intro m key hnot hl
    exact hnot ((hm.marks m key).mp (State.lookup_eq_inFlight_iff.mp hl))
  · intro fuel m key next result s hc
    have hreach := call_leadsTo body fuel m key next now.stack now.state
    rw [hc] at hreach
    exact ⟨hreach, hm.call_returned hc⟩

/-- Each of two keys asks for the other one. -/
def askOther (m : Fin 1) (key : Bool) : Computation 1 Bool Nat Unit := .call m (!key) .done

/-- Both keys are marked in a cache that has room for one of them, and a call for the first is
refused. -/
theorem inFlight_iff_on_stack_askOther : ∃ now : Moment 1 Bool Nat Unit,
    Reaches askOther (.start (.call 0 true .done) #v[.lru 1] ()) now
    ∧ now.activations = [(0, false), (0, true)]
    ∧ now.state.InFlight 0 true ∧ now.state.InFlight 0 false
    ∧ call askOther 1 0 true now.state
        = .returned (.error (.cycle true))
            { now.state with log := .rejected true :: now.state.log } := by
  have h : Reaches askOther (.start (.call 0 true .done) #v[.lru 1] ()) _ :=
    (Relation.ReflTransGen.single (.started (by decide +kernel))).tail
      (.started (by decide +kernel))
  obtain ⟨hmarks, hrefused, -⟩ := inFlight_iff_on_stack h
  exact ⟨_, h, rfl, (hmarks 0 true).1.mpr (by decide), (hmarks 0 false).1.mpr (by decide),
    (hrefused 0 true (by decide)).1 0⟩

end Recurrence.Memo
