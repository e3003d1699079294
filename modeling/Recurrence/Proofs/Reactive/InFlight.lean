import Recurrence.Proofs.Reactive.Moment

/-!
# Nodes in flight are the stack of reads

A node is in flight exactly while a read of it is on the stack, and then there is only one such
read. So the reads that are refused are those that would go on inside a read of their own node.

The invariant is kept by every step, whatever recipes do. A read that goes ahead puts its node in
front, each way of ending takes that one away again, and a refusal touches nothing. It does not
matter what becomes of an error or who catches an unwinding, because by then the node is out.
-/

namespace Recurrence.Reactive

variable {n c : Nat} {V W : Type}

/-- The nodes in flight are those whose reads are on the stack, each of them once. -/
structure Tracked (now : Moment n c V W) : Prop where
  inFlight : now.state.inFlight = now.reads
  nodup : now.reads.Nodup

theorem tracked_start (program : Recipe n c V W) (cells : Vector V c) (outside : W) :
    Tracked (.start program cells outside) := ⟨rfl, List.nodup_nil⟩

variable {task task' : Task n c V W} {stack : List (Frame n c V W)} {f : Frame n c V W}
  {s s' : State n c V W} {past past' : List (Deed n V)} {system : System n c V W}

/-- A step that leaves the stack and the nodes in flight alone. -/
theorem Tracked.of_same (h : Tracked ⟨task, stack, s, past⟩) (hs : s'.inFlight = s.inFlight) :
    Tracked ⟨task', stack, s', past'⟩ :=
  ⟨hs.trans h.inFlight, h.nodup⟩

/-- A read begins of a node that is not in flight. -/
theorem Tracked.push {now : Moment n c V W} (h : Tracked now) {node : Fin n}
    (hnot : node ∉ now.state.inFlight) : Tracked (now.enter system node) where
  inFlight := congrArg (node :: ·) h.inFlight
  nodup := by
    rw [h.inFlight] at hnot
    exact List.nodup_cons.mpr ⟨hnot, h.nodup⟩

/-- A read ends, and its node is the only one that goes. -/
theorem Tracked.pop (h : Tracked ⟨task, f :: stack, s, past⟩) (hs : s'.inFlight = s.inFlight) :
    Tracked ⟨task', stack, s'.exit f.node, past'⟩ where
  inFlight := by
    have hinFlight : s'.inFlight = f.node :: stack.map Frame.node := hs.trans h.inFlight
    show s'.inFlight.erase f.node = stack.map Frame.node
    rw [hinFlight, List.erase_cons_head]
  nodup := (List.nodup_cons.mp h.nodup).2

variable [BEq V]

/-- **Preserved by every step.** -/
theorem tracked_step (a b : Moment n c V W) (hs : Step system a b) (h : Tracked a) : Tracked b := by
  cases hs with
  | refused _ _ => exact h.of_same rfl
  | entered _ hnot => exact h.push hnot
  | unchanged _ | recomputing _ => exact h.of_same rfl
  | cell | get | set | runs | look | leave | unwind => exact h.of_same rfl
  | succeeded | failed | answered | unwound => exact h.pop rfl
  | caught => exact h.pop (f := ⟨_, _⟩) rfl

theorem tracked_reached {program : Recipe n c V W} {cells : Vector V c} {outside : W}
    {now : Moment n c V W} (h : Reaches system (.start program cells outside) now) : Tracked now :=
  h.keeps tracked_step (tracked_start program cells outside)

/-! ## What becomes of a read that is asked for -/

/-- Where a node is to be read, nothing else can be done. -/
theorem step_of_asks {now later : Moment n c V W} {node : Fin n}
    (hasks : now.doing.asks? = some node) (hs : Step system now later) :
    (node ∈ now.state.inFlight ∧ later = now.refuse node)
    ∨ (node ∉ now.state.inFlight ∧ later = now.enter system node) := by
  cases hs with
  | refused hasks' hin =>
    cases hasks.symm.trans hasks'
    exact .inl ⟨hin, rfl⟩
  | entered hasks' hnot =>
    cases hasks.symm.trans hasks'
    exact .inr ⟨hnot, rfl⟩
  | _ => cases hasks

theorem step_iff_refuse {now : Moment n c V W} {node : Fin n}
    (hasks : now.doing.asks? = some node) (hin : node ∈ now.state.inFlight)
    (later : Moment n c V W) : Step system now later ↔ later = now.refuse node := by
  constructor
  · intro hs
    rcases step_of_asks hasks hs with ⟨-, hlater⟩ | ⟨hnot, -⟩
    · exact hlater
    · exact absurd hin hnot
  · intro hlater
    rw [hlater]
    exact .refused hasks hin

theorem step_iff_enter {now : Moment n c V W} {node : Fin n}
    (hasks : now.doing.asks? = some node) (hnot : node ∉ now.state.inFlight)
    (later : Moment n c V W) : Step system now later ↔ later = now.enter system node := by
  constructor
  · intro hs
    rcases step_of_asks hasks hs with ⟨hin, -⟩ | ⟨-, hlater⟩
    · exact absurd hin hnot
    · exact hlater
  · intro hlater
    rw [hlater]
    exact .entered hasks hnot

/--
**The nodes in flight are the stack of reads**, at every moment of every run.

A read of a node on the stack is refused by its own name and changes nothing; every other read goes
ahead to the inputs of its node. Whenever the stack is what it was, so are the nodes in flight. That
goes for each read from outside or inside: it comes to an end, and however it ends, by a value, an
error or an unwinding, the nodes in flight are what they were before. The last part says which
moments a read has.
-/
theorem inFlight_eq_reads {program : Recipe n c V W} {cells : Vector V c} {outside : W}
    {now : Moment n c V W} (h : Reaches system (.start program cells outside) now) :
    (now.state.inFlight = now.reads ∧ now.reads.Nodup)
    ∧ (∀ node ∈ now.reads,
        (∀ fuel, readWithin system (fuel + 1) node now.state
          = .returned (.error (.circular node)) now.state)
        ∧ (now.doing.asks? = some node →
            ∀ later, Step system now later ↔ later = now.refuse node))
    ∧ (∀ node, node ∉ now.reads →
        (∀ fuel, Course system (readWithin system fuel) node now.state
          (readWithin system (fuel + 1) node now.state))
        ∧ (now.doing.asks? = some node →
            ∀ later, Step system now later ↔ later = now.enter system node))
    ∧ (∀ later, Reaches system now later → later.stack = now.stack →
        later.state.inFlight = now.state.inFlight)
    ∧ ∀ node fuel,
        (n < fuel → readWithin system fuel node now.state ≠ .exhausted)
        ∧ (∀ s', (readWithin system fuel node now.state).state? = some s' →
            s'.inFlight = now.state.inFlight)
        ∧ (now.doing.asks? = some node →
            LeadsTo system now now.stack now.doing.resume
              (readWithin system fuel node now.state)) := by
  have ht := tracked_reached h
  refine ⟨⟨ht.inFlight, ht.nodup⟩, ?_, ?_, ?_, ?_⟩
  · intro node hin
    rw [← ht.inFlight] at hin
    exact ⟨readWithin_of_inFlight system hin, fun hasks => step_iff_refuse hasks hin⟩
  · intro node hnot
    rw [← ht.inFlight] at hnot
    exact ⟨readWithin_course system hnot, fun hasks => step_iff_enter hasks hnot⟩
  · intro later hlater hstack
    have ht' := hlater.keeps tracked_step ht
    rw [ht.inFlight, ht'.inFlight, Moment.reads, Moment.reads, hstack]
  · intro node fuel
    refine ⟨?_, ?_, ?_⟩
    · intro hfuel
      exact readWithin_ends (ht.inFlight ▸ ht.nodup) (by omega) node
    · intro s' hs'
      exact (readWithin_sparing system fuel node _ s' hs').inFlight
    · exact readWithin_leadsTo system fuel now.doing node now.stack now.state now.past

/-- One node takes no notice of what it reads and unwinds; the other one reads it and takes no
notice either. -/
def heedless (first second : Fin n) : System n c Nat W where
  inputs _ := []
  recipe node _ :=
    if node = first then .read second fun _ => .unwind else .read first fun _ => .pure 7

/-- Inside the second node the first one is refused. Then both reads end, one of them by unwinding,
and no node is left in flight. -/
theorem inFlight_eq_reads_heedless :
    (∃ now : Moment 2 0 Nat Unit,
      Reaches (heedless 0 1) (.start (.read 0 .done) #v[] ()) now
      ∧ now.reads = [1, 0] ∧ now.state.inFlight = [1, 0] ∧ now.doing.asks? = some 0
      ∧ (∀ later, Step (heedless 0 1) now later ↔ later = now.refuse 0)
      ∧ (heedless 0 1).read 0 now.state = .returned (.error (.circular 0)) now.state)
    ∧ ∃ s : State 2 0 Nat Unit, (heedless 0 1).read 0 (.start #v[] ()) = .unwound s
      ∧ s.runCount 0 = 1 ∧ s.runCount 1 = 1 ∧ s.inFlight = [] := by
  have hstart : Reaches (heedless (0 : Fin 2) 1) (.start (.read 0 .done) #v[] ()) _ := .refl
  have h : Reaches (heedless (0 : Fin 2) 1) (.start (.read 0 .done) #v[] ()) _ :=
    (((hstart.tail (.entered rfl (by decide))).tail (.recomputing rfl)).tail
      (.entered rfl (by decide))).tail (.recomputing rfl)
  refine ⟨?_, ?_⟩
  · obtain ⟨⟨hinFlight, -⟩, hrefused, -⟩ := inFlight_eq_reads h
    obtain ⟨hread, hstep⟩ := hrefused 0 (by decide)
    exact ⟨_, h, rfl, hinFlight, rfl, hstep rfl, hread 2⟩
  · obtain ⟨-, -, -, -, hends⟩ := inFlight_eq_reads hstart
    obtain ⟨-, hsame, -⟩ := hends 0 3
    exact ⟨_, rfl, rfl, rfl, hsame _ rfl⟩

end Recurrence.Reactive
