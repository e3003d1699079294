import Recurrence.Proofs.Memo.CallStack
import Recurrence.Proofs.Memo.Evaluation

/-!
# A memory holds values

Two facts go from moment to moment. A result that is held is the value of its key, if its key has
one; and a computation on the stack still has its value ahead of it, so it asks only for what its
key asks for. From the second fact a guard that refuses a key with a value would close a circle of
questions, and there is none below a key that evaluates.
-/

namespace Recurrence.Memo

open Cache (Slot)

variable {n : Nat} {K V W : Type} {body : Fin n → K → Computation n K V W}

/-! ## What a computation has ahead of it -/

/-- What the first computation comes to, the second one comes to as well, and it asks for nothing
more. -/
def Continues (body : Fin n → K → Computation n K V W) (c c' : Computation n K V W) : Prop :=
  ∀ r, Evaluates body c r → Evaluates body c' r ∧ ∀ x, Reads body c' x → Reads body c x

theorem Continues.refl (c : Computation n K V W) : Continues body c c :=
  fun _ h => ⟨h, fun _ hx => hx⟩

theorem Continues.trans {c₁ c₂ c₃ : Computation n K V W} (h : Continues body c₁ c₂)
    (h' : Continues body c₂ c₃) : Continues body c₁ c₃ := by
  intro r hr
  obtain ⟨hr₂, hx₂⟩ := h r hr
  obtain ⟨hr₃, hx₃⟩ := h' r hr₂
  exact ⟨hr₃, fun x hx => hx₂ x (hx₃ x hx)⟩

/-- A call goes on with the value of its key, if there is one. -/
theorem continues_call {m : Fin n} {key : K} {next : MemoResult K V → Computation n K V W}
    {answer : MemoResult K V} (h : ∀ a, Evaluates body (body m key) a → a = answer) :
    Continues body (.call m key next) (next answer) := by
  intro r hr
  cases hr with
  | @call _ _ _ a _ hkey hnext =>
    cases h a hkey
    exact ⟨hnext, fun _ hx => .later hkey hx⟩

/-- The end of a computation is its value. -/
theorem Continues.eq_of_done {c : Computation n K V W} {r a : MemoResult K V}
    (h : Continues body c (.done r)) (ha : Evaluates body c a) : a = r := by
  cases (h a ha).1
  rfl

/-- Each computation on the stack has its value ahead of it, and so has the program that set out at
the bottom; all but the innermost one still have to get their answer. -/
def Awaited (body : Fin n → K → Computation n K V W) (program : Computation n K V W) :
    Computation n K V W → List (Frame n K V W) → Prop
  | c, [] => Continues body program c
  | c, f :: stack =>
    Continues body (body f.memo f.key) c ∧ Awaited body program (.call f.memo f.key f.next) stack

section

variable {program : Computation n K V W}

theorem Awaited.continue {c c' : Computation n K V W} {stack : List (Frame n K V W)}
    (h : Awaited body program c stack) (hc : Continues body c c') :
    Awaited body program c' stack := by
  cases stack with
  | nil => exact h.trans hc
  | cons f stack => exact ⟨h.1.trans hc, h.2⟩

/-- The value of the innermost computation is the answer that the one below waits for. -/
theorem Awaited.pop {r : MemoResult K V} {f : Frame n K V W} {stack : List (Frame n K V W)}
    (h : Awaited body program (.done r) (f :: stack)) :
    Awaited body program (f.next r) stack :=
  h.2.continue (continues_call fun _ ha => h.1.eq_of_done ha)

/-- What is done evaluates if the program at the bottom does. -/
theorem Awaited.evaluates {c : Computation n K V W} {stack : List (Frame n K V W)}
    (h : Awaited body program c stack) {r : MemoResult K V} (hr : Evaluates body program r) :
    ∃ r', Evaluates body c r' := by
  induction stack generalizing c with
  | nil => exact ⟨r, (h r hr).1⟩
  | cons f stack ih =>
    obtain ⟨r', hcall⟩ := ih h.2
    cases hcall with
    | @call _ _ _ a _ hkey _ => exact ⟨a, (h.1 a hkey).1⟩

/-- The innermost computation as it was when it began. -/
def begun (body : Fin n → K → Computation n K V W) (program : Computation n K V W) :
    List (Frame n K V W) → Computation n K V W
  | [] => program
  | f :: _ => body f.memo f.key

theorem Awaited.continues {c : Computation n K V W} {stack : List (Frame n K V W)}
    (h : Awaited body program c stack) : Continues body (begun body program stack) c := by
  cases stack with
  | nil => exact h
  | cons f stack => exact h.1

theorem Awaited.begun_evaluates {c : Computation n K V W} {stack : List (Frame n K V W)}
    (h : Awaited body program c stack) {r : MemoResult K V} (hr : Evaluates body program r) :
    ∃ r', Evaluates body (begun body program stack) r' := by
  cases stack with
  | nil => exact ⟨r, hr⟩
  | cons f stack =>
    obtain ⟨r', hcall⟩ := h.2.evaluates hr
    cases hcall with
    | call hkey _ => exact ⟨_, hkey⟩

/-- Under a computation on the stack that has a value everything has a value, and is asked for by
it. -/
theorem Awaited.asked {c : Computation n K V W} {stack : List (Frame n K V W)}
    (h : Awaited body program c stack) {g : Frame n K V W} (hg : g ∈ stack) {r : MemoResult K V}
    (hr : Evaluates body (body g.memo g.key) r) :
    (∃ r', Evaluates body c r')
      ∧ ∀ x, Reads body c x → Relation.TransGen (Asks body) x (g.memo, g.key) := by
  induction stack generalizing c with
  | nil => exact absurd hg (by simp)
  | cons f stack ih =>
    obtain ⟨hc, hrest⟩ := h
    rcases List.mem_cons.mp hg with rfl | hg
    · obtain ⟨hc', hx⟩ := hc r hr
      exact ⟨⟨r, hc'⟩, fun x hxc => .single (hx x hxc)⟩
    · obtain ⟨⟨r', hcall⟩, hasked⟩ := ih hrest hg
      -- the computation below asks for this one, and so has a value for it
      cases hcall with
      | @call _ _ _ a _ hkey _ =>
        obtain ⟨hc', hx⟩ := hc a hkey
        have hasks : ∀ x, Reads body c x → Asks body x (f.memo, f.key) := hx
        exact ⟨⟨a, hc'⟩, fun x hxc => .head (hasks x hxc) (hasked _ .here)⟩

end

/-! ## The invariant -/

/-- The held results are values. -/
def Holds (body : Fin n → K → Computation n K V W) [DecidableEq K] (s : State n K V W) : Prop :=
  ∀ m key v, s.slot? m key = some (.resolved v) →
    ∀ a, Evaluates body (body m key) a → a = .ok v

variable [DecidableEq K] {program : Computation n K V W}

/-- What holds at every moment: the marks are the stack, the results are values, and the stack
waits for values. -/
structure Sound (body : Fin n → K → Computation n K V W) (program : Computation n K V W)
    (now : Moment n K V W) : Prop where
  marked : Marked now
  holds : Holds body now.state
  awaited : Awaited body program now.doing now.stack

theorem sound_start (program : Computation n K V W) (policies : Vector Cache.Policy n)
    (outside : W) : Sound body program (.start program policies outside) where
  marked := marked_start program policies outside
  holds := State.allGood_start policies outside
  awaited := .refl program

/-- A key that has a value has no mark when it is called: it would ask for itself. -/
theorem Sound.not_inFlight {m : Fin n} {key : K} {next : MemoResult K V → Computation n K V W}
    {stack : List (Frame n K V W)} {s : State n K V W}
    (h : Sound body program ⟨.call m key next, stack, s⟩) {a : MemoResult K V}
    (ha : Evaluates body (body m key) a) : ¬ s.InFlight m key := by
  intro hmark
  obtain ⟨g, hg, hkey⟩ := List.mem_map.mp ((h.marked.marks m key).mp hmark)
  have : Nonempty W := ⟨s.outside⟩
  cases hkey
  obtain ⟨-, hasked⟩ := h.awaited.asked hg ha
  exact ha.not_asks_itself (hasked _ .here)

/-- **Preserved by every step.** -/
theorem sound_step (a b : Moment n K V W) (hs : Step body a b) (h : Sound body program a) :
    Sound body program b := by
  have hmarked := marked_step a b hs h.marked
  have hholds : a.state.AllGood fun m key v => ∀ r, Evaluates body (body m key) r → r = .ok v :=
    h.holds
  have hawaited := h.awaited
  cases hs with
  | @hit m key _ _ s v hl =>
    have hheld := hholds m key v (State.slot?_of_lookup_hit hl)
    exact ⟨hmarked, hholds.lookup m key, hawaited.continue (continues_call hheld)⟩
  | @refused m key next stack s hl =>
    refine ⟨hmarked, hholds.lookup m key, hawaited.continue fun r hr => ?_⟩
    -- only a call that has no value can be refused, so nothing is claimed of what follows
    cases hr with
    | call ha _ => exact absurd (State.lookup_eq_inFlight_iff.mp hl) (h.not_inFlight ha)
  | @started m key next _ s _ =>
    exact ⟨hmarked, (hholds.lookup m key).begin m key, .refl _, hawaited⟩
  | succeeded =>
    exact ⟨hmarked, hholds.resolve fun _ ha => hawaited.1.eq_of_done ha, hawaited.pop⟩
  | @failed f _ _ _ => exact ⟨hmarked, hholds.abandon f.memo f.key, hawaited.pop⟩
  | probe =>
    refine ⟨hmarked, hholds, hawaited.continue fun r hr => ?_⟩
    cases hr with | probe h => exact ⟨h _ _, fun _ hx => .probe hx⟩
  | runs =>
    refine ⟨hmarked, hholds, hawaited.continue fun r hr => ?_⟩
    cases hr with | runs h => exact ⟨h _, fun _ hx => .runs hx⟩
  | advance hd =>
    refine ⟨hmarked, hholds.advance hd, hawaited.continue fun r hr => ?_⟩
    cases hr with | advance h => exact ⟨h, fun _ hx => .advance hx⟩
  | @clear m _ _ s =>
    refine ⟨hmarked, hholds.clear m, hawaited.continue fun r hr => ?_⟩
    cases hr with | clear h => exact ⟨h, fun _ hx => .clear hx⟩
  | @invalidate m key _ _ s =>
    refine ⟨hmarked, hholds.invalidate m key, hawaited.continue fun r hr => ?_⟩
    cases hr with | invalidate h => exact ⟨h, fun _ hx => .invalidate hx⟩
  | look =>
    refine ⟨hmarked, hholds, hawaited.continue fun r hr => ?_⟩
    cases hr with | look h => exact ⟨h _, fun _ hx => .look hx⟩
  | leave =>
    refine ⟨hmarked, hholds, hawaited.continue fun r hr => ?_⟩
    cases hr with | leave h => exact ⟨h, fun _ hx => .leave hx⟩
  | wait => exact ⟨hmarked, hholds, hawaited⟩

theorem sound_reached {policies : Vector Cache.Policy n}
    {outside : W} {now : Moment n K V W}
    (h : Reaches body (.start program policies outside) now) : Sound body program now :=
  h.keeps sound_step (sound_start program policies outside)

end Recurrence.Memo
