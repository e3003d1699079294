import Recurrence.Detector
import Recurrence.Expansion.Basic

/-!
# Long division

Dividing by hand brings down one zero after the other: each step turns a remainder into a digit and
the next remainder. There are fewer remainders than the divisor, so the division either comes out
even or meets a remainder again, and from the first sighting of that remainder on the digits repeat.
-/

namespace Recurrence

/-- Why a fraction has no expansion. -/
inductive DivisionError where
  | divisionByZero (numerator : Int)
  /-- The digits repeat from `start`, and the division may not repeat. -/
  | repeating (start position : Nat)
deriving DecidableEq, Repr

def DivisionError.message : DivisionError → String
  | .divisionByZero numerator => "Division by zero. numerator: " ++ intText numerator
  | .repeating start position =>
    "Expansion does not terminate. repeats from digit: " ++ natText start
      ++ ", detected at digit: " ++ natText position

namespace LongDivision

/-- One digit of a division and the remainder it leaves. -/
structure Step where
  digit : Digit
  remainder : Nat
deriving DecidableEq, Repr

/-- Brings down a zero. -/
def Step.next (divisor remainder : Nat) : Step :=
  ⟨.ofNat (remainder * 10 / divisor), remainder * 10 % divisor⟩

/-- How a division ends. -/
inductive Ending where
  /-- Nothing remains. -/
  | exact
  /-- A remainder came back. -/
  | recurred (verdict : Detector.Verdict)
deriving DecidableEq, Repr

/--
Divides until nothing remains or a remainder comes back; `done` holds the steps so far, latest
first, and `position` counts them. Each step uses up one remainder below the divisor, so a fuel of
`divisor` steps never runs out.
-/
def run (divisor : Nat) :
    (fuel : Nat) → Detector Nat → (done : List Step) → (position remainder : Nat) →
      List Step × Ending
  | 0, _, done, _, _ => (done.reverse, .exact)
  | fuel + 1, seen, done, position, remainder =>
    if remainder = 0 then (done.reverse, .exact)
    else
      match seen.observe remainder position with
      | (seen, none) =>
        let step := Step.next divisor remainder
        run divisor fuel seen (step :: done) (position + 1) step.remainder
      | (_, some verdict) => (done.reverse, .recurred verdict)

/-- The division of a proper fraction. -/
def ofFraction (mode : Detector.Mode) (numerator divisor : Nat) : List Step × Ending :=
  run divisor divisor (Detector.new mode) [] 0 numerator

def Step.log (s : Step) : Log.Line :=
  ⟨.trace, "Long division step. digit: " ++ natText s.digit.val
    ++ ", remainder: " ++ natText s.remainder⟩

end LongDivision

namespace Expansion

/-- A quotient is negative when its two parts differ in sign; zero has no sign. -/
def isNegativeQuotient (n d : Int) : Bool := n != 0 && (n < 0) != (d < 0)

/-- The expansion of `n / d`. -/
def ofFraction (mode : Detector.Mode) (n d : Int) : Except DivisionError Expansion :=
  if d = 0 then .error (.divisionByZero n)
  else
    let (steps, ending) := LongDivision.ofFraction mode (n.natAbs % d.natAbs) d.natAbs
    let expansion := ofDigits (isNegativeQuotient n d) (n.natAbs / d.natAbs) (steps.map (·.digit))
    match ending with
    | .exact => .ok (expansion none)
    | .recurred (.cycle start _) => .ok (expansion (some start))
    | .recurred (.refused start position) | .recurred (.backwards start position) =>
      .error (.repeating start position)

/-- What a division reports: its steps, and the remainder that came back. -/
def divisionLog (mode : Detector.Mode) (n d : Int) : List Log.Line :=
  if d = 0 then []
  else
    let proper := n.natAbs % d.natAbs
    let (steps, ending) := LongDivision.ofFraction mode proper d.natAbs
    let last := (steps.getLast?.map (·.remainder)).getD proper
    steps.map (·.log) ++
      match ending with
      | .exact => []
      | .recurred verdict =>
        verdict.log (natText last) steps.length ::
          match verdict with
          | .cycle start length =>
            [⟨.debug, "Repeating expansion. numerator: " ++ intText n ++ ", denominator: "
              ++ intText d ++ ", start: " ++ natText start ++ ", length: " ++ natText length⟩]
          | _ => []

end Expansion

end Recurrence
