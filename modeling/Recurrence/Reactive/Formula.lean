import Recurrence.Reactive.Datum
import Recurrence.Reactive.Read

/-!
# Formulas

A formula is a recipe made of fixed parts: a lower bound for the inputs, nodes to read on the side,
cells to set, and a way to combine the values into one.
-/

namespace Recurrence.Reactive

/-- A way to combine values. -/
inductive Aggregate where
  | sum
  | list
  | len
  | first
  | concat
  | div
deriving DecidableEq, Repr

/-- What a formula's combination yields: a datum or a reason for failing. -/
abbrev Combined := Except String Datum

namespace Aggregate

/-- The integers, if there is nothing else. -/
def integers? : List Datum → Option (List Int64)
  | [] => some []
  | .int n :: rest => do return n :: (← integers? rest)
  | _ :: _ => none

/-- The numbers as floating-point numbers, if there is nothing else. -/
def floats? : List Datum → Option (List Float)
  | [] => some []
  | .int n :: rest => do return n.toFloat :: (← floats? rest)
  | .float bits :: rest => do return Float.ofBits bits :: (← floats? rest)
  | _ :: _ => none

/-- Integers wrap around; as soon as there is another number, all are added from the left as
floating-point numbers. -/
def sumOf (vs : List Datum) : Combined :=
  match integers? vs with
  | some ns => .ok (.int (ns.foldl (· + ·) 0))
  | none =>
    match floats? vs with
    | some xs => .ok (.float (xs.foldl (· + ·) 0.0).toBits)
    | none => .error "not a number"

def concatOf : List Datum → Except String (List Char)
  | [] => .ok []
  | .int n :: rest => do return intChars n.toInt ++ (← concatOf rest)
  | .text s :: rest => do return s.toList ++ (← concatOf rest)
  | _ :: _ => .error "not text"

/-- The quotient of the first two, without its fraction. -/
def divOf : List Datum → Combined
  | .int a :: .int b :: _ => if b = 0 then .error "division by zero" else .ok (.int (a / b))
  | _ => .error "not integers"

def combine : Aggregate → List Datum → Combined
  | .sum, vs => sumOf vs
  | .list, vs => .ok (.list vs)
  | .len, vs => .ok (.int (Int64.ofNat vs.length))
  | .first, [] => .error "no inputs"
  | .first, v :: _ => .ok v
  | .concat, vs => do return .text (String.ofList (← concatOf vs))
  | .div, vs => divOf vs

end Aggregate

/-- The parts of a recipe. -/
structure Formula (n c : Nat) where
  /-- Inputs below this bound are refused. -/
  lowerBound : Option Int64
  reads : List (Fin n)
  /-- Nodes whose errors are taken as texts. -/
  attempts : List (Fin n)
  sets : List (Fin c × Datum)
  /-- Is the number of this run a value too? -/
  countsRuns : Bool
  aggregate : Aggregate

namespace Formula

variable {n c : Nat} {W : Type}

/-- The first integer below a bound. -/
def tooLow? (bound : Int64) (vs : List Datum) : Option Int64 :=
  vs.findSome? fun
    | .int v => if v < bound then some v else none
    | _ => none

/-- Reads nodes one after the other, given what to do with their values. -/
def readAll : List (Fin n) → (List Datum → Recipe n c Datum W) → Recipe n c Datum W
  | [], next => next []
  | node :: rest, next => .value node fun v => readAll rest fun vs => next (v :: vs)

/-- Reads nodes one after the other; an error counts as its text. -/
def attemptAll : List (Fin n) → (List Datum → Recipe n c Datum W) → Recipe n c Datum W
  | [], next => next []
  | node :: rest, next =>
    .read node fun result =>
      let v := match result with
        | .ok v => v
        | .error e => .text e.message
      attemptAll rest fun vs => next (v :: vs)

def setAll : List (Fin c × Datum) → Recipe n c Datum W → Recipe n c Datum W
  | [], next => next
  | (cell, v) :: rest, next => .set cell v (setAll rest next)

/-- Combines all values. -/
def finish (f : Formula n c) (vs : List Datum) : Recipe n c Datum W :=
  match f.aggregate.combine vs with
  | .ok v => .pure v
  | .error reason => .fail reason

/-- The recipe of a formula. -/
def recipe (f : Formula n c) (self : Fin n) (inputs : List Datum) : Recipe n c Datum W :=
  match f.lowerBound.bind fun bound => (tooLow? bound inputs).map (bound, ·) with
  | some (bound, v) =>
    .fail ("input below " ++ intText bound.toInt ++ ": " ++ intText v.toInt)
  | none =>
    .runs self fun count =>
      readAll f.reads fun read =>
        attemptAll f.attempts fun attempted =>
          setAll f.sets <|
            finish f (inputs ++ read ++ attempted ++
              if f.countsRuns then [.int (Int64.ofNat count)] else [])

end Formula

end Recurrence.Reactive
