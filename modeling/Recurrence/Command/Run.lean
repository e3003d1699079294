import Recurrence.Command.Reactivity
import Recurrence.Command.Task
import Recurrence.Expansion.Division
import Recurrence.Expansion.Text
import Recurrence.Memo.Ackermann
import Recurrence.Memo.Run
import Recurrence.Text.Quoted

/-!
# Running tasks

Each task shows one part of the library at work, and the demonstration shows them all. A task needs
nothing but its values, so its report is the same whenever and wherever it runs.
-/

namespace Recurrence.Command

/-- Divides, and shows the expansion. -/
def divide (n d : Int) (mode : Detector.Mode) : Report :=
  (Report.note (Expansion.divisionLog mode n d)).andThen <|
    match Expansion.ofFraction mode n d with
    | .ok e => .say (intText n ++ "/" ++ intText d ++ " = " ++ e.text)
    | .error e => .fail e.message

/-- The policy of a cache for one run of the program, in which only the monotonic hand moves. -/
def CacheKind.policy (capacity ttlMillis : Nat) : CacheKind → Cache.Policy
  | .plain => .plain
  | .manual => .manual
  | .ttl => .ttl .monotonic (.ofMillis ttlMillis)
  | .lru => .lru capacity

/-- More calls than any task puts inside each other. -/
def callDepth : Nat := 1000000

/-- Calls a single memoizer that holds nothing yet, and goes on with the result and with what the
computations have left outside. -/
def reportCall {K V W : Type} [DecidableEq K] (shown : K → String) (policy : Cache.Policy)
    (body : Fin 1 → K → Computation 1 K V W) (key : K) (outside : W)
    (next : MemoResult K V → W → Report) : Report :=
  match Memo.call body callDepth 0 key (.start #v[policy] outside) with
  | .returned result s =>
    (Report.note (s.log.reverse.map (·.line shown))).andThen (next result s.outside)
  | .unwound cause _ => .fail cause.message
  | .exhausted => .fail "too many calls inside each other"

/-- Two unsigned words as they are shown. -/
def argumentsText (arguments : Ackermann.Arguments) : String :=
  "(" ++ wordText arguments.1 ++ ", " ++ wordText arguments.2 ++ ")"

/-- Computes Ackermann's function, and shows how many computations it took. -/
def ackermann (m n : UInt64) (cache : CacheKind) (capacity ttlMillis : Nat) : Report :=
  reportCall argumentsText (cache.policy capacity ttlMillis) Ackermann.counted (m, n) 0
    fun result computations =>
      match result with
      | .ok v =>
        .all
          [ .note [⟨.info, "Computed Ackermann function. cache: "
              ++ Choice.titleOf cacheKinds cache ++ ", computations: " ++ natText computations⟩],
            .say ("ack" ++ argumentsText (m, n) ++ " = " ++ wordText v),
            .say ("computations: " ++ natText computations) ]
      | .error e => .fail (e.message argumentsText)

/-- Computations on unsigned words, which leave nothing outside. -/
abbrev OnWords := Computation 1 UInt64 UInt64 Unit

/-- A computation that asks for itself. -/
def stuck (self : Fin 1) (k : UInt64) : OnWords := .value self k .pure

/-- Factorials; a product that is no word unwinds the call. -/
def factorial (self : Fin 1) (k : UInt64) : OnWords :=
  if k = 0 then .pure 1
  else
    .checked (Overflow.difference k 1) fun below =>
      .value self below fun v => .checked (Overflow.product k v) .pure

/-- Shows a call that is refused beside one that only looks similar. -/
def reentrant (n : UInt64) : Report :=
  .all
    [ reportCall wordText .plain stuck n () fun result _ =>
        match result with
        | .error (.cycle key) =>
          .say ("stuck(" ++ wordText n ++ "): " ++ (MemoError.cycle key).message wordText)
        | .error (.failed reason) =>
          .fail ("Expected a cycle. result: Err(Failed \x7b reason: "
            ++ String.ofList (Text.quoteShown reason.toList) ++ " \x7d)")
        | .ok v => .fail ("Expected a cycle. result: Ok(" ++ wordText v ++ ")"),
      reportCall wordText .plain factorial n () fun result _ =>
        match result with
        | .ok v => .say ("factorial(" ++ wordText n ++ ") = " ++ wordText v)
        | .error e => .fail (e.message wordText) ]

/-- Shows an error in the place of an expansion. -/
def divideFailing (n d : Int) : Report :=
  .say (intText n ++ "/" ++ intText d ++ ": " ++ ((divide n d .describe).failure.getD ""))

/-- Shows everything. -/
def demo : Report :=
  .all
    [ .say "== division",
      divide 1 3 .describe, divide 1 7 .describe, divide 1 6 .describe, divide 1 4 .describe,
      divide 22 7 .describe, divide (-5) 3 .describe, divideFailing 1 0,
      .say "== memoization",
      ackermann 3 4 .plain 1 1000, reentrant 5,
      .say "== reactive",
      reactive ]

/-- What a task shows. -/
def Task.work : Task → Report
  | .divide n d mode => Command.divide n d mode
  | .ackermann m n cache capacity ttlMillis => Command.ackermann m n cache capacity ttlMillis
  | .reentrant n => Command.reentrant n
  | .reactive => Command.reactive
  | .demo => Command.demo

/-- Everything that running a task reports: the task first, and its end if it comes to one. -/
def Task.report (t : Task) : Report :=
  .all [.note [⟨.debug, "command: " ++ t.text⟩], t.work, .note [⟨.info, "Finished."⟩]]

end Recurrence.Command
