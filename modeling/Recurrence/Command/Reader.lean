import Recurrence.Command.Grammar

/-!
# Reading a command line

Arguments are read from the left. A value is checked only when the next thing starts, or at the end;
so a request for help wins over every fault behind it and loses against every fault before it.
-/

namespace Recurrence.Command

/-- Why reading ends early. -/
inductive Stop where
  /-- The line breaks the grammar. -/
  | usage
  | help (long : Bool)
  | version
deriving DecidableEq, Repr

/-- What was found on a line. -/
structure Found where
  words : List String := []
  /-- The options with their values. -/
  values : List (String × String) := []
  /-- The flags, each as often as it was given. -/
  flags : List String := []

/-- A value that was read and not yet checked. -/
inductive Pending where
  /-- An option, and its value if there was one. -/
  | option (o : Opt) (v : OptionValue) (text : Option String)
  | word (p : Positional) (text : String)

/-- How far reading has come. -/
structure Scan where
  found : Found := {}
  pending : Option Pending := none
  /-- After two dashes everything is a word. -/
  onlyWords : Bool := false

/-- The kinds of arguments. -/
inductive Token where
  | escape
  | long (name : List Char) (value : Option (List Char))
  | short (flags : List Char)
  | word

/-- A lone dash is a word. -/
def Token.ofChars : List Char → Token
  | ['-', '-'] => .escape
  | '-' :: '-' :: cs =>
    match cs.dropWhile (· ≠ '=') with
    | [] => .long cs none
    | _ :: value => .long (cs.takeWhile (· ≠ '=')) (some value)
  | '-' :: c :: cs => .short (c :: cs)
  | _ => .word

namespace Scan

/-- Notes an option's value; each option may have one. -/
def addValue (s : Scan) (o : Opt) (v : OptionValue) (text : String) : Except Stop Scan :=
  if s.found.values.any (·.1 == o.long) || !v.accepts text then .error .usage
  else .ok { s with found := { s.found with values := s.found.values ++ [(o.long, text)] } }

/-- Checks what is pending. -/
def settle (s : Scan) : Except Stop Scan :=
  let rest := { s with pending := none }
  match s.pending with
  | none => .ok rest
  | some (.option o v (some text)) => rest.addValue o v text
  | some (.option o v none) =>
    match v.implied with
    | none => .error .usage
    | some text => rest.addValue o v text
  | some (.word p text) =>
    if p.accepts text then
      .ok { rest with found := { rest.found with words := rest.found.words ++ [text] } }
    else .error .usage

/-- Notes a flag. -/
def addFlag (s : Scan) (o : Opt) : Except Stop Scan := do
  let s ← s.settle
  return { s with found := { s.found with flags := s.found.flags ++ [o.long] } }

/-- Ends reading with a request. -/
def request (s : Scan) (stop : Stop) : Except Stop Scan := do
  let _ ← s.settle
  .error stop

/-- Is an option waiting for its value? -/
def awaiting (s : Scan) : Option (Opt × OptionValue) :=
  match s.pending with
  | some (.option o v none) => some (o, v)
  | _ => none

end Scan

/-- What can be given beside words: options, and whether the version can be asked for. -/
structure Level where
  options : List Opt
  hasVersion : Bool

namespace Level

/-- Reads an argument that starts with two dashes. -/
def readLong (level : Level) (s : Scan) (name : List Char) (value : Option (List Char)) :
    Except Stop Scan :=
  match level.options.find? fun o => o.long.toList == name with
  | some o =>
    match o.value, value with
    | none, none => s.addFlag o
    | none, some _ => .error .usage
    | some v, some text => do (← s.settle).addValue o v (String.ofList text)
    | some v, none => do return { (← s.settle) with pending := some (.option o v none) }
  | none =>
    if value.isSome then .error .usage
    else if name = "help".toList then s.request (.help true)
    else if level.hasVersion ∧ name = "version".toList then s.request .version
    else .error .usage

/-- Reads flags of one character each. -/
def readShort (level : Level) (s : Scan) : List Char → Except Stop Scan
  | [] => .ok s
  | c :: cs =>
    match level.options.find? fun o => o.short == some c with
    | some o => do level.readShort (← s.addFlag o) cs
    | none =>
      if c = 'h' then s.request (.help false)
      else if level.hasVersion ∧ c = 'V' then s.request .version
      else .error .usage

end Level

/-- How often a flag was given. -/
def Found.count (f : Found) (o : Opt) : Nat := f.flags.count o.long

/-- The value of an option, if it was given. -/
def Found.value? (f : Found) (o : Opt) : Option String :=
  (f.values.find? fun e => e.1 == o.long).map (·.2)

/-- Checks the end of a level: more and less cannot both be asked for. -/
def Scan.finish (s : Scan) : Except Stop Found := do
  let s ← s.settle
  if s.found.count verbose ≠ 0 ∧ s.found.count quiet ≠ 0 then .error .usage else .ok s.found

namespace CommandSpec

def level (spec : CommandSpec) : Level := ⟨spec.options, false⟩

/-- Reads a word: it is the positional value whose turn it is. -/
def readWord (spec : CommandSpec) (s : Scan) (text : String) : Except Stop Scan := do
  let s ← s.settle
  match spec.positionals[s.found.words.length]? with
  | none => .error .usage
  | some p => .ok { s with pending := some (.word p text) }

/-- Reads one argument of a command. -/
def readOne (spec : CommandSpec) (s : Scan) (text : String) : Except Stop Scan :=
  let valueOrWord : Except Stop Scan :=
    match s.awaiting with
    | some (o, v) => .ok { s with pending := some (.option o v (some text)) }
    | none => spec.readWord s text
  if s.onlyWords then spec.readWord s text
  else
    match Token.ofChars text.toList with
    | .escape => .ok { s with onlyWords := true }
    | .long name value => spec.level.readLong s name value
    | .short flags =>
      if spec.negativeNumbers && isNegativeNumber text.toList then valueOrWord
      else spec.level.readShort s flags
    | .word => valueOrWord

/-- Reads the arguments of a command. -/
def read (spec : CommandSpec) (arguments : List String) : Except Stop Found := do
  let s ← arguments.foldlM spec.readOne {}
  let found ← s.finish
  if found.words.length = spec.positionals.length then .ok found else .error .usage

end CommandSpec

/-- What a whole line asks for. -/
inductive Request where
  | usage
  | version
  /-- Nothing at all was given. -/
  | nothing
  | programHelp
  | commandHelp (spec : CommandSpec) (long : Bool)
  | helpHelp
  | command (program : Found) (spec : CommandSpec) (own : Found)

def programLevel : Level := ⟨programOptions, true⟩

/-- The help that is asked for by words. -/
def requestHelp : List String → Request
  | [] => .programHelp
  | [name] =>
    if name = helpCommand then .helpHelp
    else
      match commandSpec? name with
      | some spec => .commandHelp spec true
      | none => .usage
  | _ => .usage

def Request.ofStop (help : Bool → Request) : Stop → Request
  | .usage => .usage
  | .version => .version
  | .help long => help long

/-- Reads the arguments of a command, then checks what stood in front of it. -/
def readCommand (program : Scan) (spec : CommandSpec) (rest : List String) : Request :=
  match spec.read rest with
  | .error stop => .ofStop (.commandHelp spec) stop
  | .ok own =>
    match program.finish with
    | .error stop => .ofStop (fun _ => .programHelp) stop
    | .ok found => .command found spec own

/-- Is there anything in front of the command? -/
def Scan.isBlank (s : Scan) : Bool :=
  s.pending.isNone && s.found.flags.isEmpty && s.found.values.isEmpty

/-- Reads a line from its start or from somewhere in front of the command. -/
def readLine (s : Scan) : List String → Request
  | [] => if s.isBlank then .nothing else .usage
  | text :: rest =>
    if s.onlyWords then .usage
    else
      let go (next : Except Stop Scan) : Request :=
        match next with
        | .ok s => readLine s rest
        | .error stop => .ofStop (fun _ => .programHelp) stop
      match Token.ofChars text.toList with
      | .escape => readLine { s with onlyWords := true } rest
      | .long name value => go (programLevel.readLong s name value)
      | .short flags => go (programLevel.readShort s flags)
      | .word =>
        match s.awaiting with
        | some (o, v) => readLine { s with pending := some (.option o v (some text)) } rest
        | none =>
          if text = helpCommand then requestHelp rest
          else
            match commandSpec? text with
            | some spec => readCommand s spec rest
            | none => .usage

end Recurrence.Command
