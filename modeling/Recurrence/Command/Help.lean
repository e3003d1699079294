import Recurrence.Command.Grammar

/-!
# Help pages

A page is made of sections of rows. The short layout puts each row on one line and aligns the help;
the long layout gives each row a block of lines, with room for the help of each allowed value. Only
a page that has such help has a long layout.
-/

namespace Recurrence.Command

/-- What a page says about one thing. -/
structure HelpRow where
  label : String
  help : String
  default : Option String := none
  choices : List (String × String) := []

structure HelpPage where
  about : Option String
  usage : String
  sections : List (String × List HelpRow)

/-- Text filled up with blanks to a width. -/
def padded (width : Nat) (s : String) : String :=
  s ++ String.ofList (List.replicate (width - s.length) ' ')

/-- The greatest width of some texts. -/
def widest (texts : List String) : Nat := texts.foldl (fun n s => max n s.length) 0

namespace HelpRow

/-- How an option is written. -/
def ofOption (o : Opt) : HelpRow where
  label :=
    (match o.short with
      | some c => "-" ++ c.toString ++ ", "
      | none => "    ")
    ++ "--" ++ o.long
    ++ (match o.value with
      | none => "..."
      | some v => if v.implied.isSome then " [<" ++ v.name ++ ">]" else " <" ++ v.name ++ ">")
  help := o.help
  default := o.value.bind (·.default)
  choices := (o.value.map (·.choices)).getD []

def ofPositional (p : Positional) : HelpRow where
  label := "<" ++ p.name ++ ">"
  help := p.help

def helpFlag (help : String) : HelpRow where
  label := "-h, --help"
  help := help

def versionFlag : HelpRow where
  label := "-V, --version"
  help := "Print version"

/-- The row on one line. -/
def short (width : Nat) (row : HelpRow) : String :=
  "  " ++ padded width row.label ++ "  " ++ row.help
    ++ (row.default.elim "" fun d => " [default: " ++ d ++ "]")
    ++ (if row.choices.isEmpty then ""
      else " [possible values: " ++ ", ".intercalate (row.choices.map (·.1)) ++ "]")
    ++ "\n"

/-- The margin of the long layout. -/
def margin : String := "          "

/-- The row as a block of lines. -/
def long (row : HelpRow) : String :=
  let width := widest (row.choices.map (·.1)) + 1
  "  " ++ row.label ++ "\n" ++ margin ++ row.help ++ "\n"
    ++ (if row.choices.isEmpty then ""
      else "\n" ++ margin ++ "Possible values:\n"
        ++ String.join (row.choices.map fun c =>
          margin ++ "- " ++ padded width (c.1 ++ ":") ++ " " ++ c.2 ++ "\n"))
    ++ (row.default.elim "" fun d => margin ++ "\n" ++ margin ++ "[default: " ++ d ++ "]\n")

end HelpRow

namespace HelpPage

/-- Does some row have more to say than fits its line? -/
def hasLong (page : HelpPage) : Bool :=
  page.sections.any fun s => s.2.any fun row => !row.choices.isEmpty

def head (page : HelpPage) : String :=
  (page.about.elim "" fun about => about ++ "\n\n") ++ "Usage: " ++ page.usage ++ "\n"

def shortText (page : HelpPage) : String :=
  page.head ++ String.join (page.sections.map fun s =>
    "\n" ++ s.1 ++ ":\n" ++ String.join (s.2.map (HelpRow.short (widest (s.2.map (·.label))))))

def longText (page : HelpPage) : String :=
  page.head ++ String.join (page.sections.map fun s =>
    "\n" ++ s.1 ++ ":\n" ++ "\n".intercalate (s.2.map HelpRow.long))

end HelpPage

/-- The page of a command, given what it says about its own flag. -/
def CommandSpec.page (spec : CommandSpec) (aboutHelp : String) : HelpPage where
  about := some spec.about
  usage := programName ++ " " ++ spec.name ++ " [OPTIONS]"
    ++ String.join (spec.positionals.map fun p => " <" ++ p.name ++ ">")
  sections :=
    (if spec.positionals.isEmpty then []
      else [("Arguments", spec.positionals.map HelpRow.ofPositional)])
    ++ [("Options", spec.options.map HelpRow.ofOption ++ [HelpRow.helpFlag aboutHelp])]

/-- The help of a command, in the long layout if it is asked for and there is one. -/
def CommandSpec.helpText (spec : CommandSpec) (long : Bool) : String :=
  if !(spec.page "").hasLong then (spec.page "Print help").shortText
  else if long then (spec.page "Print help (see a summary with '-h')").longText
  else (spec.page "Print help (see more with '--help')").shortText

/-- The help of the whole program. -/
def programHelp : String :=
  HelpPage.shortText
    { about := none
      usage := programName ++ " [OPTIONS] <COMMAND>"
      sections :=
        [ ("Commands", commandSpecs.map (fun spec => { label := spec.name, help := spec.about })
            ++ [{ label := helpCommand, help := helpAbout }]),
          ("Options", programOptions.map HelpRow.ofOption
            ++ [HelpRow.helpFlag "Print help", HelpRow.versionFlag]) ] }

/-- The help of the command for help. -/
def helpHelp : String :=
  HelpPage.shortText
    { about := some helpAbout
      usage := programName ++ " " ++ helpCommand ++ " [COMMAND]..."
      sections :=
        [("Arguments", [{ label := "[COMMAND]...", help := "Print help for the subcommand(s)" }])] }

end Recurrence.Command
