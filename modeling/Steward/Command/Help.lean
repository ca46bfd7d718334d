import Steward.Command

/-!
# Help

What the program prints when it is asked for help.
-/

namespace Steward.Command

/-- A text with spaces after it up to a width. -/
def padded (width : Nat) (s : String) : String :=
  s ++ String.ofList (List.replicate (width - s.length) ' ')

/-- A table of two columns, each line ended. -/
def columns (rows : List (String × String)) : String :=
  let width := rows.foldl (fun w r => max w r.1.length) 0
  String.join (rows.map fun (l, r) => "  " ++ padded width l ++ "  " ++ r ++ "\n")

/-- The option of a command's own, as help shows it. -/
def optionRow? : CommandOption → Option (String × String)
  | .tail => some ("    --tail <TAIL>", "[default: 20]")
  | .days => some ("    --days <DAYS>", "[default: 7]")
  | .olderThan => some ("    --older-than <OLDER_THAN>", "")
  | .workspace => none

def optionRows (c : Option CommandName) : List (String × String) :=
  ((c.bind (·.option?)).bind optionRow?).toList ++
    [("    --workspace <WORKSPACE>",
        "Workspace root (default: $JARVIS_WORKSPACE, then the current directory)"),
     ("-v, --verbose", "Debug-level logs on stderr"),
     ("-h, --help", "Print help")]

/-- The help on the program or on a command. -/
def helpText : Option CommandName → String
  | none =>
    "Constitutional code governance: rule-gated scan, heal and audit of a git workspace\n\n" ++
      "Usage: jarvis [OPTIONS] <COMMAND>\n\nCommands:\n" ++
      columns (CommandName.all.map (fun c => (c.name, c.about)) ++
        [("help", "Print this message or the help of the given subcommand(s)")]) ++
      "\nOptions:\n" ++ columns (optionRows none)
  | some c =>
    c.about ++ "\n\nUsage: jarvis " ++ c.name ++ " [OPTIONS]" ++
      (if c.takesPath then " <PATH>\n\nArguments:\n  <PATH>  \n" else "\n") ++
      "\nOptions:\n" ++ columns (optionRows (some c))

end Steward.Command
