/-!
# Commands

What the program can be asked to do on its command line, and how its arguments are read. Options may
stand before or after the command and its path; after `--` nothing is an option. An option that
belongs to every command is taken from the command's own arguments first.
-/

namespace Steward

inductive CommandName where
  | init
  | scan
  | heal
  | audit
  | verifyAudit
  | rebuildIndex
  | activity
  | todos
  | opportunities
deriving DecidableEq, Repr

namespace CommandName

def all : List CommandName :=
  [init, scan, heal, audit, verifyAudit, rebuildIndex, activity, todos, opportunities]

def name : CommandName → String
  | init => "init"
  | scan => "scan"
  | heal => "heal"
  | audit => "audit"
  | verifyAudit => "verify-audit"
  | rebuildIndex => "rebuild-index"
  | activity => "activity"
  | todos => "todos"
  | opportunities => "opportunities"

def ofName? (s : String) : Option CommandName := all.find? (·.name = s)

def about : CommandName → String
  | init => "Create .jarvis/ with a default config and an empty audit log"
  | scan => "Report violations under a path"
  | heal => "Fix every fixable violation under a path the rules allow writing"
  | audit => "Print the last audit records"
  | verifyAudit => "Recompute every audit hash and link"
  | rebuildIndex => "Rebuild the memory index from history and a full scan"
  | activity => "Commits, changed files and new findings in a recent window"
  | todos => "Open TODO markers older than a number of days"
  | opportunities => "Suggested follow-ups (never applied without approval)"

/-- Whether the command is about a path. -/
def takesPath : CommandName → Bool
  | scan | heal => true
  | _ => false

end CommandName

/-- An option with a value. -/
inductive CommandOption where
  | workspace
  | tail
  | days
  | olderThan
deriving DecidableEq, Repr

namespace CommandOption

def name : CommandOption → String
  | workspace => "workspace"
  | tail => "tail"
  | days => "days"
  | olderThan => "older-than"

/-- The number that a text of digits gives, with an optional plus sign, up to a bound. -/
def count? (bound : Nat) (s : String) : Option Nat :=
  let ds :=
    match s.toList with
    | '+' :: ds => ds
    | ds => ds
  if ds.isEmpty || !ds.all Char.isDigit then none
  else
    let n := ds.foldl (fun n c => n * 10 + (c.toNat - 48)) 0
    if n ≤ bound then some n else none

/-- A number of days; zero may also have a minus sign. -/
def days? (s : String) : Option Nat :=
  match s.toList with
  | '-' :: ds => if !ds.isEmpty && ds.all (· = '0') then some 0 else none
  | _ => count? 4294967295 s

/-- Whether a value is one that the option takes. -/
def accepts (o : CommandOption) (value : String) : Bool :=
  match o with
  | workspace => !value.isEmpty
  | tail => (count? 18446744073709551615 value).isSome
  | days | olderThan => (days? value).isSome

end CommandOption

namespace CommandName

/-- The option of a command's own. -/
def option? : CommandName → Option CommandOption
  | audit => some .tail
  | activity => some .days
  | todos => some .olderThan
  | _ => none

end CommandName

/-- Arguments as far as they are read, of the program or of a command. -/
structure Arguments where
  values : List (CommandOption × String) := []
  verbose : Bool := false
  path : Option String := none
deriving Repr

namespace Arguments

def get? (a : Arguments) (o : CommandOption) : Option String := a.values.lookup o

/-- Takes an option's value in, if it is acceptable and the first. -/
def add? (a : Arguments) (o : CommandOption) (value : String) : Option Arguments :=
  if o.accepts value && (a.get? o).isNone then some { a with values := (o, value) :: a.values }
  else none

def setVerbose? (a : Arguments) : Option Arguments :=
  if a.verbose then none else some { a with verbose := true }

def setPath? (a : Arguments) (path : String) : Option Arguments :=
  if path.isEmpty || a.path.isSome then none else some { a with path := some path }

end Arguments

/-- How the reading of arguments ends. -/
inductive Reading where
  /-- At the end of the arguments, or at the name of a command. -/
  | done (a : Arguments) (next : Option (CommandName × List String))
  /-- Help is asked for: on a command, or on the program. -/
  | help (about : Option CommandName)
  /-- The arguments cannot be understood. -/
  | misuse
deriving Repr

namespace Reading

/-- Takes the letters of an argument such as `-v` in. -/
def letters (command : Option CommandName) (a : Arguments) : List Char → Except Reading Arguments
  | [] => .ok a
  | 'h' :: _ => .error (.help command)
  | 'v' :: cs =>
    match a.setVerbose? with
    | some a => letters command a cs
    | none => .error .misuse
  | _ :: _ => .error .misuse

/-- A long option: its name, and its value if one follows an equals sign. -/
def longOption (s : List Char) : String × Option String :=
  let name := s.takeWhile (· ≠ '=')
  (String.ofList name,
    match s.drop name.length with
    | [] => none
    | _ :: value => some (String.ofList value))

/-- The option with a value that has a name, of those that are known here. -/
def optionNamed? (command : Option CommandName) (name : String) : Option CommandOption :=
  (CommandOption.workspace :: (command.bind (·.option?)).toList).find? (·.name = name)

/-- Whether an argument cannot be the value of an option before it. -/
def isOptionLike (s : String) : Bool :=
  match s.toList with
  | '-' :: _ :: _ => true
  | _ => false

/-- Takes in an argument that is no option. -/
def word (command : Option CommandName) (a : Arguments) (s : String) : Option Arguments :=
  if command.any (·.takesPath) then a.setPath? s else none

/-- The arguments after `--`. -/
def words (command : Option CommandName) (a : Arguments) : List String → Reading
  | [] => .done a none
  | s :: rest =>
    match word command a s with
    | some a => words command a rest
    | none => .misuse

/-- Reads the arguments of a command, or those of the program up to the name of one. -/
def arguments (command : Option CommandName) (a : Arguments) : List String → Reading
  | [] => .done a none
  | s :: rest =>
    match s.toList with
    | ['-', '-'] => words command a rest
    | '-' :: '-' :: cs =>
      match longOption cs with
      | ("help", none) => .help command
      | ("verbose", none) =>
        match a.setVerbose? with
        | some a => arguments command a rest
        | none => .misuse
      | (name, value) =>
        match optionNamed? command name, value, rest with
        | some o, some value, rest =>
          match a.add? o value with
          | some a => arguments command a rest
          | none => .misuse
        | some o, none, value :: rest =>
          if isOptionLike value then .misuse
          else
            match a.add? o value with
            | some a => arguments command a rest
            | none => .misuse
        | _, _, _ => .misuse
    | '-' :: c :: cs =>
      match letters command a (c :: cs) with
      | .ok a => arguments command a rest
      | .error r => r
    | _ =>
      match command, CommandName.ofName? s with
      | none, some c => .done a (some (c, rest))
      | none, none => if s = "help" then helpOn none rest else .misuse
      | some _, _ =>
        match word command a s with
        | some a => arguments command a rest
        | none => .misuse
where
  /-- The arguments of `help`: the name of a command or nothing. -/
  helpOn (found : Option CommandName) : List String → Reading
    | [] => .help found
    | s :: rest =>
      match found, CommandName.ofName? s with
      | none, some c => helpOn (some c) rest
      | _, _ => .misuse

end Reading

/-- Something that the program is asked to do. -/
inductive Command where
  | init
  | scan (path : String)
  | heal (path : String)
  | audit (tail : Nat)
  | verifyAudit
  | rebuildIndex
  | activity (days : Nat)
  | todos (olderThan : Option Nat)
  | opportunities
deriving DecidableEq, Repr

/-- A command and the workspace it is about, if one is named. -/
structure Invocation where
  workspace : Option String
  command : Command
deriving DecidableEq, Repr

/-- What some arguments ask for. -/
inductive Request where
  | run (i : Invocation)
  | help (about : Option CommandName)
  | misuse
deriving Repr

namespace Request

/-- The command that some arguments give. -/
def commandOf? (c : CommandName) (a : Arguments) : Option Command :=
  match c with
  | .init => some .init
  | .scan => a.path.map .scan
  | .heal => a.path.map .heal
  | .audit =>
    match a.get? .tail with
    | none => some (.audit 20)
    | some v => (CommandOption.count? 18446744073709551615 v).map .audit
  | .verifyAudit => some .verifyAudit
  | .rebuildIndex => some .rebuildIndex
  | .activity =>
    match a.get? .days with
    | none => some (.activity 7)
    | some v => (CommandOption.days? v).map .activity
  | .todos =>
    match a.get? .olderThan with
    | none => some (.todos none)
    | some v => (CommandOption.days? v).map fun n => .todos (some n)
  | .opportunities => some .opportunities

/-- Reads the arguments of the program. -/
def ofArguments (args : List String) : Request :=
  match Reading.arguments none {} args with
  | .help about => .help about
  | .misuse => .misuse
  | .done _ none => .misuse
  | .done outer (some (c, rest)) =>
    match Reading.arguments (some c) {} rest with
    | .help about => .help about
    | .misuse => .misuse
    | .done inner _ =>
      match commandOf? c inner with
      | none => .misuse
      | some command => .run ⟨(inner.get? .workspace).or (outer.get? .workspace), command⟩

end Request

end Steward
