import Steward.Language
import Steward.Pattern

/-!
# Detectors

One table of hazards and the pattern that reveals each. Rows are tried in order and the first that
finds a match in an allowed place names the line's hazard, so a line has at most one.
-/

namespace Steward

open Text (Line)

inductive Hazard where
  | hardcodedPassword
  | hardcodedApiKey
  | awsAccessKey
  | dangerousEval
  | bareExcept
  | commandInjection
  | consoleLog
  | anyType
  | todoComment
deriving DecidableEq, Repr

namespace Hazard

def all : List Hazard :=
  [hardcodedPassword, hardcodedApiKey, awsAccessKey, dangerousEval, bareExcept, commandInjection,
    consoleLog, anyType, todoComment]

/-- The stable name, as records and reports carry it. -/
def name : Hazard → String
  | hardcodedPassword => "HARDCODED_PASSWORD"
  | hardcodedApiKey => "HARDCODED_API_KEY"
  | awsAccessKey => "AWS_ACCESS_KEY"
  | dangerousEval => "DANGEROUS_EVAL"
  | bareExcept => "BARE_EXCEPT"
  | commandInjection => "COMMAND_INJECTION"
  | consoleLog => "CONSOLE_LOG"
  | anyType => "ANY_TYPE"
  | todoComment => "TODO_COMMENT"

/-- The hazard with a name; an older name of `ANY_TYPE` is still read. -/
def ofName? (s : String) : Option Hazard :=
  if s = "CONSTITUTIONAL_ANY_TYPE" then some anyType else all.find? (·.name = s)

end Hazard

inductive Severity where
  | critical
  | high
  | medium
  | low
deriving DecidableEq, Repr

namespace Severity

def all : List Severity := [critical, high, medium, low]

def name : Severity → String
  | critical => "CRITICAL"
  | high => "HIGH"
  | medium => "MEDIUM"
  | low => "LOW"

def ofName? (s : String) : Option Severity := all.find? (·.name = s)

end Severity

/-- Where on the line a match may stand. -/
inductive Placement where
  | anywhere
  | outsideComment
  | insideComment
  /-- Outside comments, and with no `(` as the next character that is not space. -/
  | outsideCommentNotCall
deriving DecidableEq, Repr

namespace Placement

def name : Placement → String
  | anywhere => "Anywhere"
  | outsideComment => "OutsideComment"
  | insideComment => "InsideComment"
  | outsideCommentNotCall => "OutsideCommentNotCall"

/-- Whether a match stands in an allowed place of a line whose comment starts at `comment`. -/
def allows (p : Placement) (line : Line) (comment : Option Nat) (m : Match) : Bool :=
  let inComment := comment.any (· ≤ m.whole.start)
  match p with
  | anywhere => true
  | outsideComment => !inComment
  | insideComment => inComment
  | outsideCommentNotCall =>
    !inComment && (Text.trimStart (line.drop m.whole.stop)).head? != some '('

end Placement

structure Detector where
  hazard : Hazard
  severity : Severity
  pattern : Pattern
  placement : Placement
  fixable : Bool
  description : String
  suggestion : Option String
deriving Repr

namespace Detector

open Pattern

/-- A quoted literal with something in it, in either kind of quotes. -/
def literal : Pattern :=
  (text "\"" ++ many1 (.except '"') ++ text "\"") ||| (text "'" ++ many1 (.except '\'') ++ text "'")

/-- An assignment sign, with or without space around it. -/
def assign : Pattern := many .blank ++ text "=" ++ many .blank

def passwordPattern : Pattern := edge ++ text "password" ++ assign ++ group 1 literal

def apiKeyPattern : Pattern :=
  edge ++ group 1 (text "api_key" ||| text "apiKey" ||| text "secret_key" ||| text "secretKey") ++
    assign ++ group 2 literal

def awsPattern : Pattern :=
  edge ++ text "AKIA" ++ times 16 (.of [.range '0' '9', .range 'A' 'Z']) ++ edge

def evalPattern : Pattern := edge ++ text "eval("

def exceptPattern : Pattern := edge ++ text "except" ++ many .blank ++ text ":"

/-- A variable's name. -/
def identifier : Pattern :=
  one (.of [.range 'A' 'Z', .range 'a' 'z', .one '_', .one '$']) ++ many (.of [.word, .one '$'])

def commandPattern : Pattern :=
  edge ++ group 1 (text "execSync" ||| text "exec" ||| text "spawn") ++ text "(" ++ many .blank ++
    group 2 (identifier ++ star (text "." ++ identifier)) ++ many .blank ++
    one (.of [.one ',', .one ')'])

def consolePattern : Pattern := edge ++ text "console.log("

def anyPattern : Pattern := text ":" ++ many .blank ++ text "any" ++ edge

def todoPattern : Pattern := edge ++ group 1 (text "TODO" ||| text "FIXME" ||| text "XXX") ++ edge

/-- The table. -/
def table : List Detector :=
  [⟨.hardcodedPassword, .critical, passwordPattern, .anywhere, true,
      "hardcoded password literal", some "read the password from the environment"⟩,
    ⟨.hardcodedApiKey, .critical, apiKeyPattern, .anywhere, true,
      "hardcoded API key literal", some "read the key from the environment"⟩,
    ⟨.awsAccessKey, .critical, awsPattern, .anywhere, false, "AWS access key id", none⟩,
    ⟨.dangerousEval, .high, evalPattern, .outsideComment, true,
      "call to eval()", some "use a safe literal evaluator"⟩,
    ⟨.bareExcept, .high, exceptPattern, .outsideComment, true,
      "bare except clause", some "catch Exception explicitly"⟩,
    ⟨.commandInjection, .high, commandPattern, .outsideComment, true,
      "shell command built from an unescaped variable",
      some "quote the argument before handing it to the shell"⟩,
    ⟨.consoleLog, .low, consolePattern, .outsideComment, true,
      "console.log left in code", some "comment out the debug output"⟩,
    ⟨.anyType, .medium, anyPattern, .outsideCommentNotCall, true,
      "`any` type annotation", some "annotate as `unknown`"⟩,
    ⟨.todoComment, .low, todoPattern, .insideComment, true,
      "open TODO/FIXME/XXX marker", some "close the marker"⟩]

/-- The row of a hazard. -/
def ofHazard : Hazard → Detector
  | .hardcodedPassword => table[0]
  | .hardcodedApiKey => table[1]
  | .awsAccessKey => table[2]
  | .dangerousEval => table[3]
  | .bareExcept => table[4]
  | .commandInjection => table[5]
  | .consoleLog => table[6]
  | .anyType => table[7]
  | .todoComment => table[8]

/-- The matches in allowed places, left to right. -/
def placed (d : Detector) (l : Language) (line : Line) : List Match :=
  let comment := l.commentStart line
  (d.pattern.matches line).filter (d.placement.allows line comment)

/-- The first match in an allowed place. -/
def find? (d : Detector) (l : Language) (line : Line) : Option Match := (d.placed l line).head?

/-- The first row that finds something on the line. -/
def first? (l : Language) (line : Line) : Option Detector :=
  table.find? fun d => (d.find? l line).isSome

end Detector

end Steward
