import Steward.FileTree
import Steward.History
import Steward.Text.Blank
import Steward.Text.Lines

/-!
# A history from git

Questions are answered by the output of the `git` program, which is reached through a function from
its arguments to what it prints.
-/

namespace Steward.History.Git

/-- What a program prints and how it ends. -/
structure Output where
  stdout : List UInt8
  stderr : List UInt8
  exit : Nat
deriving Repr

/-- Running `git` in the workspace with some arguments; an error says why it could not be run. -/
abbrev Runner := List String → Except String Output

/-- Runs `git` with arguments that may be passed to a program. -/
def run (r : Runner) (args : List String) : Except String Output :=
  if args.any fun a => a.toList.contains '\x00' then
    .error "cannot run git: nul byte found in provided data"
  else (r args).mapError ("cannot run git: " ++ ·)

def text (bytes : List UInt8) : List Char := Utf8.decodeLossy bytes

/-- What `git` prints if it succeeds; its complaint otherwise. -/
def runOk (r : Runner) (args : List String) : Except String (List Char) :=
  match run r args with
  | .error e => .error e
  | .ok out =>
    if out.exit = 0 then .ok (text out.stdout)
    else .error (String.ofList (Text.trim (text out.stderr)))

/-- Separates commits in the output of `git log`. -/
def recordSeparator : Char := '\x1e'

/-- Separates the parts of a commit's first line. -/
def fieldSeparator : Char := '\x1f'

/-- The texts between separators, given the text under way and the texts before it, both last
first. -/
def splitFrom (sep : Char) (done : List (List Char)) (current : List Char) :
    List Char → List (List Char)
  | [] => (current.reverse :: done).reverse
  | c :: cs =>
    if c = sep then splitFrom sep (current.reverse :: done) [] cs
    else splitFrom sep done (c :: current) cs

/-- The texts between separators. -/
def splitAt (sep : Char) (cs : List Char) : List (List Char) := splitFrom sep [] [] cs

/-- The commit that one record of the log tells of: a line with hash, author, time and summary, then
the names of files. -/
def parseRecord? (record : List Char) : Option Commit :=
  match Text.lines record with
  | [] => none
  | header :: files =>
    match splitAt fieldSeparator header with
    | id :: author :: time :: s :: more =>
      (Instant.parseChars? time).map fun t =>
        { id := String.ofList id
          author := String.ofList author
          timestamp := t
          summary := String.ofList ((s :: more).intersperse [fieldSeparator]).flatten
          files := ((files.map Text.trim).filter (!·.isEmpty)).map String.ofList }
    | _ => none

/-- The commits that the log tells of. -/
def parseLog (out : List Char) : List Commit := (splitAt recordSeparator out).filterMap parseRecord?

/-- What follows a word at the start of a line. -/
def after? (word : String) (l : List Char) : Option (List Char) :=
  if word.toList.isPrefixOf l then some (l.drop word.length) else none

/-- The largest number of seconds that is read. -/
def maxSeconds : Int := 9223372036854775807

/-- A number with an optional sign, if it fits into 64 bits. -/
def parseSeconds? (cs : List Char) : Option Int :=
  let (negative, ds) :=
    match cs with
    | '-' :: ds => (true, ds)
    | '+' :: ds => (false, ds)
    | ds => (false, ds)
  if ds.isEmpty || !ds.all Char.isDigit then none
  else
    let n : Int := ds.foldl (fun n c => n * 10 + (c.toNat - 48)) 0
    let s := if negative then -n else n
    if -maxSeconds - 1 ≤ s && s ≤ maxSeconds then some s else none

/-- Author and time of a blamed line as far as they are read. -/
structure BlameParts where
  author : Option String := none
  time : Option Int := none

/-- Takes one line of the output in; later lines win. -/
def BlameParts.take (b : BlameParts) (l : List Char) : BlameParts :=
  match after? "author " l with
  | some a => { b with author := some (String.ofList a) }
  | none =>
    match after? "author-time " l with
    | some t => { b with time := parseSeconds? (Text.trim t) }
    | none => b

/-- What `git blame --porcelain` tells of one line. -/
def parseBlame? (out : List Char) : Option Blame :=
  match Text.lines out with
  | [] => none
  | first :: rest =>
    let commit := (Text.trimStart first).takeWhile (!Text.isBlank ·)
    if commit.isEmpty then none
    else
      let parts := rest.foldl BlameParts.take {}
      (parts.time.bind Instant.ofSeconds?).map fun t =>
        { commit := String.ofList commit
          author := parts.author.getD ""
          timestamp := t
          committed := !commit.all (· = '0') }

def rootArgs : List String := ["rev-parse", "--show-toplevel"]

def trackedArgs (p : Path) : List String := ["ls-files", "-z", "--", p.text]

def logArgs (p : Path) (since : Instant) : List String :=
  ["log", "--relative", "--no-color", "--name-only", "--since=" ++ since.stamp,
    "--format=%x1e%H%x1f%an%x1f%aI%x1f%s", "--", p.text]

def blameArgs (file : Path) (line : Nat) : List String :=
  ["blame", "--porcelain", "-L", s!"{line},{line}", "--", file.text]

/-- The repository's root, with links followed where it exists. -/
def repoRoot (r : Runner) (t : FileTree) : Except String Path :=
  (runOk r rootArgs).map fun out =>
    let top : Path := ⟨String.ofList (Text.trim out)⟩
    match t.canonical top with
    | .ok l => l.path
    | .error _ => top

/-- Whether `git` lists a path; without a repository that question has no answer. -/
def isTracked (r : Runner) (p : Path) : Except String Bool := do
  let _ ← runOk r rootArgs
  let listed ← runOk r (trackedArgs p)
  return !listed.isEmpty

/-- The commits since an instant. A repository without commits has none. -/
def commitsSince (r : Runner) (p : Path) (since : Instant) : Except String (List Commit) :=
  match run r (logArgs p since) with
  | .error e => .error e
  | .ok out =>
    if out.exit = 0 then .ok (parseLog (text out.stdout))
    else
      let complaint := text out.stderr
      if Text.contains "does not have any commits".toList complaint then .ok []
      else .error (String.ofList (Text.trim complaint))

def blame (r : Runner) (file : Path) (line : Nat) : Except String Blame := do
  let out ← runOk r (blameArgs file line)
  match parseBlame? out with
  | some b => return b
  | none => throw s!"unparsable blame output for {file.text}:{line}"

/-- Whether `git` runs at all with some arguments. -/
def runs (r : Runner) (args : List String) : Bool := (run r args).toOption.isSome

/-- The argument lists with which a question makes `git` run. -/
def commands (r : Runner) : Query → List (List String)
  | .repoRoot => [rootArgs].filter (runs r)
  | .isTracked p =>
    if (runOk r rootArgs).toOption.isSome then [rootArgs, trackedArgs p].filter (runs r)
    else [rootArgs].filter (runs r)
  | .commitsSince p since => [logArgs p since].filter (runs r)
  | .blame file line => [blameArgs file line].filter (runs r)

/-- The history that `git` tells of. -/
def history (r : Runner) (t : FileTree) : History where
  repoRoot := repoRoot r t
  isTracked := isTracked r
  commitsSince := commitsSince r
  blame := blame r
  commands := commands r

end Steward.History.Git
