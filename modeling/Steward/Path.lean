/-!
# Paths

A path is a text; what it stands for is its list of components. Repeated slashes, slashes at the end
and `.` after the start make no difference to the components. A `Location` is an absolute path with
nothing left to resolve: the names from the top down.
-/

namespace Steward

/-- A path as it was written. -/
structure Path where
  text : String
deriving DecidableEq, Repr, Inhabited

inductive Component where
  /-- The slash at the start of an absolute path. -/
  | top
  /-- A `.` at the start of a relative path. -/
  | here
  /-- A `..`. -/
  | up
  | name (n : String)
deriving DecidableEq, Repr

namespace Component

def text : Component → String
  | top => "/"
  | here => "."
  | up => ".."
  | name n => n

end Component

/-- The names from the top of the file system down to a place. -/
abbrev Location := List String

namespace Path

/-- The texts between slashes, given the text under way (last character first). -/
def splitFrom (current : List Char) : List Char → List String
  | [] => [String.ofList current.reverse]
  | c :: cs =>
    if c = '/' then String.ofList current.reverse :: splitFrom [] cs else splitFrom (c :: current) cs

/-- The texts between slashes. -/
def split (s : String) : List String := splitFrom [] s.toList

def isAbsolute (p : Path) : Bool := p.text.toList.head? = some '/'

/-- The component of a text between slashes, if it counts. -/
def componentOf? (s : String) : Option Component :=
  if s = "" || s = "." then none else if s = ".." then some .up else some (.name s)

/-- Whether the path starts with a `.` of its own. -/
def startsHere (p : Path) : Bool := (split p.text).head? = some "."

def components (p : Path) : List Component :=
  let body := (split p.text).filterMap componentOf?
  if p.isAbsolute then .top :: body else if p.startsHere then .here :: body else body

/-- Whether two paths have the same components. -/
def same (p q : Path) : Bool := p.components = q.components

/-- The path `q` seen from `p`: `q` itself if it is absolute. -/
def join (p : Path) (q : String) : Path :=
  if q.toList.head? = some '/' then ⟨q⟩
  else if p.text.toList.isEmpty || p.text.toList.getLast? = some '/' then ⟨p.text ++ q⟩
  else ⟨p.text ++ "/" ++ q⟩

/-- Drops slashes and lone dots from the end, on the reversed text. -/
def trimEnd : List Char → List Char
  | '/' :: cs => trimEnd cs
  | ['.'] => []
  | '.' :: '/' :: cs => trimEnd cs
  | cs => cs

/-- What stands before the path's body: the first slash, the first `.`, or nothing. -/
def lead (p : Path) : List Char :=
  if p.isAbsolute then ['/'] else if p.startsHere then ['.'] else []

/-- The path without its last component. The top and the empty path have none to drop. -/
def parent? (p : Path) : Option Path :=
  let lead := p.lead
  let body := trimEnd (p.text.toList.drop lead.length).reverse
  if body.isEmpty then if lead = ['.'] then some ⟨""⟩ else none
  else
    let body := trimEnd ((body.dropWhile (· != '/')).drop 1)
    some ⟨String.ofList (lead ++ body.reverse)⟩

/-- The last component, if it is a name. -/
def fileName? (p : Path) : Option String :=
  match p.components.getLast? with
  | some (.name n) => some n
  | _ => none

/-- The path with another last name; without a name at the end, one is added. -/
def withFileName (p : Path) (name : String) : Path :=
  match p.fileName? with
  | some _ => ((p.parent?).getD p).join name
  | none => p.join name

/-- The path next to `p` whose name has `suffix` added at its end. -/
def sibling (p : Path) (suffix : String) : Path := p.withFileName (p.fileName?.getD "" ++ suffix)

/-- What follows the last dot of a name, unless the name starts with that dot. -/
def extensionOf? (name : String) : Option String :=
  let back := name.toList.reverse
  let ext := back.takeWhile (· != '.')
  match back.drop (ext.length + 1) with
  | [] => none
  | _ => some (String.ofList ext.reverse)

/-- The extension of the last name. -/
def extension? (p : Path) : Option String := p.fileName?.bind extensionOf?

/-- The components left after those of `base`, if they come first. -/
def stripPrefix? (p base : Path) : Option (List Component) :=
  if base.components.isPrefixOf p.components then
    some (p.components.drop base.components.length)
  else none

/-- Drops what stands for no component from the front of a path's body. -/
def trimStart : List Char → List Char
  | '/' :: cs => trimStart cs
  | ['.'] => []
  | '.' :: '/' :: cs => trimStart cs
  | cs => cs

/-- A path's body without its first `n` components. -/
def dropNames : Nat → List Char → List Char
  | 0, cs => trimStart cs
  | n + 1, cs => dropNames n ((trimStart cs).dropWhile (· != '/'))

/-- The text that is left after the components of `base`, if they come first. -/
def restAfter? (p base : Path) : Option Path :=
  if base.components.isPrefixOf p.components then
    match base.components.length with
    | 0 => some p
    | n =>
      let lead := p.lead
      let body := dropNames (n - lead.length) (p.text.toList.drop lead.length)
      some ⟨String.ofList (trimEnd body.reverse).reverse⟩
  else none

/-- Whether the components of `base` come first. -/
def isUnder (p base : Path) : Bool := base.components.isPrefixOf p.components

/-- The path as seen from `base`, with `.` for `base` itself; a path elsewhere is shown as written. -/
def relativeTo (p base : Path) : String :=
  match p.stripPrefix? base with
  | some [] => "."
  | some cs => "/".intercalate (cs.map (·.text))
  | none => p.text

/-- Letters in lowercase, as far as ASCII goes. -/
def asciiLower (s : String) : String := String.ofList (s.toList.map Char.toLower)

end Path

namespace Location

/-- The path of a place. -/
def path (l : Location) : Path := ⟨"/" ++ "/".intercalate l⟩

/-- Places in order: a place comes before all below it, and those next to each other are in byte
order. -/
def le : Location → Location → Bool
  | [], _ => true
  | _ :: _, [] => false
  | m :: l, n :: k => if m = n then le l k else m < n

end Location

end Steward
