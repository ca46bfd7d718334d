import Steward.FileTree

/-!
# Where a database lies

The path of a database is followed name by name before the file is opened. The names need not stand
for anything yet, so `..` takes back the name before it even if there is nothing of that name, and
slashes at the end do not count. Links are followed further than a look-up follows them.
-/

namespace Steward.Index

/-- How many links are followed on the way to a database. -/
def maxLinks : Nat := 201

/-- The longest path of a database, in bytes. -/
def maxPath : Nat := 504

/-- The longest path on the way there, in bytes. -/
def maxWay : Nat := 511

/-- How far names lead: to a place, or to a link that has to be followed before the rest. -/
inductive Leg where
  | arrived (at_ : Location)
  | detour (from_ : Location) (target : String) (rest : List String)
deriving Repr

/-- Takes names from a place up to the next link. No name leads on from a file. -/
def leg (t : FileTree) (at_ : Location) : List String → Option Leg
  | [] => some (.arrived at_)
  | s :: rest =>
    if s = "." then leg t at_ rest
    else if s = ".." then leg t at_.dropLast rest
    else
      let next : Location := at_ ++ [s]
      if maxWay < next.path.text.utf8ByteSize then none
      else
        match t.spot .kept next.path with
        | .ok (.vacant _) | .error .notFound => leg t next rest
        | .error _ => none
        | .ok (.entry l) =>
          match t.get? l with
          | some (.link target) => some (.detour at_ target rest)
          | _ => leg t next rest

/-- Takes names from a place, following up to the given number of links. -/
def journey (t : FileTree) : Nat → Location → List String → Option Location
  | links, at_, ss =>
    match leg t at_ ss with
    | none => none
    | some (.arrived l) => some l
    | some (.detour from_ target rest) =>
      match links with
      | 0 => none
      | links + 1 =>
        journey t links (if (Path.mk target).isAbsolute then [] else from_)
          (FileTree.names target ++ rest)

/-- The place that the path of a database stands for. -/
def place? (t : FileTree) (p : Path) : Option Location :=
  match journey t maxLinks (if p.isAbsolute then [] else t.workingDir) (FileTree.names p.text) with
  | none => none
  | some l => if l = [] || maxPath < l.path.text.utf8ByteSize then none else some l

end Steward.Index
