/-!
# TOML documents

Values of a TOML document, and how its tables come about. A table is opened by a header, by a dotted
key, or on the way to another table; which of these it was decides what may still be added to it.
-/

namespace Steward

inductive Toml where
  | string (s : String)
  | integer (n : Int)
  | float
  | boolean (b : Bool)
  | dateTime
  | array (items : List Toml)
  /-- A table written as a value; `dotted` if a dotted key inside such a table opened it. -/
  | inline (dotted : Bool) (fields : List (String × Toml))
  /-- A table of the document; `implicit` until a header names it. -/
  | table (implicit dotted : Bool) (fields : List (String × Toml))
  /-- An array of tables, each opened by a header. -/
  | tables (items : List Toml)
deriving Repr, Inhabited

namespace Toml

/-- Puts under a key what `f` makes of what is there; nothing if `f` refuses. -/
def alter (key : String) (f : Option Toml → Option Toml) :
    List (String × Toml) → Option (List (String × Toml))
  | [] => (f none).map fun v => [(key, v)]
  | (k, v) :: rest =>
    if k = key then (f (some v)).map fun v => (k, v) :: rest
    else (alter key f rest).map ((k, v) :: ·)

/-- Puts a value under a key that is still free. -/
def addNew (key : String) (v : Toml) (fields : List (String × Toml)) :
    Option (List (String × Toml)) :=
  alter key (fun | none => some v | some _ => none) fields

/-- Works on the table at a path, opening tables on the way. A dotted key may not enter a table that
a header has opened. In an array of tables the way goes through the last one. -/
def within (dotted : Bool) (act : Toml → Option Toml) : List String → Toml → Option Toml
  | [], t => act t
  | key :: path, .table implicit wasDotted fields =>
    (alter key
      (fun
        | none => within dotted act path (.table true dotted [])
        | some (.table i d fs) =>
          if dotted && !i then none else within dotted act path (.table i d fs)
        | some (.tables items) =>
          match items.getLast? with
          | some last => (within dotted act path last).map fun t => .tables (items.dropLast ++ [t])
          | none => none
        | some _ => none)
      fields).map (.table implicit wasDotted)
  | _ :: _, _ => none

/-- Adds a value under a key at the end of a dotted path. A table that the path enters must have been
opened by dotted keys. -/
def addDotted (path : List String) (key : String) (v : Toml) : Toml → Option Toml :=
  within true
    (fun
      | .table implicit dotted fields =>
        if dotted = path.isEmpty then none
        else (addNew key v fields).map (.table implicit dotted)
      | _ => none)
    path

/-- Works on the inline table at a path inside an inline table. The way goes only through tables
that dotted keys have opened. -/
def withinInline (act : Toml → Option Toml) : List String → Toml → Option Toml
  | [], t => act t
  | key :: path, .inline wasDotted fields =>
    (alter key
      (fun
        | none => withinInline act path (.inline true [])
        | some (.inline true fs) => withinInline act path (.inline true fs)
        | some _ => none)
      fields).map (.inline wasDotted)
  | _ :: _, _ => none

/-- Adds a value under a key at the end of a dotted path inside an inline table. -/
def addInline (path : List String) (key : String) (v : Toml) : Toml → Option Toml :=
  withinInline
    (fun
      | .inline dotted fields =>
        if dotted = path.isEmpty then none
        else (addNew key v fields).map (.inline dotted)
      | _ => none)
    path

/-- Changes what stands under a key of a table. -/
def atKey (key : String) (f : Option Toml → Option Toml) : Toml → Option Toml
  | .table implicit dotted fields => (alter key f fields).map (.table implicit dotted)
  | _ => none

/-- A document under way, and the path of the table that is being filled. -/
structure Draft where
  doc : Toml := .table false false []
  place : List String := []
deriving Repr

namespace Draft

/-- Opens a table. What was put into it on the way to other tables stays; a table that a header or a
dotted key has opened is not opened again. -/
def openTable (path : List String) (key : String) (d : Draft) : Option Draft :=
  (within false
    (atKey key fun
      | none => some (.table false false [])
      | some (.table true false fields) => some (.table false false fields)
      | some _ => none)
    path d.doc).map fun doc => ⟨doc, path ++ [key]⟩

/-- Opens one more table of an array of tables. -/
def openItem (path : List String) (key : String) (d : Draft) : Option Draft :=
  (within false
    (atKey key fun
      | none => some (.tables [.table false false []])
      | some (.tables items) => some (.tables (items ++ [.table false false []]))
      | some _ => none)
    path d.doc).map fun doc => ⟨doc, path ++ [key]⟩

/-- Adds a value to the table that is being filled. -/
def add (path : List String) (key : String) (v : Toml) (d : Draft) : Option Draft :=
  (within false (addDotted path key v) d.place d.doc).map fun doc => { d with doc }

end Draft

end Toml

end Steward
