import AtomicCss.Number.Binary64

/-! Values of a TOML document, and the rules by which statements build its
tables: no key is given twice, and a table has one statement of its own. -/
namespace AtomicCss.Toml

/-- How a table came to be, which decides what may be added to it later. -/
inductive Origin where
  /-- It stands above a table that has a header. -/
  | implied
  /-- It stands above a value that is given by a dotted key. -/
  | dotted
  /-- It has a header of its own. -/
  | stated
  /-- It is written inline and complete. -/
  | inline
  deriving DecidableEq, Repr

inductive Value where
  | text (t : Text)
  | integer (n : Int)
  | float (x : Binary64)
  | boolean (b : Bool)
  /-- A date, a time or both, in its normal form. -/
  | moment (t : Text)
  | list (vs : List Value)
  | table (origin : Origin) (entries : List (Text × Value))
  /-- The tables under one header in double brackets. -/
  | tables (elements : List Value)
  deriving Repr, Inhabited

abbrev Entries := List (Text × Value)

/-- Gives a key its value in its place, or at the end. -/
def setEntry (key : Text) (v : Value) : Entries → Entries
  | [] => [(key, v)]
  | e :: es => if e.1 = key then (key, v) :: es else e :: setEntry key v es

/-- Changes the table at the end of a path. Tables that are not there are made.
A dotted key does not lead into a table that has a header of its own; where
there are several tables under one header, the last one is meant. -/
def alter (byDots : Bool) (change : Origin → Entries → Option Value) :
    List Text → Origin → Entries → Option Value
  | [], origin, entries => change origin entries
  | key :: path, origin, entries =>
    let child :=
      match entries.lookup key with
      | none => alter byDots change path (if byDots then .dotted else .implied) []
      | some (.table o es) =>
        if o = Origin.inline ∨ (byDots ∧ o = Origin.stated) then none else alter byDots change path o es
      | some (.tables elements) =>
        match elements.getLast? with
        | some (.table o es) =>
          (alter byDots change path o es).map fun last => .tables (elements.dropLast ++ [last])
        | _ => none
      | some _ => none
    child.map fun child => .table origin (setEntry key child entries)

/-- Adds a value under a key that is not taken. A path of dots leads to tables
that dots have made, and no path to any other. -/
def addEntry (byPath : Bool) (key : Text) (v : Value) (origin : Origin) (entries : Entries) :
    Option Value :=
  if (origin == .dotted) == byPath && (entries.lookup key).isNone then
    some (.table origin (entries ++ [(key, v)]))
  else none

/-- The table after `path.key = v`. -/
def assign (path : List Text) (key : Text) (v : Value) (origin : Origin) (entries : Entries) :
    Option Value :=
  alter true (addEntry (!path.isEmpty) key v) path origin entries

/-- States a table that is not there or only implied. -/
def stateTable (key : Text) (origin : Origin) (entries : Entries) : Option Value :=
  match entries.lookup key with
  | none => some (.table origin (entries ++ [(key, .table .stated [])]))
  | some (.table .implied es) => some (.table origin (setEntry key (.table .stated es) entries))
  | some _ => none

/-- Adds one more table under a header in double brackets. -/
def stateElement (key : Text) (origin : Origin) (entries : Entries) : Option Value :=
  match entries.lookup key with
  | none => some (.table origin (entries ++ [(key, .tables [.table .stated []])]))
  | some (.tables elements) =>
    some (.table origin (setEntry key (.tables (elements ++ [.table .stated []])) entries))
  | some _ => none

/-- One line of a document. A path is given with its last key apart. -/
inductive Statement where
  | header (path : List Text) (key : Text)
  | elementHeader (path : List Text) (key : Text)
  | assignment (path : List Text) (key : Text) (v : Value)

/-- A document in the making: its root table and the path of the last header. -/
structure Draft where
  root : Entries
  current : List Text

namespace Draft

def start : Draft := { root := [], current := [] }

def withRoot (d : Draft) : Option Value → Option Draft
  | some (.table _ entries) => some { d with root := entries }
  | _ => none

def add (d : Draft) : Statement → Option Draft
  | .header path key =>
    { d with current := path ++ [key] }.withRoot
      (alter false (stateTable key) path .stated d.root)
  | .elementHeader path key =>
    { d with current := path ++ [key] }.withRoot
      (alter false (stateElement key) path .stated d.root)
  | .assignment path key v =>
    d.withRoot (alter false (assign path key v) d.current .stated d.root)

end Draft

/-- The root table of a document, unless a statement breaks the rules. -/
def ofStatements (statements : List Statement) : Option Entries :=
  (statements.foldlM Draft.add Draft.start).map Draft.root

/-- The inline table of these entries, each with its path. -/
def ofInline (pairs : List (List Text × Text × Value)) : Option Value :=
  (pairs.foldlM (fun (entries : Entries) (path, key, v) =>
    match assign path key v .stated entries with
    | some (.table _ entries) => some entries
    | _ => none) []).map fun entries => .table .inline entries

end AtomicCss.Toml
