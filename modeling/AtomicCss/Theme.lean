import AtomicCss.Text

/-! A theme is an ordered map from token names to values: a list of entries, and
an index that finds the entry of a name. A name such as `--color` is also a
namespace: it groups the tokens whose names begin with `--color-`, and the token
named like the namespace is its default. -/
namespace AtomicCss

structure Theme where
  /-- The tokens in the order in which they were declared first. -/
  entries : List (Text × Text)
  /-- Where the token of a name stands among the entries, the latest name first. -/
  index : List (Text × Nat)
  deriving DecidableEq, Repr

namespace Theme

def empty : Theme := { entries := [], index := [] }

/-- The key of the token that is named like its namespace. -/
def defaultKey : Text := "DEFAULT"

def size (theme : Theme) : Nat := theme.entries.length

def isEmpty (theme : Theme) : Bool := theme.entries.isEmpty

def get? (theme : Theme) (name : Text) : Option Text :=
  (theme.index.lookup name).bind fun place => theme.entries[place]?.map Prod.snd

def contains (theme : Theme) (name : Text) : Bool := (theme.index.lookup name).isSome

/-- The index of a list of entries. -/
def places (entries : List (Text × Text)) : List (Text × Nat) :=
  (entries.zipIdx.map fun (entry, place) => (entry.1, place)).reverse

/-- The tokens with the names that `keep` selects. What is left closes up, so
that the index is made anew. -/
def filter (theme : Theme) (keep : Text → Bool) : Theme :=
  let entries := theme.entries.filter fun entry => keep entry.1
  { entries, index := places entries }

def erase (theme : Theme) (name : Text) : Theme := theme.filter (· != name)

/-- Whether a name belongs to a namespace. -/
def inNamespace (ns name : Text) : Bool := name == ns || (ns ++ ['-']).isPrefixOf name

def eraseNamespace (theme : Theme) (ns : Text) : Theme :=
  theme.filter fun name => !inNamespace ns name

/-- Gives the token a value in its place, or puts it at the end. -/
def insert (theme : Theme) (name value : Text) : Theme :=
  match theme.index.lookup name with
  | some place =>
    { theme with entries := theme.entries.modify place fun entry => (entry.1, value) }
  | none =>
    { entries := theme.entries ++ [(name, value)], index := (name, theme.size) :: theme.index }

/-- A declaration of the token. The value `initial` takes away the token, the
whole namespace for a name such as `--color-*`, and everything for `--*`. -/
def declare (theme : Theme) (name value : Text) : Theme :=
  let value := Text.trim value
  if value = "initial" then
    if name = "--*" then empty
    else
      match Text.stripEnd? "-*" name with
      | some ns => theme.eraseNamespace ns
      | none => theme.erase name
  else theme.insert name value

/-- The tokens of a namespace, in order, by what follows the namespace in their names. -/
def namespace? (ns : Text) (entry : Text × Text) : Option (Text × Text) :=
  if entry.1 = ns then some (defaultKey, entry.2)
  else
    match Text.stripStart? (ns ++ ['-']) entry.1 with
    | some (c :: key) => some (c :: key, entry.2)
    | _ => none

def namespaceEntries (theme : Theme) (ns : Text) : List (Text × Text) :=
  theme.entries.filterMap (namespace? ns)

/-- The name of the token for a key. Points cannot stand in names and are
written as underscores; no key, or the default key, stands for the namespace. -/
def tokenName (ns : Text) (key : Option Text) : Text :=
  match key with
  | none => ns
  | some key => if key = defaultKey then ns else ns ++ '-' :: Text.replace '.' "_" key

/-- The name of the token for a key in the first of the namespaces that has one. -/
def lookup (theme : Theme) (key : Option Text) (namespaces : List Text) : Option Text :=
  (namespaces.map fun ns => tokenName ns key).find? theme.contains

/-- The reference to the token for a key. -/
def resolve (theme : Theme) (key : Option Text) (namespaces : List Text) : Option Text :=
  (theme.lookup key namespaces).map fun name => "var(" ++ name ++ ")"

/-- The value of the token for a key. -/
def resolveValue (theme : Theme) (key : Option Text) (namespaces : List Text) : Option Text :=
  (theme.lookup key namespaces).bind theme.get?

end Theme
end AtomicCss
