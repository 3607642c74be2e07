import AtomicCss.Css
import AtomicCss.DataType
import AtomicCss.Registration

/-! Utilities and their registry. A name may have several records, which keep
the order of their registration. -/
namespace AtomicCss

/-- What a modifier may stand for. -/
inductive ModifierPolicy where
  | none
  | any
  /-- An entry of the table. -/
  | lookup (table : List (Text × Text))
  /-- A token of one of the namespaces. -/
  | theme (namespaces : List Text)
  deriving DecidableEq, Repr

/-- A utility with a value, and what it accepts. -/
structure FunctionalUtility where
  /-- The nodes for a value and a modifier. -/
  emit : Text → Option Text → List Css.Node
  /-- The types of the values between brackets. -/
  types : List DataType := [.any]
  supportsNegative : Bool := false
  /-- Named values, looked up before the theme. -/
  values : List (Text × Text) := []
  /-- The namespaces of the theme in which named values are looked up. -/
  themeKeys : List Text := []
  /-- Without a policy the modifier is an opacity for colours and refused otherwise. -/
  modifiers : Option ModifierPolicy := none
  /-- The value for a name that is found nowhere. -/
  bareValue : Text → Option Text := fun _ => none
  /-- The modifier for a name that is found nowhere. -/
  bareModifier : Text → Option Text := fun _ => none
  /-- The value for a name and a modifier together. -/
  fraction : Text → Text → Option Text := fun _ _ => none

namespace FunctionalUtility

/-- With these types; no types at all are the type of any value. -/
def withTypes (u : FunctionalUtility) (types : List DataType) : FunctionalUtility :=
  { u with types := if types.isEmpty then [.any] else types }

def accepts (u : FunctionalUtility) (type : DataType) : Bool := u.types.contains type

def isColor (u : FunctionalUtility) : Bool := u.accepts .color

def acceptsOnlyAny (u : FunctionalUtility) : Bool := u.types.all (· == .any)

/-- The value of a name in the utility's own table. -/
def lookup (u : FunctionalUtility) (key : Text) : Option Text := u.values.lookup key

end FunctionalUtility

inductive UtilityRecord where
  | static (nodes : List Css.Node)
  | functional (utility : FunctionalUtility)

structure Utilities where
  records : List (Text × UtilityRecord)

namespace Utilities

def empty : Utilities := { records := [] }

def register (us : Utilities) (name : Text) (record : UtilityRecord) :
    Except RegistrationError Utilities := do
  checkUtilityName name
  return { records := us.records ++ [(name, record)] }

def has (us : Utilities) (name : Text) : Bool := us.records.any fun r => r.1 == name

/-- The nodes of the static utilities of a name. -/
def statics (us : Utilities) (name : Text) : List (List Css.Node) :=
  us.records.filterMap fun
    | (n, .static nodes) => if n = name then some nodes else none
    | (_, .functional _) => none

/-- The functional utilities of a name. -/
def functionals (us : Utilities) (name : Text) : List FunctionalUtility :=
  us.records.filterMap fun
    | (n, .functional u) => if n = name then some u else none
    | (_, .static _) => none

end Utilities
end AtomicCss
