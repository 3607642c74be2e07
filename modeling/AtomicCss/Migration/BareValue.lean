import AtomicCss.DesignSystem.Resolution
import AtomicCss.Migration.ThemeCall

/-! Writing classes in their canonical form: a value between brackets becomes
a named one where the class keeps its meaning, and theme calls become
references. A text that is no candidate stays as it is. -/
namespace AtomicCss.Migration

def isAttributeKey (t : Text) : Bool := !t.isEmpty && t.all fun c => c.isAlphanum || c == '-'

def isFeatureName : Text → Bool
  | [] => false
  | c :: rest =>
    (c.isLower || c == '-') && rest.all fun c => c.isLower || c.isDigit || c == '-'

/-- Without the double quotes at either end. -/
def unquote (t : Text) : Text :=
  ((t.dropWhile (· == '"')).reverse.dropWhile (· == '"')).reverse

/-- The key of a condition that says that an attribute is true. -/
def trueKey? (t : Text) : Option Text :=
  match Text.splitFirst '=' t with
  | some (key, value) => if isAttributeKey key ∧ unquote value = "true" then some key else none
  | none => none

/-- The name that means the same as a value between brackets. -/
def bareVariantValue? (root value : Text) : Option Text :=
  if root = "data" then if isAttributeKey value then some value else none
  else if root = "aria" then trueKey? value
  else if root = "supports" then if isFeatureName value then some value else none
  else none

def promoteVariant : Variant → Variant
  | .compound root modifier inner => .compound root modifier (promoteVariant inner)
  | .functional root (some (.arbitrary t)) none =>
    .functional root (some (((bareVariantValue? root t).map .named).getD (.arbitrary t))) none
  | v => v

/-- The characters of a value that may do without brackets. -/
def isBareValue (t : Text) : Bool :=
  !t.isEmpty &&
    t.all fun c => c.isAlphanum || c == '.' || c == '%' || c == '/' || c == '-'

/-- The candidate with a named value in place of one between brackets. -/
def withNamedValue? (c : Candidate) : Option Candidate :=
  match c.base with
  | .functional root (some (.arbitrary t none)) modifier negative =>
    if isBareValue t then
      some { c with base := .functional root (some (.named t)) modifier negative }
    else none
  | _ => none

/-- The same candidate with a named value, as it reads when it is written, if
it stands for the same nodes. -/
def promoteValue? (system : DesignSystem) (c : Candidate) : Option Candidate := do
  let named ← withNamedValue? c
  let promoted ← system.parseCandidate (system.printCandidate named)
  if promoted.variants.map Variant.print = c.variants.map Variant.print ∧
      promoted.important = c.important then
    let nodes ← system.resolve c
    if system.resolve promoted = some nodes then some promoted else none
  else none

def promote (system : DesignSystem) (c : Candidate) : Candidate :=
  let c := { c with variants := c.variants.map promoteVariant }
  (promoteValue? system c).getD c

/-- Replaces the theme calls in the value of a candidate. -/
def migrateCalls (theme : Theme) (c : Candidate) : Candidate :=
  match c.base with
  | .functional root (some (.arbitrary t hint)) modifier negative =>
    let t := migrateValue theme .declaration t
    { c with base := .functional root (some (.arbitrary t hint)) modifier negative }
  | .property name value modifier =>
    { c with base := .property name (migrateValue theme .declaration value) modifier }
  | _ => c

/-- The class with names in place of brackets. -/
def bareClass (system : DesignSystem) (t : Text) : Text :=
  match system.parseCandidate t with
  | some c => system.printCandidate (promote system c)
  | none => t

/-- The class with its theme calls replaced and names in place of brackets. -/
def migrateClass (system : DesignSystem) (t : Text) : Text :=
  match system.parseCandidate t with
  | some c => system.printCandidate (promote system (migrateCalls system.theme c))
  | none => t

end AtomicCss.Migration
