import AtomicCss.Text

/-! The names under which utilities and variants may be registered, and the
class prefix. -/
namespace AtomicCss

inductive RegistrationError where
  | utilityName (name : Text)
  | variantName (name : Text)
  | classPrefix (lead : Text)
  deriving DecidableEq, Repr

namespace RegistrationError

def message : RegistrationError → Text
  | utilityName name =>
    "`" ++ name ++ "` is not a valid utility name; utilities start with a lowercase letter and contain only letters, digits, `/`, `%`, `.`, `_` and `-`"
  | variantName name =>
    "`" ++ name ++ "` is not a valid variant name; variants start with a lowercase letter, a digit or `@` and contain only letters, digits, `_` and `-`"
  | classPrefix lead =>
    "`" ++ lead ++ "` is not a valid prefix; prefixes contain only lowercase letters"

end RegistrationError

def isUtilityName : Text → Bool
  | [] => false
  | c :: rest =>
    c.isLower && rest.all fun c =>
      c.isAlphanum || c == '/' || c == '%' || c == '.' || c == '_' || c == '-'

def isVariantName : Text → Bool
  | [] => false
  | c :: rest =>
    (c.isLower || c.isDigit || c == '@') && rest.all fun c => c.isAlphanum || c == '_' || c == '-'

def isClassPrefix (t : Text) : Bool := !t.isEmpty && t.all Char.isLower

def checkUtilityName (name : Text) : Except RegistrationError Unit :=
  if isUtilityName name then .ok () else .error (.utilityName name)

def checkVariantName (name : Text) : Except RegistrationError Unit :=
  if isVariantName name then .ok () else .error (.variantName name)

def checkClassPrefix (lead : Text) : Except RegistrationError Unit :=
  if isClassPrefix lead then .ok () else .error (.classPrefix lead)

end AtomicCss
