import AtomicCss.Text

/-! The variants in front of a utility, as in `md:group-hover/menu:flex`. -/
namespace AtomicCss

/-- A value or a modifier as it is written: a bare word, or text between
square brackets. -/
inductive Argument where
  | named (text : Text)
  | arbitrary (text : Text)
  deriving DecidableEq, Repr

def Argument.text : Argument → Text
  | .named t => t
  | .arbitrary t => t

inductive Variant where
  /-- A name alone, as in `hover`. -/
  | static (root : Text)
  /-- A name with a value or a modifier, as in `data-[state=open]`. -/
  | functional (root : Text) (value : Option Argument) (modifier : Option Argument)
  /-- A selector between square brackets. -/
  | arbitrary (selector : Text)
  /-- A variant of another element, as in `group-hover/menu`. -/
  | compound (root : Text) (modifier : Option Argument) (inner : Variant)
  deriving DecidableEq, Repr

end AtomicCss
