import AtomicCss.Variant

/-! A candidate is a class text taken apart: the variants in front, the
utility with its value and modifier, and the mark of importance. Nothing
here says that such a utility exists. -/
namespace AtomicCss

/-- The value of a utility. A value between brackets may carry a type hint,
as in `bg-[color:var(--brand)]`. -/
inductive UtilityValue where
  | named (text : Text)
  | arbitrary (text : Text) (hint : Option Text)
  deriving DecidableEq, Repr

/-- A candidate without its variants and its mark of importance. -/
inductive UtilityTerm where
  /-- A name alone, as in `flex`. -/
  | static (root : Text) (negative : Bool)
  /-- A name with a value or a modifier, as in `bg-red-500/50`. -/
  | functional (root : Text) (value : Option UtilityValue) (modifier : Option Argument)
      (negative : Bool)
  /-- A declaration between square brackets, as in `[mask-type:luminance]`. -/
  | property (name : Text) (value : Text) (modifier : Option Argument)
  deriving DecidableEq, Repr

structure Candidate where
  base : UtilityTerm
  /-- The outermost variant first, as they are written. -/
  variants : List Variant
  important : Bool
  deriving DecidableEq, Repr

def UtilityTerm.negative : UtilityTerm → Bool
  | .static _ negative => negative
  | .functional _ _ _ negative => negative
  | .property .. => false

end AtomicCss
