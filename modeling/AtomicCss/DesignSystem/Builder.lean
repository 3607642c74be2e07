import AtomicCss.DesignSystem
import AtomicCss.Standard.Utilities
import AtomicCss.Standard.Variants
import AtomicCss.Theme.Default

/-! Building a design system step by step from a theme. -/
namespace AtomicCss.DesignSystem

structure Builder where
  lead : Option Text
  theme : Theme
  utilities : Utilities
  variants : Variants
  /-- Whether the breakpoints of the theme become variants. -/
  breakpoints : Bool

namespace Builder

/-- Without any utility or variant. -/
def bare (theme : Theme) : Builder :=
  { lead := none, theme, utilities := .empty, variants := .empty, breakpoints := false }

/-- With the standard utilities and variants. -/
def standard (theme : Theme) : Builder :=
  { lead := none, theme, utilities := Standard.utilities, variants := Standard.variants,
    breakpoints := true }

def withPrefix (b : Builder) (lead : Text) : Except RegistrationError Builder := do
  checkClassPrefix lead
  return { b with lead := some lead }

def register (b : Builder) (name : Text) (record : UtilityRecord) :
    Except RegistrationError Builder := do
  return { b with utilities := ← b.utilities.register name record }

def staticVariant (b : Builder) (name : Text) (templates : List Text) :
    Except RegistrationError Builder := do
  return { b with variants := ← b.variants.registerStatic name templates }

def functionalVariant (b : Builder) (name : Text) (handler : VariantHandler) :
    Except RegistrationError Builder := do
  return { b with variants := ← b.variants.registerFunctional name handler }

def compoundVariant (b : Builder) (name : Text) (handler : CompoundHandler) :
    Except RegistrationError Builder := do
  return { b with variants := ← b.variants.registerCompound name handler }

/-- The variant for a breakpoint of the theme. A name that is taken, or that no
variant can have, adds nothing. -/
def addBreakpoint (vs : Variants) (breakpoint : Text × Text) : Variants :=
  let (name, width) := breakpoint
  if vs.has name then vs
  else (vs.registerStatic name ["@media (width >= " ++ width ++ ")"]).toOption.getD vs

def build (b : Builder) : DesignSystem :=
  { lead := b.lead
    theme := b.theme
    utilities := b.utilities
    variants :=
      if b.breakpoints then
        (b.theme.namespaceEntries "--breakpoint").foldl addBreakpoint b.variants
      else b.variants }

end Builder

/-- The standard utilities and variants over the standard theme. -/
def standard : DesignSystem := (Builder.standard Theme.standard).build

end AtomicCss.DesignSystem
