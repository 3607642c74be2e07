import AtomicCss.Candidate.Grammar
import AtomicCss.Theme
import AtomicCss.Utility
import AtomicCss.Variants

/-! A design system is a theme, the utilities, the variants and an optional
class prefix. -/
namespace AtomicCss

structure DesignSystem where
  /-- What every class of the system begins with. -/
  lead : Option Text
  theme : Theme
  utilities : Utilities
  variants : Variants

namespace DesignSystem

def parseCandidate (system : DesignSystem) (t : Text) : Option Candidate :=
  Candidate.parse? system.lead t

def printCandidate (system : DesignSystem) (c : Candidate) : Text := c.print system.lead

end DesignSystem
end AtomicCss
