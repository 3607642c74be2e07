import AtomicCss.Text

/-! Reading a text from left to right while keeping track of escapes and
quotes. A backslash takes the character after it out of play, inside quotes
too, and a quote lasts until the same quote character comes again. The
characters that remain in play are called live: only they act as brackets
or separators. -/
namespace AtomicCss

/-- What the characters read so far mean for the next one. -/
inductive Scan where
  | plain
  | escaped
  | quoted (quote : Char)
  | quotedEscaped (quote : Char)
  deriving DecidableEq, Repr

namespace Scan

def isQuote (c : Char) : Bool := c == '"' || c == '\''

def next : Scan → Char → Scan
  | .escaped, _ => .plain
  | .quotedEscaped q, _ => .quoted q
  | .plain, c => if c = '\\' then .escaped else if isQuote c then .quoted c else .plain
  | .quoted q, c => if c = '\\' then .quotedEscaped q else if c = q then .plain else .quoted q

/-- The state after a whole text. -/
def after (s : Scan) (t : Text) : Scan := t.foldl next s

/-- Whether `c` counts for itself when it is read in state `s`. -/
def live (s : Scan) (c : Char) : Bool :=
  s = .plain && c ≠ '\\' && !isQuote c

/-- No quote is open. -/
def outside : Scan → Bool
  | .plain | .escaped => true
  | .quoted _ | .quotedEscaped _ => false

end Scan
end AtomicCss
