import AtomicCss.Text.Scan
import AtomicCss.Value

/-! Reading a value tree in two steps. The text is cut into lexemes from left
to right; then the lexemes are nested from right to left, so that a call is
complete as soon as its opening is met. Nothing is ever refused: a `)` that
closes nothing belongs to a word, and an opening that is never closed
becomes a word of its own. -/
namespace AtomicCss.Value

inductive Lexeme where
  | word (text : Text)
  | separator (text : Text)
  | opening (name : Text)
  | closing
  deriving DecidableEq, Repr

/-- Commas, colons and blank characters stand between words. -/
def isSeparator (c : Char) : Bool := c == ',' || c == ':' || Text.isBlank c

/-- Puts a character in front of the word, or the name of a call, that follows. -/
def consWord (c : Char) : List Lexeme → List Lexeme
  | .word t :: ls => .word (c :: t) :: ls
  | .opening name :: ls => .opening (c :: name) :: ls
  | ls => .word [c] :: ls

/-- Puts a character in front of the separator that follows. -/
def consSeparator (c : Char) : List Lexeme → List Lexeme
  | .separator t :: ls => .separator (c :: t) :: ls
  | ls => .separator [c] :: ls

/-- The lexemes of a text read from state `s` inside `depth` open calls. -/
def lex (depth : Nat) (s : Scan) : Text → List Lexeme
  | [] => []
  | c :: rest =>
    if !s.live c then consWord c (lex depth (s.next c) rest)
    else if c = '(' then .opening [] :: lex (depth + 1) (s.next c) rest
    else if c = ')' && 0 < depth then .closing :: lex (depth - 1) (s.next c) rest
    else if isSeparator c then consSeparator c (lex depth (s.next c) rest)
    else consWord c (lex depth (s.next c) rest)

/-- The siblings that start here, and for each call that is closed further on
and not opened yet, the siblings that follow it. -/
structure Nesting where
  here : List Node
  after : List (List Node)
  deriving Repr

namespace Nesting

def cons (n : Node) (g : Nesting) : Nesting := { g with here := n :: g.here }

/-- An opening completes the call at hand, or is a word when nothing closes it. -/
def openCall (name : Text) (g : Nesting) : Nesting :=
  match g.after with
  | siblings :: after => { here := .call name g.here :: siblings, after }
  | [] => { here := .word (name ++ ['(']) :: g.here, after := [] }

def close (g : Nesting) : Nesting := { here := [], after := g.here :: g.after }

end Nesting

def nest : List Lexeme → Nesting
  | [] => { here := [], after := [] }
  | .word t :: ls => (nest ls).cons (.word t)
  | .separator t :: ls => (nest ls).cons (.separator t)
  | .opening name :: ls => (nest ls).openCall name
  | .closing :: ls => (nest ls).close

/-- The value tree of a text. -/
def parse (t : Text) : List Node := (nest (lex 0 .plain t)).here

end AtomicCss.Value
