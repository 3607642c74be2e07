import AtomicCss.Text.Scan

/-! Three readings of the brackets of a text. `balanced` asks for proper
nesting, `segment` splits at separators outside of brackets, and
`splitClosing?` finds the square bracket that the last character closes.
All three see live characters only. -/
namespace AtomicCss.Text

/-- The bracket that closes the given one. -/
def closer? : Char → Option Char
  | '(' => some ')'
  | '[' => some ']'
  | '\x7b' => some '\x7d'
  | _ => none

def isCloser (c : Char) : Bool := c == ')' || c == ']' || c == '\x7d'

def isBracket (c : Char) : Bool := (closer? c).isSome || isCloser c

/-- The closers still due after `c`. A closer that is not due next changes nothing. -/
def due (closers : List Char) (c : Char) : List Char :=
  match closer? c with
  | some k => k :: closers
  | none => if isCloser c && closers.head? == some c then closers.tail else closers

/-- The pieces of a text that is read from state `s` inside open brackets. -/
def segmentFrom (sep : Char) : Scan → List Char → Text → List Text
  | _, _, [] => [[]]
  | s, closers, c :: rest =>
    if s.live c && !isBracket c && c == sep && closers.isEmpty then
      [] :: segmentFrom sep (s.next c) closers rest
    else
      consHead c (segmentFrom sep (s.next c) (if s.live c then due closers c else closers) rest)

/-- The pieces between the separators that stand outside of brackets and
quotes and are not escaped. -/
def segment (sep : Char) (t : Text) : List Text := segmentFrom sep .plain [] t

/-- Whether what is read from state `s` closes exactly the brackets that are due. -/
def balancedFrom : Scan → List Char → Text → Bool
  | s, closers, [] => closers.isEmpty && s.outside
  | s, closers, c :: rest =>
    if s.live c then
      match closer? c with
      | some k => balancedFrom (s.next c) (k :: closers) rest
      | none =>
        if isCloser c then
          match closers with
          | [] => false
          | k :: closers => k == c && balancedFrom (s.next c) closers rest
        else balancedFrom (s.next c) closers rest
    else balancedFrom (s.next c) closers rest

/-- Brackets are properly nested and every bracket and quote is closed. -/
def balanced (t : Text) : Bool := balancedFrom .plain [] t

/-- The position of the square bracket that the last character closes, when
`read` characters stand before and `opens` are the positions still open. -/
def closedByLast (read : Nat) : Scan → List Nat → Text → Option Nat
  | _, _, [] => none
  | s, opens, c :: rest =>
    if s.live c && c == '[' then closedByLast (read + 1) (s.next c) (read :: opens) rest
    else if s.live c && c == ']' then
      match opens with
      | [] => none
      | i :: opens =>
        if rest.isEmpty then some i else closedByLast (read + 1) (s.next c) opens rest
    else closedByLast (read + 1) (s.next c) opens rest

/-- Splits `before[inner]` into `before` and `inner`, where the first bracket
is the one that the last character closes. -/
def splitClosing? (t : Text) : Option (Text × Text) :=
  (closedByLast 0 .plain [] t).map fun i => (t.take i, (t.drop (i + 1)).dropLast)

end AtomicCss.Text
