import AtomicCss.Text.Blank

/-! Texts and the ways this library cuts, trims and rebuilds them. A text is a
list of characters, so each scanner takes one character off the front and
the proofs about it follow the same step. -/
namespace AtomicCss

abbrev Text := List Char

instance : Coe String Text := ⟨String.toList⟩

namespace Text

def trimStart (t : Text) : Text := t.dropWhile isBlank

def trimEnd (t : Text) : Text := (t.reverse.dropWhile isBlank).reverse

/-- Without the blank characters at either end. -/
def trim (t : Text) : Text := trimEnd (trimStart t)

/-- ASCII letters in lower case; all other characters stay. -/
def lower (t : Text) : Text := t.map Char.toLower

/-- Every `c` becomes `image`. -/
def replace (c : Char) (image : Text) (t : Text) : Text :=
  t.flatMap fun d => if d = c then image else [d]

/-- The rest of `t` after `lead`. -/
def stripStart? (lead : Text) (t : Text) : Option Text :=
  if lead.isPrefixOf t then some (t.drop lead.length) else none

/-- The part of `t` before the closing `tail`. -/
def stripEnd? (tail : Text) (t : Text) : Option Text :=
  if tail.isSuffixOf t then some (t.take (t.length - tail.length)) else none

/-- Whether `part` stands somewhere in the text. -/
def occurs (part : Text) : Text → Bool
  | [] => part.isEmpty
  | c :: rest => part.isPrefixOf (c :: rest) || occurs part rest

/-- Puts a character in front of the first piece. -/
def consHead (c : Char) : List Text → List Text
  | [] => [[c]]
  | piece :: pieces => (c :: piece) :: pieces

/-- The pieces between the characters that satisfy `p`. -/
def splitWhere (p : Char → Bool) : Text → List Text
  | [] => [[]]
  | c :: rest => if p c then [] :: splitWhere p rest else consHead c (splitWhere p rest)

/-- The pieces between the occurrences of `sep`. -/
def fields (sep : Char) (t : Text) : List Text := splitWhere (· == sep) t

/-- The longest runs without blank characters. -/
def words (t : Text) : List Text := (splitWhere isBlank t).filter fun w => !w.isEmpty

/-- Both sides of the first `sep`. -/
def splitFirst (sep : Char) : Text → Option (Text × Text)
  | [] => none
  | c :: rest =>
    if c = sep then some ([], rest) else (splitFirst sep rest).map fun (a, b) => (c :: a, b)

theorem splitFirst_length {sep : Char} {t a b : Text} (h : splitFirst sep t = some (a, b)) :
    b.length < t.length := by
  induction t generalizing a with
  | nil => simp [splitFirst] at h
  | cons c rest ih =>
    unfold splitFirst at h
    split at h
    · cases h
      simp
    · obtain ⟨⟨_, _⟩, found, same⟩ := Option.map_eq_some_iff.mp h
      cases same
      exact Nat.lt_succ_of_lt (ih found)

/-- Both sides of every `sep`, the last one first. -/
def splits (sep : Char) : Text → List (Text × Text)
  | [] => []
  | c :: rest =>
    (splits sep rest).map (fun (a, b) => (c :: a, b)) ++ if c = sep then [([], rest)] else []

/-- Both sides of the last `sep`. -/
def splitLast (sep : Char) (t : Text) : Option (Text × Text) := (splits sep t).head?

/-- Both sides of the last place where `part` stands. -/
def splitLastText (part : Text) : Text → Option (Text × Text)
  | [] => none
  | c :: rest =>
    match splitLastText part rest with
    | some (a, b) => some (c :: a, b)
    | none => (stripStart? part (c :: rest)).map fun b => ([], b)

/-- The texts one after the other with `sep` between them. -/
def joinWith (sep : Text) (ts : List Text) : Text := List.intercalate sep ts

/-- One or more ASCII digits and nothing else. -/
def isDigits (t : Text) : Bool := !t.isEmpty && t.all Char.isDigit

end Text
end AtomicCss
