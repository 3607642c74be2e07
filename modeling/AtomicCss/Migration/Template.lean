import AtomicCss.Text

/-! Replacing the classes that were found in the text of a template. Places are
counted in bytes of the UTF-8 form of the text. -/
namespace AtomicCss.Migration

/-- A class and the range of bytes in which it was found. -/
structure Finding where
  text : Text
  start : Nat
  stop : Nat
  deriving DecidableEq, Repr

/-- The number of bytes of a text. -/
def byteLength : Text → Nat
  | [] => 0
  | c :: rest => c.utf8Size + byteLength rest

/-- The finding of a text at a place. -/
def Finding.at (text : Text) (start : Nat) : Finding :=
  { text, start, stop := start + byteLength text }

/-- Splits a text after so many bytes, if a character ends there. -/
def splitBytes (n : Nat) : Text → Option (Text × Text)
  | [] => if n = 0 then some ([], []) else none
  | c :: rest =>
    if n = 0 then some ([], c :: rest)
    else if n < c.utf8Size then none
    else (splitBytes (n - c.utf8Size) rest).map fun (a, b) => (c :: a, b)

/-- The text in a range of bytes. -/
def slice? (start stop : Nat) (t : Text) : Option Text :=
  if stop < start then none
  else
    (splitBytes start t).bind fun (_, rest) =>
      (splitBytes (stop - start) rest).map fun (inner, _) => inner

/-- The order of replacement: from the end of the template to its beginning,
and the longer one of two findings that begin together. -/
def Finding.before (a b : Finding) : Bool :=
  b.start < a.start || (a.start == b.start && b.stop ≤ a.stop)

/-- The findings, in the order of replacement, that hold their text and do not
reach beyond the place `bound` or over one that was chosen earlier. -/
def choose (content : Text) (bound : Nat) : List Finding → List Finding
  | [] => []
  | f :: fs =>
    if f.stop ≤ bound ∧ slice? f.start f.stop content = some f.text then
      f :: choose content f.start fs
    else choose content bound fs

/-- The findings that are replaced, the last one first. -/
def chosen (content : Text) (findings : List Finding) : List Finding :=
  choose content (byteLength content) (findings.mergeSort Finding.before)

/-- The content with each finding replaced by its image. -/
def weave (image : Text → Text) (content : Text) : List Finding → Text
  | [] => content
  | f :: fs =>
    match splitBytes f.stop content, splitBytes f.start content with
    | some (_, after), some (before, _) => weave image before fs ++ image f.text ++ after
    | _, _ => weave image content fs

/-- The template with the chosen findings replaced by their images. -/
def replaceFindings (image : Text → Text) (content : Text) (findings : List Finding) : Text :=
  weave image content (chosen content findings)

end AtomicCss.Migration
