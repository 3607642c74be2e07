import AtomicCss.Text

/-! The types of arbitrary values, by which a class chooses between utilities
that share a root. -/
namespace AtomicCss

inductive DataType where
  | any
  | color
  | length
  | percentage
  | number
  | integer
  | ratio
  | angle
  | url
  | image
  | lineWidth
  | position
  | familyName
  deriving DecidableEq, Repr

namespace DataType

/-- All types, in the order in which they are listed to a user. -/
def all : List DataType :=
  [any, color, length, percentage, number, integer, ratio, angle, url, image, lineWidth,
   position, familyName]

/-- The name of a type in a type hint. -/
def name : DataType → Text
  | any => "any"
  | color => "color"
  | length => "length"
  | percentage => "percentage"
  | number => "number"
  | integer => "integer"
  | ratio => "ratio"
  | angle => "angle"
  | url => "url"
  | image => "image"
  | lineWidth => "line-width"
  | position => "position"
  | familyName => "family-name"

def ofName? (t : Text) : Option DataType := all.find? fun type => type.name == t

/-- The message about a name that no type has. -/
def unknownMessage (t : Text) : Text := "unknown data type `" ++ t ++ "`"

end DataType
end AtomicCss
