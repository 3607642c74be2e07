import AtomicCss.Theme

/-! Reading the tokens of a theme from style sheet text: the declarations of
custom properties in the `@theme` blocks that stand at the top level, outside
of other blocks, strings and comments. -/
namespace AtomicCss.Theme

/-- What surrounds a place of a style sheet. -/
inductive Surroundings where
  | code
  | string (quote : Char)
  | stringEscaped (quote : Char)
  | commentOpening
  | comment
  | commentClosing
  deriving DecidableEq, Repr

/-- A place of a style sheet: its surroundings and the number of open blocks. -/
structure Place where
  within : Surroundings
  depth : Nat
  deriving DecidableEq, Repr

namespace Place

def start : Place := { within := .code, depth := 0 }

def isTopLevel (p : Place) : Bool := p.within == .code && p.depth == 0

/-- The place behind the character `c`, which `following` comes after. A
comment begins and ends with two characters, which belong together. -/
def next (p : Place) (c : Char) (following : Option Char) : Place :=
  match p.within with
  | .commentOpening => { p with within := .comment }
  | .commentClosing => { p with within := .code }
  | .comment => if c = '*' ∧ following = some '/' then { p with within := .commentClosing } else p
  | .stringEscaped q => { p with within := .string q }
  | .string q =>
    if c = '\\' then { p with within := .stringEscaped q }
    else if c = q then { p with within := .code }
    else p
  | .code =>
    if c = '/' ∧ following = some '*' then { p with within := .commentOpening }
    else if c = '"' ∨ c = '\'' then { p with within := .string c }
    else if c = '\x7b' then { p with depth := p.depth + 1 }
    else if c = '\x7d' then { p with depth := p.depth - 1 }
    else p

/-- The place behind a whole text. -/
def after (p : Place) : Text → Place
  | [] => p
  | c :: rest => (p.next c rest.head?).after rest

end Place

/-- The text up to the brace that closes a block, and the text behind it.
`depth` blocks are open inside the block. Comments are passed over; strings
are not. -/
def splitBlock (within : Surroundings) (depth : Nat) : Text → Option (Text × Text)
  | [] => none
  | c :: rest =>
    let goOn (within : Surroundings) (depth : Nat) :=
      (splitBlock within depth rest).map fun (body, after) => (c :: body, after)
    match within with
    | .commentOpening => goOn .comment depth
    | .commentClosing => goOn .code depth
    | .comment =>
      goOn (if c = '*' ∧ rest.head? = some '/' then .commentClosing else .comment) depth
    | _ =>
      if c = '/' ∧ rest.head? = some '*' then goOn .commentOpening depth
      else if c = '\x7b' then goOn .code (depth + 1)
      else if c = '\x7d' then
        match depth with
        | 0 => some ([], rest)
        | depth + 1 => goOn .code depth
      else goOn .code depth

theorem splitBlock_length {t body after : Text} {within : Surroundings} {depth : Nat}
    (h : splitBlock within depth t = some (body, after)) : after.length < t.length := by
  induction t generalizing within depth body after with
  | nil => simp [splitBlock] at h
  | cons c rest ih =>
    have step : ∀ w d, Option.map (fun x : Text × Text => (c :: x.1, x.2))
        (splitBlock w d rest) = some (body, after) → after.length < (c :: rest).length := by
      intro w d e
      obtain ⟨⟨b, a⟩, found, same⟩ := Option.map_eq_some_iff.mp e
      obtain ⟨-, rfl⟩ := Prod.mk.inj same
      exact Nat.lt_succ_of_lt (ih found)
    unfold splitBlock at h
    simp only at h
    repeat' split at h
    all_goals first
      | exact step _ _ h
      | (cases h; simp)

/-- The first block that opens in a text: what stands in it and what follows. -/
def firstBlock (t : Text) : Option (Text × Text) :=
  match Text.splitFirst '\x7b' t with
  | some (_, rest) => splitBlock .code 0 rest
  | none => none

theorem firstBlock_length {t body after : Text} (h : firstBlock t = some (body, after)) :
    after.length < t.length := by
  unfold firstBlock at h
  split at h
  · rename_i cut
    exact Nat.lt_trans (splitBlock_length h) (Text.splitFirst_length cut)
  · simp at h

/-- The bodies of the theme blocks of a text that begins at place `p`. A
theme block that has no end stops the search. -/
def blocksFrom (p : Place) (t : Text) : List Text :=
  match t with
  | [] => []
  | c :: rest =>
    if p.isTopLevel && List.isPrefixOf "@theme".toList (c :: rest) then
      match _h : firstBlock (c :: rest) with
      | none => []
      | some (body, after) =>
        body :: blocksFrom (p.after ((c :: rest).take (rest.length + 1 - after.length))) after
    else blocksFrom (p.next c rest.head?) rest
  termination_by t.length
  decreasing_by
    · exact firstBlock_length _h
    · simp

def blocks (t : Text) : List Text := blocksFrom .start t

/-- The text without its comments. A comment that has no end reaches to the
end of the text. `inside` says whether a comment is open. -/
def dropComments (inside : Bool) : Text → Text
  | [] => []
  | [c] => if inside then [] else [c]
  | c :: d :: rest =>
    if inside then
      if c = '*' ∧ d = '/' then dropComments false rest else dropComments true (d :: rest)
    else if c = '/' ∧ d = '*' then dropComments true rest
    else c :: dropComments false (d :: rest)

/-- The pieces of a text between the semicolons that stand outside of quotes,
parentheses and braces. -/
def statements (quote : Option Char) (depth : Nat) : Text → List Text
  | [] => [[]]
  | c :: rest =>
    match quote with
    | some q => Text.consHead c (statements (if c = q then none else some q) depth rest)
    | none =>
      if c = ';' ∧ depth = 0 then [] :: statements none depth rest
      else if c = '"' ∨ c = '\'' then Text.consHead c (statements (some c) depth rest)
      else if c = '\x7b' ∨ c = '(' then Text.consHead c (statements none (depth + 1) rest)
      else if c = '\x7d' ∨ c = ')' then Text.consHead c (statements none (depth - 1) rest)
      else Text.consHead c (statements none depth rest)

/-- The name and the value in the declaration of a custom property. -/
def declaration? (t : Text) : Option (Text × Text) := do
  let (name, value) ← Text.splitFirst ':' (Text.trim t)
  let name := Text.trim name
  let value := Text.trim value
  if List.isPrefixOf "--".toList name && !value.isEmpty then some (name, value) else none

def declarations (body : Text) : List (Text × Text) :=
  (statements none 0 (dropComments false body)).filterMap declaration?

/-- Takes over, in order, all tokens that a style sheet declares. -/
def apply (theme : Theme) (css : Text) : Theme :=
  ((blocks css).flatMap declarations).foldl (fun theme d => theme.declare d.1 d.2) theme

/-- The theme that a style sheet declares. -/
def ofCss (css : Text) : Theme := empty.apply css

end AtomicCss.Theme
