import AtomicCss.Proofs.Css.Identifier
import AtomicCss.Proofs.Value.Tree
import AtomicCss.Step

/-! What the conditions of at-rules mean. A condition is read from the value tree of its text:
`not`, `and` and `or` join groups in parentheses, and a group is a feature or again a condition. A
media query may begin with a type of medium, and a comma list of queries holds where one of
them does. -/
namespace AtomicCss.Css
open Text Value

inductive Condition where
  | feature (text : Text)
  | not (c : Condition)
  | and (a b : Condition)
  | or (a b : Condition)
  deriving DecidableEq, Repr

/-- What a condition asks about: the type of the medium, and which features and declarations are there. -/
structure Device where
  medium : Text
  has : Text → Bool

def Condition.holds (d : Device) : Condition → Bool
  | .feature t => d.has t
  | .not c => !c.holds d
  | .and a b => a.holds d && b.holds d
  | .or a b => a.holds d || b.holds d

/-- A condition piece by piece. What stands in parentheses is read already. -/
inductive Token where
  | word (t : Text)
  | comma
  | group (c : Condition)
  | other
  deriving DecidableEq, Repr

/-- More groups behind a condition, each with the keyword in front. -/
def chain (keyword : Text) (join : Condition → Condition → Condition) (c : Condition) :
    List Token → Option Condition
  | [] => some c
  | .word w :: .group c' :: rest => if w = keyword then chain keyword join (join c c') rest else none
  | _ => none

/-- One or more groups that are joined by `and`. -/
def features? : List Token → Option Condition
  | .group c :: rest => chain "and" .and c rest
  | _ => none

/-- One negated group, or groups that are all joined by `and` or all by `or`. -/
def condition? : List Token → Option Condition
  | [.word w, .group c] => if w = "not" then some c.not else none
  | .group c :: rest => (chain "and" .and c rest).or (chain "or" .or c rest)
  | _ => none

/-- The blanks between tokens mean nothing. -/
def separatorToken (c : Char) : Option Token :=
  if c = ',' then some .comma else if isBlank c then none else some .other

mutual

def nodeTokens (functions : List Text) : Value.Node → List Token
  | .word t => [.word (lower t)]
  | .separator t => t.filterMap separatorToken
  | .call name args =>
    if name = [] ∧ ink (render args) ≠ [] then
      [.group ((condition? (tokens functions args)).getD (.feature (render args)))]
    else if lower name ∈ functions then [.group (.feature (renderNode (.call name args)))]
    else [.other]

/-- The tokens of a value tree, where some functions count as features. -/
def tokens (functions : List Text) : List Value.Node → List Token
  | [] => []
  | n :: ns => nodeTokens functions n ++ tokens functions ns

end

instance (t : Text) : Decidable (StartsIdentifier t) := by
  unfold StartsIdentifier
  split <;> infer_instance

/-- An identifier that is no keyword of media queries. -/
def isMediaType (t : Text) : Bool :=
  decide (StartsIdentifier t) && t.all isIdentifierChar &&
    !(["not".toList, "only".toList, "and".toList, "or".toList, "layer".toList].contains t)

inductive Query where
  | plain (c : Condition)
  | typed (negated : Bool) (type : Text) (features : Option Condition)
  deriving DecidableEq, Repr

def Query.holds (d : Device) : Query → Bool
  | .plain c => c.holds d
  | .typed negated type features =>
    negated != ((type = "all".toList || type = d.medium) && features.all (Condition.holds d))

/-- A type of medium, and possibly features behind it. -/
def typed? (negated : Bool) : List Token → Option Query
  | [.word t] => if isMediaType t then some (.typed negated t none) else none
  | .word t :: .word w :: rest =>
    if isMediaType t && w = "and".toList then (features? rest).map fun c => .typed negated t (some c) else none
  | _ => none

def query? (ts : List Token) : Option Query :=
  match condition? ts with
  | some c => some (.plain c)
  | none =>
    match ts with
    | .word w :: rest =>
      if w = "not" then typed? true rest else if w = "only" then typed? false rest else typed? false ts
    | _ => none

/-- The pieces between the commas. -/
def queries : List Token → List (List Token)
  | [] => [[]]
  | .comma :: ts => [] :: queries ts
  | t :: ts => (queries ts).modifyHead (t :: ·)

/-- The functions that test for support. -/
def supportFunctions : List Text := ["selector", "font-tech", "font-format"]

/-- The tokens of the condition of an at-rule. -/
def headerTokens (header : AtRule) : List Token :=
  tokens (if header.name = "supports" then supportFunctions else []) (parse header.params)

/-- What the condition of an at-rule offers, each part as it is read. Only a media condition may be a list. -/
def alternatives (header : AtRule) : List (Option Query) :=
  if header.name = "supports" then [(condition? (headerTokens header)).map .plain]
  else (queries (headerTokens header)).map query?

/-- The whole condition can be read. -/
def WellFormed (header : AtRule) : Prop := none ∉ alternatives header

instance (header : AtRule) : Decidable (WellFormed header) := inferInstanceAs (Decidable (_ ∉ _))

/-- What is inside the at-rule counts on the device. -/
def Holds (d : Device) (header : AtRule) : Prop := ∃ q, some q ∈ alternatives header ∧ q.holds d = true

theorem condition_of_features {ts : List Token} {c : Condition} (read : features? ts = some c) :
    condition? ts = some c := by
  cases ts with
  | nil => cases read
  | cons t rest =>
    cases t with
    | group first =>
      rw [features?] at read
      rw [condition?, read, Option.some_or]
    | _ => cases read

theorem query_of_features {ts : List Token} {c : Condition} (read : features? ts = some c) :
    query? ts = some (.plain c) := by
  unfold query?
  rw [condition_of_features read]

theorem tokens_space (functions : List Text) {c : Char} (blank : isBlank c = true) (ns : List Value.Node) :
    tokens functions (space c ns) = tokens functions ns := by
  have nothing : separatorToken c = none := by
    have other : c ≠ ',' := by
      rintro rfl
      cases blank
    simp [separatorToken, other, blank]
  fun_cases space c ns <;> simp [tokens, nodeTokens, nothing]

/-- A keyword and a blank in front of a text are one more token. -/
theorem tokens_keyword (functions : List Text) {u : Text} (some_letter : u ≠ [])
    (letters : ∀ c ∈ u, isWordChar c = true) (t : Text) :
    tokens functions (parse (u ++ ' ' :: t)) = .word (lower u) :: tokens functions (parse t) := by
  have apart (ns : List Value.Node) : headWord (space ' ' ns) = false := by
    fun_cases space ' ' ns <;> rfl
  rw [parse, nest_letters _ _ letters, nest_separator _ _ rfl rfl, foldr_spell some_letter (spell_fresh (apart _)),
    tokens, tokens_space functions rfl, nodeTokens]
  rfl

theorem queries_word (w : Text) (ts : List Token) :
    queries (.word w :: ts) = (queries ts).modifyHead (.word w :: ·) := by
  rw [queries]
  nofun

theorem queries_ne_nil (ts : List Token) : ∃ first others, queries ts = first :: others := by
  induction ts with
  | nil => exact ⟨[], [], rfl⟩
  | cons t ts ih =>
    obtain ⟨first, others, cut⟩ := ih
    cases t with
    | comma => exact ⟨[], _, rfl⟩
    | _ => exact ⟨_ :: first, others, by rw [queries, cut, List.modifyHead_cons]; nofun⟩

end AtomicCss.Css
