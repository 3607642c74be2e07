import AtomicCss.Proofs.Css.Identifier
import AtomicCss.Proofs.Theme.Blocks
import Mathlib.Data.List.Infix

/-! Which blocks of a style sheet feed the theme. A block is found by the text `@theme`, wherever it
stands outside of blocks, and what is read is the first block behind it. So a block is read if
`@theme` stands in front of it, as the whole name of its at-rule or not, or in a statement since
the block before. Only the blocks of the theme are read, whatever stands in the blocks, exactly if
no other block comes next behind such a place. -/
namespace AtomicCss.Theme
open Text

/-- A text without comments, strings and braces. -/
structure Calm (t : Text) : Prop where
  uncommented : Uncommented t
  bare : ∀ c ∈ t, c ∉ "\"'\x7b\x7d".toList

instance (t : Text) : Decidable (Calm t) :=
  have : Decidable (∀ c ∈ t, c ∉ "\"'\x7b\x7d".toList) := t.decidableBAll _
  decidable_of_iff (Uncommented t ∧ ∀ c ∈ t, c ∉ "\"'\x7b\x7d".toList) ⟨fun h => ⟨h.1, h.2⟩, fun h => ⟨h.1, h.2⟩⟩

/-- A part of a style sheet: blanks, an at-rule that ends in a semicolon, or a block of declarations
behind the head of an at-rule or a selector. -/
inductive Item where
  | gap (blank : Text)
  | statement (name params : Text)
  | atRule (name params : Text) (body : List Text)
  | rule (selector : Text) (body : List Text)

/-- The characters of names, escapes included. -/
def isNamePart (c : Char) : Bool := Css.isIdentifierChar c || c == '\\'

/-- The name of an at-rule, and what follows it. -/
structure Header (name params : Text) : Prop where
  letters : ∀ c ∈ name, isNamePart c = true
  ends : params.head?.any isNamePart = false
  calm : Calm params
  uncut : ';' ∉ params

instance (name params : Text) : Decidable (Header name params) :=
  have : Decidable (∀ c ∈ name, isNamePart c = true) := name.decidableBAll _
  decidable_of_iff ((∀ c ∈ name, isNamePart c = true) ∧ params.head?.any isNamePart = false ∧
    Calm params ∧ ';' ∉ params)
    ⟨fun h => ⟨h.1, h.2.1, h.2.2.1, h.2.2.2⟩, fun h => ⟨h.letters, h.ends, h.calm, h.uncut⟩⟩

/-- A declaration closes its parentheses, so that semicolons around it are not in them. -/
structure OneDeclaration (t : Text) : Prop where
  calm : Calm t
  uncut : ';' ∉ t
  closed : ∀ s ∈ t.tails, s.count '(' ≤ s.count ')'

instance (t : Text) : Decidable (OneDeclaration t) :=
  decidable_of_iff (Calm t ∧ ';' ∉ t ∧ ∀ s ∈ t.tails, s.count '(' ≤ s.count ')')
    ⟨fun h => ⟨h.1, h.2.1, h.2.2⟩, fun h => ⟨h.calm, h.uncut, h.closed⟩⟩

namespace Item

/-- What stands in front of the body, or the whole text where there is none. -/
def lead : Item → Text
  | gap blank => blank
  | statement name params => '@' :: (name ++ (params ++ [';']))
  | atRule name params _ => '@' :: (name ++ params)
  | rule selector _ => selector

def body? : Item → Option (List Text)
  | gap _ | statement .. => none
  | atRule _ _ body | rule _ body => some body

/-- Whether this is a block of the theme. -/
def isTheme : Item → Bool
  | atRule name _ _ => name == "theme".toList
  | _ => false

def WellFormed : Item → Prop
  | gap blank => ∀ c ∈ blank, isBlank c = true
  | statement name params => Header name params
  | atRule name params body => Header name params ∧ ∀ t ∈ body, OneDeclaration t
  | rule selector body => Calm selector ∧ ';' ∉ selector ∧ (trimStart selector).head? ≠ some '@' ∧
      ∀ t ∈ body, OneDeclaration t

instance : (item : Item) → Decidable item.WellFormed
  | gap blank => blank.decidableBAll _
  | statement name params => inferInstanceAs (Decidable (Header name params))
  | atRule name params body => inferInstanceAs (Decidable (Header name params ∧ ∀ t ∈ body, OneDeclaration t))
  | rule selector body => inferInstanceAs (Decidable (Calm selector ∧ ';' ∉ selector ∧
      (trimStart selector).head? ≠ some '@' ∧ ∀ t ∈ body, OneDeclaration t))

/-- The item with other declarations in its block. -/
def withBody (body : List Text) : Item → Item
  | atRule name params _ => atRule name params body
  | rule selector _ => rule selector body
  | item => item

end Item

def bodyText (body : List Text) : Text := joinWith [';'] body

def Item.text (item : Item) : Text :=
  match item.body? with
  | none => item.lead
  | some body => item.lead ++ '\x7b' :: (bodyText body ++ ['\x7d'])

def sheetText (items : List Item) : Text := items.flatMap Item.text

/-- Takes over, in order, what these bodies declare. -/
def declareAll (theme : Theme) (bodies : List (List Text)) : Theme :=
  (bodies.flatten.filterMap declaration?).foldl (fun theme d => theme.declare d.1 d.2) theme

def themeBodies (items : List Item) : List (List Text) := (items.filter Item.isTheme).filterMap Item.body?

/-- The words `@theme` stand in front of a body, or in a statement. -/
def Mentions (item : Item) : Prop := "@theme".toList <:+: item.lead

instance (item : Item) : Decidable (Mentions item) := inferInstanceAs (Decidable (_ <:+: _))

/-- The next block is one of the theme, if there is one. -/
def ThemeNext (items : List Item) : Prop :=
  ∀ item ∈ items.find? fun item => item.body?.isSome, item.isTheme = true

instance (items : List Item) : Decidable (ThemeNext items) := inferInstanceAs (Decidable (∀ _ ∈ _, _))

/-- Wherever `@theme` stands, the next block is one of the theme. -/
def Faithful : List Item → Prop
  | [] => True
  | item :: items => (Mentions item → ThemeNext (item :: items)) ∧ Faithful items

instance : (items : List Item) → Decidable (Faithful items)
  | [] => inferInstanceAs (Decidable True)
  | _ :: items =>
    have : Decidable (Faithful items) := instDecidableFaithful items
    inferInstanceAs (Decidable (_ ∧ _))

/-- The bodies that are read. `called` says whether `@theme` stood in a statement since the last block. -/
def readBodies (called : Bool) : List Item → List (List Text)
  | [] => []
  | item :: items =>
    match item.body? with
    | none => readBodies (called || decide (Mentions item)) items
    | some body => if called || decide (Mentions item) then body :: readBodies false items else readBodies false items

section

variable {t u body : Text}

theorem calm_nil : Calm [] := by decide

theorem calm_semicolon : Calm [';'] := by decide

theorem Calm.append (first : Calm t) (second : Calm u) (apart : ¬ (t.getLast? = some '/' ∧ u.head? = some '*')) :
    Calm (t ++ u) := by
  refine ⟨first.uncommented.append second.uncommented apart, fun c member => ?_⟩
  rcases List.mem_append.mp member with member | member
  · exact first.bare c member
  · exact second.bare c member

theorem Calm.openBraces (calm : Calm t) (depth : Nat) : openBraces depth t = some depth := by
  refine openBraces_plain (fun c member => ?_) depth
  have other := calm.bare c member
  constructor <;> (rintro rfl; exact other (by decide))

/-- One character of a calm text changes nothing. -/
theorem next_calm {c : Char} (bare : c ∉ "\"'\x7b\x7d".toList) {following : Option Char}
    (plain : ¬ (c = '/' ∧ following = some '*')) (depth : Nat) :
    Place.next { within := .code, depth } c following = { within := .code, depth } := by
  simp_all [Place.next]

/-- The character that follows in a calm text, or behind it, makes no comment. -/
theorem calm_cons {c : Char} (calm : Calm (c :: t)) (w : Text) (apart : w.head? ≠ some '*') :
    c ∉ "\"'\x7b\x7d".toList ∧ ¬ (c = '/' ∧ (t ++ w).head? = some '*') ∧ Calm t := by
  obtain ⟨plain, later⟩ := uncommented_cons.mp calm.uncommented
  obtain ⟨first, bare⟩ := List.forall_mem_cons.mp calm.bare
  refine ⟨first, ?_, later, bare⟩
  cases t with
  | nil => exact fun meets => apart meets.2
  | cons d t => simpa using plain

theorem after_calm (calm : Calm t) {w : Text} (apart : w.head? ≠ some '*') (depth : Nat) :
    Place.after { within := .code, depth } (t ++ w) = Place.after { within := .code, depth } w := by
  induction t with
  | nil => rfl
  | cons c t ih =>
    obtain ⟨bare, plain, later⟩ := calm_cons calm w apart
    rw [List.cons_append, Place.after, next_calm bare plain, ih later]

/-- A block leaves no block open. -/
theorem after_block (calm : Calm u) (calm' : Calm body) :
    Place.start.after (u ++ '\x7b' :: (body ++ ['\x7d'])) = .start := by
  have opened := after_calm calm (w := '\x7b' :: (body ++ ['\x7d'])) (by simp) 0
  have closed := after_calm calm' (w := ['\x7d']) (by simp) 1
  have inside : Place.next { within := .code, depth := 0 } '\x7b' (body ++ ['\x7d']).head? =
      { within := .code, depth := 1 } := rfl
  rw [Place.start, opened, Place.after, inside, closed]
  rfl

theorem blocksFrom_inside (calm : Calm body) (v : Text) :
    blocksFrom { within := .code, depth := 1 } (body ++ '\x7d' :: v) = blocksFrom .start v := by
  have inner : ¬ Place.isTopLevel { within := .code, depth := 1 } = true := by decide
  induction body with
  | nil => exact blocksFrom_cons fun top => absurd top inner
  | cons c body ih =>
    obtain ⟨bare, plain, later⟩ := calm_cons calm ('\x7d' :: v) (by simp)
    rw [List.cons_append, blocksFrom_cons fun top => absurd top inner, next_calm bare plain, ih later]

/-- A part that stops in front of a character is found in front of it. -/
theorem prefix_of_stopped {part a b : Text} {c : Char} (stops : c ∉ part) (leads : part <+: a ++ c :: b) :
    part <+: a := by
  obtain ⟨rest, whole⟩ := leads
  rcases List.append_eq_append_iff.mp whole with ⟨m, rfl, -⟩ | ⟨m, rfl, behind⟩
  · exact List.prefix_append ..
  · cases m with
    | nil => simp
    | cons d m =>
      obtain ⟨rfl, -⟩ := List.cons.inj behind
      exact absurd (by simp) stops

theorem theme_not_infix_nil : ¬ "@theme".toList <:+: ([] : Text) := by decide

/-- A block is read if `@theme` stands in the text in front of it. -/
theorem blocksFrom_block (calm : Calm u) (calm' : Calm body) (v : Text) :
    blocksFrom .start (u ++ '\x7b' :: (body ++ '\x7d' :: v)) =
      if "@theme".toList <:+: u then body :: blocksFrom .start v else blocksFrom .start v := by
  induction u with
  | nil =>
    have opens : blocksFrom .start ('\x7b' :: (body ++ '\x7d' :: v)) =
        blocksFrom { within := .code, depth := 1 } (body ++ '\x7d' :: v) :=
      blocksFrom_cons fun _ leads => absurd (List.cons_prefix_cons.mp leads).1 (by decide)
    rw [if_neg theme_not_infix_nil]
    exact opens.trans (blocksFrom_inside calm' v)
  | cons c u ih =>
    by_cases leads : "@theme".toList <+: c :: u
    · have opening : '\x7b' ∉ c :: u := fun member => calm.bare _ member (by decide)
      have found : firstBlock (c :: u ++ '\x7b' :: (body ++ '\x7d' :: v)) = some (body, v) := by
        rw [firstBlock_opening opening]
        exact (splitBlock_eq_some_iff calm'.uncommented).mpr (calm'.openBraces 0)
      have whole : c :: u ++ '\x7b' :: (body ++ '\x7d' :: v) =
          c :: u ++ '\x7b' :: (body ++ ['\x7d']) ++ v := by simp
      rw [if_pos leads.isInfix, blocksFrom_theme rfl (leads.trans (List.prefix_append ..)) found whole,
        after_block calm calm']
    · obtain ⟨bare, plain, later⟩ := calm_cons calm ('\x7b' :: (body ++ '\x7d' :: v)) (by simp)
      have same : "@theme".toList <:+: c :: u ↔ "@theme".toList <:+: u := by
        rw [List.infix_cons_iff]
        exact or_iff_right leads
      have other : ¬ "@theme".toList <+: c :: (u ++ '\x7b' :: (body ++ '\x7d' :: v)) := fun named =>
        leads (prefix_of_stopped (a := c :: u) (by decide) named)
      rw [List.cons_append, blocksFrom_cons fun _ => other, Place.start, next_calm bare plain]
      simp only [same]
      exact ih later

/-- Where no block follows, none is read. -/
theorem blocksFrom_end (calm : Calm u) : blocksFrom .start u = [] := by
  induction u with
  | nil => exact blocksFrom_nil _
  | cons c u ih =>
    by_cases leads : "@theme".toList <+: c :: u
    · have opening : '\x7b' ∉ c :: u := fun member => calm.bare _ member (by decide)
      refine blocksFrom_endless rfl leads ?_
      rw [firstBlock, splitFirst_eq_none.mpr opening]
    · obtain ⟨bare, plain, later⟩ := calm_cons calm [] (by simp)
      rw [List.append_nil] at plain
      rw [blocksFrom_cons fun _ => leads, Place.start, next_calm bare plain]
      exact ih later

/-- Neither `@theme` nor a comment can go on behind the end of the text. -/
def Ended (t : Text) : Prop := ∀ c, t.getLast? = some c → c ∉ "/@theme".toList

theorem ended_concat (t : Text) {c : Char} (other : c ∉ "/@theme".toList) : Ended (t ++ [c]) := by
  intro d last
  rw [List.getLast?_concat] at last
  cases last
  exact other

theorem Ended.append (first : Ended t) (second : Ended u) : Ended (t ++ u) := by
  intro c last
  rw [List.getLast?_append] at last
  cases ends : u.getLast? with
  | none => exact first c (by simpa [ends] using last)
  | some d => exact second c (by simpa [ends] using last)

theorem ended_nil : Ended [] := nofun

/-- The words `@theme` do not stand across the end of a text. -/
theorem infix_append_of_ended (ended : Ended t) (u : Text) :
    "@theme".toList <:+: t ++ u ↔ "@theme".toList <:+: t ∨ "@theme".toList <:+: u := by
  constructor
  · intro inside
    rcases List.infix_append_iff.mp inside with first | second | ⟨a, b, whole, ends, leads⟩
    · exact .inl first
    · exact .inr second
    · rcases List.eq_nil_or_concat a with rfl | ⟨front, c, rfl⟩
      · exact .inr (by rw [whole]; exact leads.isInfix)
      · obtain ⟨before, rfl⟩ := ends
        have last : (before ++ front.concat c).getLast? = some c := by simp
        have member : c ∈ "@theme".toList := by simp [whole]
        exact absurd (List.mem_cons_of_mem '/' member) (ended c last)
  · rintro (first | second)
    · exact first.trans (List.prefix_append t u).isInfix
    · exact second.trans (List.suffix_append t u).isInfix

namespace OneDeclaration

/-- What is open behind a declaration was open in front of it, less the parentheses that it closes. -/
theorem holds_eq (closed : ∀ s ∈ t.tails, s.count '(' ≤ s.count ')') (uncut : ';' ∉ t)
    (bare : ∀ c ∈ t, c ∉ "\"'\x7b\x7d".toList) {depth : Nat} (enough : depth + t.count '(' ≤ t.count ')') :
    holds (none, depth) t = some (none, 0) := by
  induction t generalizing depth with
  | nil =>
    obtain rfl : depth = 0 := by simpa using enough
    rfl
  | cons c t ih =>
    obtain ⟨here, later⟩ := not_or.mp (mt List.mem_cons.mpr uncut)
    obtain ⟨first, bare⟩ := List.forall_mem_cons.mp bare
    rw [List.tails_cons, List.forall_mem_cons] at closed
    have rest := closed.2 t (by simp)
    obtain ⟨depth', step, enough'⟩ : ∃ d, hold (none, depth) c = some (none, d) ∧ d + t.count '(' ≤ t.count ')' := by
      by_cases opens : c = '('
      · subst opens
        refine ⟨depth + 1, rfl, ?_⟩
        simp at enough
        omega
      · by_cases closes : c = ')'
        · subst closes
          refine ⟨depth - 1, rfl, ?_⟩
          simp at enough
          omega
        · have other : c ≠ ';' := Ne.symm here
          refine ⟨depth, ?_, by simpa [opens, closes] using enough⟩
          simp_all [hold]
    rw [holds_cons, step]
    exact ih closed.2 later bare enough'

theorem whole (formed : OneDeclaration t) : Whole t := by
  refine holds_eq formed.closed formed.uncut formed.calm.bare ?_
  have all := formed.closed t (by simp)
  rwa [Nat.zero_add]

end OneDeclaration

end

section

variable {u : Text} {body : List Text} {item : Item} {items : List Item}

theorem calm_bodyText (formed : ∀ t ∈ body, OneDeclaration t) : Calm (bodyText body) := by
  cases body with
  | nil => exact calm_nil
  | cons a body =>
    induction body generalizing a with
    | nil => simpa [bodyText, joinWith, List.intercalate] using (formed a (by simp)).calm
    | cons b body ih =>
      obtain ⟨first, later⟩ := List.forall_mem_cons.mp formed
      rw [bodyText, joinWith_cons_cons]
      exact first.calm.append (calm_semicolon.append (ih b later) (by simp)) (by simp)

/-- A body is cut into the declarations that were written. -/
theorem declarations_bodyText (formed : ∀ t ∈ body, OneDeclaration t) :
    declarations (bodyText body) = body.filterMap declaration? := by
  rw [declarations, dropComments_eq_self (calm_bodyText formed).uncommented]
  cases body with
  | nil => rfl
  | cons a body => rw [bodyText, statements_joinWith fun t member => (formed t member).whole]

/-- No comment begins where a text without slashes ends. -/
theorem calm_before {t : Text} (other : ∀ c ∈ t, c ∉ "/\"'\x7b\x7d".toList) (calm : Calm u) : Calm (t ++ u) := by
  have alone : Calm t := by
    refine ⟨uncommented_of_not_mem fun member => other '/' member (by decide), fun c member inside => ?_⟩
    exact other c member (List.mem_cons_of_mem '/' inside)
  exact alone.append calm fun meets => other '/' (List.mem_of_getLast? meets.1) (by decide)

namespace Header

variable {name params : Text}

theorem other (header : Header name params) : ∀ c ∈ '@' :: name, c ∉ "/\"'\x7b\x7d".toList := by
  have others : ∀ c ∈ "/\"'\x7b\x7d".toList, isNamePart c = false := forall_of_all rfl
  refine List.forall_mem_cons.mpr ⟨by decide, fun c member inside => ?_⟩
  have named := header.letters c member
  rw [others c inside] at named
  cases named

theorem calm_statement (header : Header name params) : Calm (params ++ [';']) :=
  header.calm.append calm_semicolon (by simp)

end Header

namespace Item.WellFormed

theorem blank_other (formed : (Item.gap u).WellFormed) {marks : Text} (others : ∀ c ∈ marks, isBlank c = false) :
    ∀ c ∈ u, c ∉ marks := by
  intro c member inside
  have blank := formed c member
  rw [others c inside] at blank
  cases blank

theorem calm_lead (formed : item.WellFormed) : Calm item.lead := by
  cases item with
  | gap blank =>
    have whole := calm_before (formed.blank_other (forall_of_all rfl)) calm_nil
    rwa [List.append_nil] at whole
  | statement name params => exact calm_before formed.other formed.calm_statement
  | atRule name params body => exact calm_before formed.1.other formed.1.calm
  | rule selector body => exact formed.1

theorem ended_lead (formed : item.WellFormed) (bodiless : item.body? = none) : Ended item.lead := by
  cases item with
  | gap blank => exact fun c last => formed.blank_other (forall_of_all rfl) c (List.mem_of_getLast? last)
  | statement name params =>
    have whole : (Item.statement name params).lead = ('@' :: (name ++ params)) ++ [';'] := by simp [Item.lead]
    rw [whole]
    exact ended_concat _ (by decide)
  | atRule name params body => cases bodiless
  | rule selector body => cases bodiless

theorem declarations (formed : item.WellFormed) (there : item.body? = some body) : ∀ t ∈ body, OneDeclaration t := by
  cases item with
  | gap blank => cases there
  | statement name params => cases there
  | atRule name params b =>
    cases there
    exact formed.2
  | rule selector b =>
    cases there
    exact formed.2.2.2

end Item.WellFormed

/-- What is read of a sheet behind a text without blocks. -/
theorem blocksFrom_items (formed : ∀ item ∈ items, item.WellFormed) (calm : Calm u) (ended : Ended u) :
    blocksFrom .start (u ++ sheetText items) =
      (readBodies (decide ("@theme".toList <:+: u)) items).map bodyText := by
  induction items generalizing u with
  | nil =>
    have nothing : u ++ sheetText [] = u := List.append_nil u
    rw [nothing, blocksFrom_end calm]
    rfl
  | cons item items ih =>
    obtain ⟨first, later⟩ := List.forall_mem_cons.mp formed
    have joined : Calm (u ++ item.lead) := calm.append first.calm_lead fun meets => ended '/' meets.1 (by decide)
    have mentions : decide ("@theme".toList <:+: u ++ item.lead) =
        (decide ("@theme".toList <:+: u) || decide (Mentions item)) := by
      rw [← Bool.decide_or]
      exact decide_eq_decide.mpr (infix_append_of_ended ended item.lead)
    have whole : u ++ sheetText (item :: items) = u ++ item.text ++ sheetText items := by simp [sheetText]
    rw [whole, readBodies, ← mentions, Item.text]
    cases there : item.body? with
    | none =>
      -- The text of the item stands in front of the next block, too.
      exact ih later joined (ended.append (first.ended_lead there))
    | some body =>
      have calm' := calm_bodyText (first.declarations there)
      have read := blocksFrom_block joined calm' (sheetText items)
      have behind := ih later calm_nil ended_nil
      rw [List.nil_append, decide_eq_false theme_not_infix_nil] at behind
      simp only [List.append_assoc, List.cons_append, List.nil_append] at read ⊢
      rw [read, behind]
      by_cases named : "@theme".toList <:+: u ++ item.lead
      · rw [if_pos named, decide_eq_true named]
        rfl
      · rw [if_neg named, decide_eq_false named]
        rfl

theorem mem_readBodies {called : Bool} (read : body ∈ readBodies called items) :
    ∃ item ∈ items, item.body? = some body := by
  induction items generalizing called with
  | nil => cases read
  | cons item items ih =>
    have further {called : Bool} (read : body ∈ readBodies called items) :
        ∃ other ∈ item :: items, other.body? = some body := by
      obtain ⟨other, member, there⟩ := ih read
      exact ⟨other, List.mem_cons_of_mem item member, there⟩
    rw [readBodies] at read
    cases there : item.body? with
    | none =>
      rw [there] at read
      exact further read
    | some b =>
      simp only [there] at read
      split at read
      · rcases List.mem_cons.mp read with rfl | later
        · exact ⟨item, List.mem_cons_self, there⟩
        · exact further later
      · exact further read

/-- A sheet declares what the blocks declare that are read. -/
theorem ofCss_sheetText (formed : ∀ item ∈ items, item.WellFormed) :
    ofCss (sheetText items) = empty.declareAll (readBodies false items) := by
  have read := blocksFrom_items formed calm_nil ended_nil
  rw [List.nil_append, decide_eq_false theme_not_infix_nil] at read
  have cut : (readBodies false items).flatMap (fun body => declarations (bodyText body)) =
      (readBodies false items).flatten.filterMap declaration? := by
    rw [List.filterMap_flatten, ← List.flatMap_def]
    refine List.flatMap_congr fun body read => ?_
    obtain ⟨item, member, there⟩ := mem_readBodies read
    exact declarations_bodyText ((formed item member).declarations there)
  rw [ofCss, apply, blocks, read, List.flatMap_map, cut, declareAll]

theorem mentions_of_isTheme (theme : item.isTheme = true) : Mentions item := by
  cases item with
  | atRule name params body =>
    obtain rfl : name = "theme".toList := by simpa [Item.isTheme] using theme
    have leads : "@theme".toList <+: (Item.atRule "theme".toList params body).lead := ⟨params, rfl⟩
    exact leads.isInfix
  | gap _ => cases theme
  | statement _ _ => cases theme
  | rule _ _ => cases theme

theorem not_isTheme_of_body?_eq_none (bodiless : item.body? = none) : item.isTheme = false := by
  cases item with
  | gap _ => rfl
  | statement _ _ => rfl
  | atRule _ _ _ => cases bodiless
  | rule _ _ => cases bodiless

theorem themeNext_cons_of_none (bodiless : item.body? = none) : ThemeNext (item :: items) ↔ ThemeNext items := by
  simp [ThemeNext, bodiless]

theorem themeNext_cons_of_some (there : item.body? = some body) : ThemeNext (item :: items) ↔ item.isTheme = true := by
  simp [ThemeNext, there]

/-- Only blocks of the theme are read where `@theme` stands in front of them alone. -/
theorem readBodies_of_faithful {called : Bool} (faithful : Faithful items) (next : called = true → ThemeNext items) :
    readBodies called items = themeBodies items := by
  induction items generalizing called with
  | nil => rfl
  | cons item items ih =>
    obtain ⟨here, later⟩ := faithful
    rw [readBodies]
    cases there : item.body? with
    | none =>
      have other := not_isTheme_of_body?_eq_none there
      rw [themeNext_cons_of_none there] at here next
      have next' : (called || decide (Mentions item)) = true → ThemeNext items := by
        intro named
        rcases Bool.or_eq_true_iff.mp named with before | mentioned
        · exact next before
        · exact here (of_decide_eq_true mentioned)
      rw [themeBodies, List.filter_cons_of_neg (by simp [other])]
      exact ih later next'
    | some body =>
      rw [themeNext_cons_of_some there] at here next
      cases theme : item.isTheme with
      | true =>
        have named : (called || decide (Mentions item)) = true := by simp [mentions_of_isTheme theme]
        rw [themeBodies, List.filter_cons_of_pos theme, List.filterMap_cons_some there]
        simp only [named, if_true]
        exact congrArg (body :: ·) (ih later nofun)
      | false =>
        rw [theme] at here next
        have unnamed : (called || decide (Mentions item)) = false := by
          cases called <;> simp_all
        rw [themeBodies, List.filter_cons_of_neg (by simp [theme])]
        simp only [unnamed]
        exact ih later nofun

/-- A declaration that is seen wherever it is read. -/
def probe : Text := "--x: y".toList

/-- The item with the probe in its block, or with nothing in it if it is of the theme. -/
def Item.probed (item : Item) : Item := item.withBody (if item.isTheme then [] else [probe])

@[simp] theorem lead_withBody (body : List Text) (item : Item) : (item.withBody body).lead = item.lead := by
  cases item <;> rfl

@[simp] theorem isTheme_withBody (body : List Text) (item : Item) : (item.withBody body).isTheme = item.isTheme := by
  cases item <;> rfl

@[simp] theorem body?_withBody (body : List Text) (item : Item) :
    (item.withBody body).body? = item.body?.map fun _ => body := by
  cases item <;> rfl

@[simp] theorem withBody_withBody (body body' : List Text) (item : Item) :
    (item.withBody body).withBody body' = item.withBody body' := by
  cases item <;> rfl

theorem Item.WellFormed.withBody (formed : item.WellFormed) (declared : ∀ t ∈ body, OneDeclaration t) :
    (item.withBody body).WellFormed := by
  cases item with
  | gap blank => exact formed
  | statement name params => exact formed
  | atRule name params b => exact ⟨formed.1, declared⟩
  | rule selector b => exact ⟨formed.1, formed.2.1, formed.2.2.1, declared⟩

theorem oneDeclaration_probe : OneDeclaration probe := by decide

theorem Item.WellFormed.probed (formed : item.WellFormed) : item.probed.WellFormed := by
  refine formed.withBody fun t member => ?_
  split at member
  · cases member
  · rw [List.mem_singleton.mp member]
    exact oneDeclaration_probe

theorem declareAll_cons (theme : Theme) (body : List Text) (bodies : List (List Text)) :
    theme.declareAll (body :: bodies) = (theme.declareAll [body]).declareAll bodies := by
  simp [declareAll, List.filterMap_append, List.foldl_append]

/-- Bodies that declare nothing but the probe, and do not declare it, are empty. -/
theorem nil_of_declareAll {bodies : List (List Text)} (probes : ∀ body ∈ bodies, body = [] ∨ body = [probe])
    (nothing : empty.declareAll bodies = empty) : ∀ body ∈ bodies, body = [] := by
  have kept {bodies : List (List Text)} (probes : ∀ body ∈ bodies, body = [] ∨ body = [probe]) :
      (empty.declareAll [[probe]]).declareAll bodies = empty.declareAll [[probe]] := by
    induction bodies with
    | nil => rfl
    | cons body bodies ih =>
      obtain ⟨first, later⟩ := List.forall_mem_cons.mp probes
      rw [declareAll_cons]
      rcases first with rfl | rfl
      · exact ih later
      · have again : (empty.declareAll [[probe]]).declareAll [[probe]] = empty.declareAll [[probe]] := by decide
        rw [again, ih later]
  induction bodies with
  | nil => exact nofun
  | cons body bodies ih =>
    obtain ⟨first, later⟩ := List.forall_mem_cons.mp probes
    rw [declareAll_cons] at nothing
    rcases first with rfl | rfl
    · exact List.forall_mem_cons.mpr ⟨rfl, ih later nothing⟩
    · rw [kept later] at nothing
      exact absurd nothing (by decide)

/-- Where no probe is read, only blocks of the theme are. -/
theorem faithful_of_probed {called : Bool}
    (unread : ∀ body ∈ readBodies called (items.map Item.probed), body = []) :
    Faithful items ∧ (called = true → ThemeNext items) := by
  induction items generalizing called with
  | nil => exact ⟨trivial, fun _ => by simp [ThemeNext]⟩
  | cons item items ih =>
    have same : Mentions item.probed ↔ Mentions item := by simp [Mentions, Item.probed]
    rw [List.map_cons, readBodies] at unread
    simp only [same] at unread
    cases there : item.body? with
    | none =>
      have bodiless : item.probed.body? = none := by simp [Item.probed, there]
      rw [bodiless] at unread
      obtain ⟨faithful, next⟩ := ih unread
      rw [themeNext_cons_of_none there]
      exact ⟨⟨fun mentioned => (themeNext_cons_of_none there).mpr (next (by simp [mentioned])), faithful⟩,
        fun before => next (by simp [before])⟩
    | some body =>
      have bodied : item.probed.body? = some (if item.isTheme then [] else [probe]) := by simp [Item.probed, there]
      rw [bodied] at unread
      rw [Faithful, themeNext_cons_of_some there]
      by_cases named : (called || decide (Mentions item)) = true
      · simp only [named, if_true] at unread
        obtain ⟨first, later⟩ := List.forall_mem_cons.mp unread
        have theme : item.isTheme = true := by
          by_contra other
          rw [if_neg other] at first
          cases first
        exact ⟨⟨fun _ => theme, (ih later).1⟩, fun _ => theme⟩
      · simp only [named] at unread
        obtain ⟨uncalled, unmentioned⟩ := not_or.mp (mt Bool.or_eq_true_iff.mpr named)
        exact ⟨⟨fun mentioned => absurd (decide_eq_true mentioned) unmentioned, (ih unread).1⟩,
          fun before => absurd before uncalled⟩

theorem faithful_map_withBody (body : List Text) : Faithful (items.map (Item.withBody body)) ↔ Faithful items := by
  have next (items : List Item) : ThemeNext (items.map (Item.withBody body)) ↔ ThemeNext items := by
    have same : (fun item : Item => item.body?.isSome) ∘ Item.withBody body = fun item => item.body?.isSome := by
      funext item
      simp
    rw [ThemeNext, List.find?_map, same]
    simp [ThemeNext]
  induction items with
  | nil => rfl
  | cons item items ih =>
    have mentioned : Mentions (item.withBody body) ↔ Mentions item := by simp [Mentions]
    rw [List.map_cons, Faithful, mentioned, ← List.map_cons, next]
    exact and_congr_right fun _ => ih

/-- Whatever the blocks declare, those of the theme alone feed it, exactly if no other block comes next behind
`@theme`. -/
theorem theme_blocks_alone_iff (formed : ∀ item ∈ items, item.WellFormed) :
    (∀ items' : List Item, (∀ item ∈ items', item.WellFormed) →
      items'.map (Item.withBody []) = items.map (Item.withBody []) →
        ofCss (sheetText items') = empty.declareAll (themeBodies items')) ↔ Faithful items := by
  constructor
  · intro fed
    -- Each block that is not of the theme declares a probe, which the theme must not show.
    have formed' : ∀ item ∈ items.map Item.probed, item.WellFormed := by
      intro item member
      obtain ⟨item, inside, rfl⟩ := List.mem_map.mp member
      exact (formed item inside).probed
    have same : (items.map Item.probed).map (Item.withBody []) = items.map (Item.withBody []) := by
      simp [Item.probed, Function.comp_def]
    have theme_nil : ∀ body ∈ themeBodies (items.map Item.probed), body = [] := by
      intro body member
      obtain ⟨item, inside, there⟩ := List.mem_filterMap.mp member
      obtain ⟨member, theme⟩ := List.mem_filter.mp inside
      obtain ⟨item, -, rfl⟩ := List.mem_map.mp member
      simp_all [Item.probed]
    have nothing : empty.declareAll (readBodies false (items.map Item.probed)) = empty := by
      rw [← ofCss_sheetText formed', fed _ formed' same, declareAll, List.flatten_eq_nil_iff.mpr theme_nil]
      rfl
    have probes : ∀ body ∈ readBodies false (items.map Item.probed), body = [] ∨ body = [probe] := by
      intro body read
      obtain ⟨item, member, there⟩ := mem_readBodies read
      obtain ⟨item, -, rfl⟩ := List.mem_map.mp member
      rw [Item.probed, body?_withBody] at there
      obtain ⟨-, -, rfl⟩ := Option.map_eq_some_iff.mp there
      split <;> simp
    exact (faithful_of_probed (nil_of_declareAll probes nothing)).1
  · intro faithful items' formed' same
    -- What the blocks declare has no part in being faithful.
    have faithful' : Faithful items' := by
      rwa [← faithful_map_withBody [], same, faithful_map_withBody []]
    rw [ofCss_sheetText formed', readBodies_of_faithful faithful' fun called => absurd called (by decide)]

end

/-- A sheet in which `@theme` stands in front of blocks of the theme only. -/
def mixedSheet : List Item :=
  [.statement "layer" " theme, base", .gap "\n", .rule "* " ["--c: 0"], .gap " ",
    .atRule "theme" " " [" --a: 1", " --b: calc((2px) + 1px)", " "], .gap " ",
    .atRule "media" " (width > 10px) " ["--d: 3"], .gap " ", .atRule "theme" " inline " ["--a: 4"]]

theorem mixedSheet_read :
    (∀ item ∈ mixedSheet, item.WellFormed) ∧
    sheetText mixedSheet = "@layer theme, base;\n* \x7b--c: 0\x7d @theme \x7b --a: 1;".toList ++
      " --b: calc((2px) + 1px); \x7d @media (width > 10px) \x7b--d: 3\x7d @theme inline \x7b--a: 4\x7d".toList ∧
    (ofCss (sheetText mixedSheet)).entries =
      [("--a".toList, "4".toList), ("--b".toList, "calc((2px) + 1px)".toList)] := by
  have formed : ∀ item ∈ mixedSheet, item.WellFormed := by decide
  have faithful : Faithful mixedSheet := by decide
  have fed := (theme_blocks_alone_iff formed).mpr faithful mixedSheet formed rfl
  refine ⟨formed, by cbv, ?_⟩
  rw [fed]
  decide

/-- A sheet with no block of the theme. -/
def themedSheet : List Item := [.atRule "themed" " " [" --a: 1", " "]]

/-- The block feeds the theme, as the name of its at-rule begins with the name of the theme. -/
theorem themed_block_read :
    sheetText themedSheet = "@themed \x7b --a: 1; \x7d".toList ∧ themeBodies themedSheet = [] ∧
    (ofCss (sheetText themedSheet)).entries = [("--a".toList, "1".toList)] := by
  have formed : ∀ item ∈ themedSheet, item.WellFormed := by decide
  refine ⟨by decide, rfl, ?_⟩
  rw [ofCss_sheetText formed]
  decide

end AtomicCss.Theme
