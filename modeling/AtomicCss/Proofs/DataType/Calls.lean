import AtomicCss.Proofs.DataType.Literals
import AtomicCss.Proofs.Text.Cut

/-! Values that are one call of a known function. Canonical spacing leaves the name of the call as
it is, except that a dash between two single spaces is joined with the words around it: the last of
them names the call, and all together may be the name of another one. -/
namespace AtomicCss

namespace Value
open Text

/-- Without some blank characters the parentheses have the same partners. -/
theorem Thinned.passes_eq {s : Scan} {a b : Text} (thinned : Thinned s a b) (n : Nat) :
    passes (n, s) b = passes (n, s) a := by
  induction thinned generalizing n with
  | nil => rfl
  | @keep s c a b _ ih =>
    rw [passes_cons, passes_cons]
    cases step : pass (n, s) c with
    | none => rfl
    | some q =>
      obtain ⟨m, s'⟩ := q
      obtain rfl : s' = s.next c := by
        unfold pass at step
        by_cases live : s.live c = true
        · rw [Scan.next_of_live live]
          grind
        · grind
      exact ih m
  | @drop c a b blank _ ih =>
    have other : c ≠ '(' ∧ c ≠ ')' := by
      constructor <;> (rintro rfl; cases blank)
    have neutral := blank_neutral blank
    rw [ih, passes_cons, pass_inward fun _ => other, Option.bind_some, next_neutral (by trivial) neutral]
    rfl

theorem complete_compactText {t : Text} (complete : Complete t) : Complete (compactText t) :=
  ((thinned_compactText t).passes_eq 0).trans complete

theorem Formed.complete_of_mem {ns : List Node} (formed : Formed ns) {name : Text} {args : List Node}
    (member : .call name args ∈ ns) : Complete (render args) := by
  induction formed with
  | nil => cases member
  | leaf leaf _ _ ih =>
    rcases List.mem_cons.mp member with rfl | member
    · exact absurd rfl (leaf name args)
    · exact ih member
  | call complete _ _ _ ih =>
    rcases List.mem_cons.mp member with same | member
    · cases same
      exact complete
    · exact ih member

end Value

namespace DataType
open Text Value

theorem callName_eq_some {t k : Text} :
    callName? t = some k ↔ ∃ name args, parse t = [.call name args] ∧ Text.lower name = k := by
  unfold callName?
  split
  · rename_i name args read
    rw [read]
    simp
  · rename_i other
    refine iff_of_false nofun ?_
    rintro ⟨name, args, read, -⟩
    exact other name args read

theorem callsOneOf_iff {names : List Text} {t : Text} : callsOneOf names t = true ↔
    ∃ name args, parse t = [.call name args] ∧ Text.lower name ∈ names := by
  rw [callsOneOf, Option.any_eq_true]
  constructor
  · rintro ⟨k, found, known⟩
    obtain ⟨name, args, read, rfl⟩ := callName_eq_some.mp found
    exact ⟨name, args, read, List.contains_iff_mem.mp known⟩
  · rintro ⟨name, args, read, known⟩
    exact ⟨_, callName_eq_some.mpr ⟨name, args, read, rfl⟩, List.contains_iff_mem.mpr known⟩

theorem paren_of_callsOneOf {names : List Text} {t : Text} (calls : callsOneOf names t = true) : '(' ∈ t := by
  obtain ⟨name, args, read, -⟩ := callsOneOf_iff.mp calls
  rw [← render_parse t, read]
  simp

theorem eq_dash_of_toLower {c : Char} (dash : c.toLower = '-') : c = '-' := by
  by_cases upper : 'A'.val ≤ c.val ∧ c.val ≤ 'Z'.val
  · have same : c.toLower.val = c.val + 32 := congrArg Char.val (dif_pos upper)
    rw [dash] at same
    have low := UInt32.le_iff_toNat_le.mp upper.1
    have high := UInt32.le_iff_toNat_le.mp upper.2
    have sum := congrArg UInt32.toNat same
    simp at low high sum
    omega
  · rwa [toLower_of_not_upper upper] at dash

/-- Plain characters with single dashes between them. A dash may come first if `apart`. -/
def hyphenated (apart : Bool) : Text → Bool
  | [] => apart
  | c :: rest => if c = '-' then apart && hyphenated false rest else isPlain c && hyphenated true rest

theorem hyphenated_of_lower {apart : Bool} {t : Text} (good : hyphenated apart (Text.lower t) = true) :
    hyphenated apart t = true := by
  induction t generalizing apart with
  | nil => exact good
  | cons c t ih =>
    rw [Text.lower, List.map_cons, hyphenated] at good
    rw [hyphenated]
    by_cases dash : c = '-'
    · subst dash
      have same : '-'.toLower = '-' := rfl
      rw [if_pos same, Bool.and_eq_true] at good
      rw [if_pos rfl, Bool.and_eq_true]
      exact ⟨good.1, ih good.2⟩
    · rw [if_neg fun same => dash (eq_dash_of_toLower same), Bool.and_eq_true] at good
      rw [if_neg dash, Bool.and_eq_true]
      exact ⟨isPlain_of_lower good.1, ih good.2⟩

section

variable {apart : Bool} {t rest : Text}

theorem hyphenated_letters (good : hyphenated apart t = true) :
    ∀ c ∈ t, isWordChar c = true ∧ (isOperatorChar c = true → c = '-') := by
  induction t generalizing apart with
  | nil => nofun
  | cons c t ih =>
    rw [hyphenated] at good
    split at good
    · rename_i dash
      subst dash
      exact List.forall_mem_cons.mpr ⟨⟨rfl, fun _ => rfl⟩, ih (Bool.and_eq_true_iff.mp good).2⟩
    · obtain ⟨plain, later⟩ := Bool.and_eq_true_iff.mp good
      obtain ⟨name, other⟩ := isPlain_iff.mp plain
      exact List.forall_mem_cons.mpr ⟨⟨isWordChar_of_isNameChar name, by simp [other]⟩, ih later⟩

theorem letters_of_hyphenated (good : hyphenated apart t = true) : ∀ c ∈ t, isWordChar c = true :=
  fun c member => (hyphenated_letters good c member).1

theorem dash_of_operator (good : hyphenated apart t = true) {c : Char} (member : c ∈ t)
    (operator : isOperatorChar c = true) : c = '-' := (hyphenated_letters good c member).2 operator

theorem hyphenated_behind (good : hyphenated apart (t ++ '-' :: rest) = true) :
    hyphenated false rest = true := by
  induction t generalizing apart with
  | nil =>
    rw [List.nil_append, hyphenated, if_pos rfl, Bool.and_eq_true] at good
    exact good.2
  | cons c t ih =>
    rw [List.cons_append, hyphenated] at good
    split at good <;> exact ih (Bool.and_eq_true_iff.mp good).2

theorem hyphenated_first (good : hyphenated false t = true) : ∃ c u, t = c :: u ∧ c ≠ '-' := by
  cases t with
  | nil => cases good
  | cons c u =>
    refine ⟨c, u, rfl, ?_⟩
    rintro rfl
    rw [hyphenated, if_pos rfl] at good
    cases good

end

theorem hyphenated_functions (type : DataType) : ∀ k ∈ functions type, hyphenated false k = true := by
  cases type <;> decide

/-- A text, and the same with single spaces around some of its dashes. -/
inductive Spread : Text → Text → Prop
  | refl (t : Text) : Spread t t
  | dash (p : Text) {t u : Text} (rest : Spread t u) : Spread (p ++ '-' :: t) (p ++ ' ' :: '-' :: ' ' :: u)

/-- It begins like the text. -/
theorem Spread.first {t u : Text} (spread : Spread t u) (good : hyphenated false t = true) :
    ∃ c t' u', t = c :: t' ∧ u = c :: u' := by
  cases spread with
  | refl =>
    obtain ⟨c, t, rfl, -⟩ := hyphenated_first good
    exact ⟨c, t, t, rfl, rfl⟩
  | dash p rest =>
    cases p with
    | nil =>
      obtain ⟨c, u, same, other⟩ := hyphenated_first good
      cases same
      exact absurd rfl other
    | cons c p => exact ⟨c, _, _, rfl, rfl⟩

namespace Spread

variable {t u : Text} (spread : Spread t u)

include spread

theorem mem {c : Char} (member : c ∈ u) : c ∈ t ∨ c = ' ' := by
  induction spread with
  | refl => exact .inl member
  | dash p _ ih =>
    simp only [List.mem_append, List.mem_cons] at member ⊢
    tauto

theorem marks (differ : t ≠ u) : '-' ∈ t ∧ ' ' ∈ u := by
  cases spread with
  | refl => exact absurd rfl differ
  | dash => simp

end Spread

section

variable {name written arguments behind : Text} (complete : Complete arguments)
  (blank : ∀ c ∈ behind, isBlank c = true)

include complete blank

/-- The spaces around the dashes go away. -/
theorem render_spread (spread : Spread name written) (good : hyphenated false name = true) (before : List Node) :
    render (compact before (parse (written ++ '(' :: (arguments ++ ')' :: behind)))) =
      name ++ '(' :: (compactText arguments ++ [')']) := by
  induction spread generalizing before with
  | refl name =>
    have letters := letters_of_hyphenated good
    rw [parse, nest_call letters complete, Nesting.cons, ← parse, parse_blank blank, compact_call,
      compact_behind blank]
    simp [compactText_eq_compact]
  | @dash p name written spread ih =>
    have later := hyphenated_behind good
    have letters (c : Char) (member : c ∈ p) := letters_of_hyphenated good c (by simp [member])
    obtain ⟨c, u, first, other⟩ := hyphenated_first good
    have some_left : p ≠ [] := by
      rintro rfl
      cases first
      exact other rfl
    obtain ⟨d, name', written', same, same'⟩ := spread.first later
    have begins : (written ++ '(' :: (arguments ++ ')' :: behind)).head?.any isSeparator = false := by
      have letter := letters_of_hyphenated later d (by simp [same])
      simp [same', isSeparator_of_isWordChar letter]
    have read := parse_operator (show isOperatorChar '-' = true from rfl) begins
    have whole : p ++ ' ' :: '-' :: ' ' :: written ++ '(' :: (arguments ++ ')' :: behind) =
        p ++ ' ' :: '-' :: ' ' :: (written ++ '(' :: (arguments ++ ')' :: behind)) := by simp
    rw [whole, parse_word letters some_left (by rw [read]; rfl), read, compact_word, compact_operator rfl,
      render_cons, render_cons, ih later]
    simp

theorem compactText_spread {before : Text} (blank' : ∀ c ∈ before, isBlank c = true)
    (spread : Spread name written) (good : hyphenated false name = true) :
    compactText (before ++ (written ++ '(' :: (arguments ++ ')' :: behind))) =
      name ++ '(' :: (compactText arguments ++ [')']) := by
  obtain ⟨d, name', written', same, same'⟩ := spread.first good
  have begins : (written ++ '(' :: (arguments ++ ')' :: behind)).head?.any isSeparator = false := by
    have letter := letters_of_hyphenated good d (by simp [same])
    simp [same', isSeparator_of_isWordChar letter]
  rw [compactText_eq_compact, parse_before blank' begins, compact_before blank', render_spread complete blank spread good]

end

/-- Where nothing is left, nothing but blanks was there. -/
theorem blank_of_compact_nil {before ns : List Node} (parted : Parted ns) (nothing : compact before ns = []) :
    ∀ c ∈ render ns, isBlank c = true := by
  cases parted with
  | nil => simp
  | word => simp [compact_word] at nothing
  | call => simp [compact_call] at nothing
  | @separator t ns alone =>
    rw [compact_separator, List.append_eq_nil_iff] at nothing
    obtain rfl : ns = [] := by
      have head := (compact_head (.separator t :: before) alone).1
      rw [nothing.2] at head
      exact List.isEmpty_iff.mp head.symm
    cases dropped : isDropped before (.separator t) [] with
    | false => simp [dropped] at nothing
    | true =>
      obtain ⟨u, same, blank⟩ := blank_of_dropped dropped
      cases same
      simpa using blank

theorem nil_of_fused {ns : List Node} (fused : Fused ns []) : ns = [] := by
  cases fused with
  | nil => rfl
  | word _ _ joined => cases joined
  | separator _ joined => cases joined

/-- A call that canonical spacing leaves alone was there, with the words in front of it joined by dashes. -/
theorem spread_of_fused {before ns args : List Node} {name : Text} (parted : Parted ns) (filled : Filled ns)
    (other : headSeparator ns = false) (good : hyphenated false name = true)
    (fused : Fused (compact before ns) [.call name args]) :
    ∃ written last args' behind, Spread name written ∧ .call last args' ∈ ns ∧
      render ns = written ++ '(' :: (render args' ++ ')' :: behind) ∧ ∀ c ∈ behind, isBlank c = true := by
  induction size : ns.length using Nat.strong_induction_on generalizing before ns name with
  | h _ ih =>
  cases parted with
  | nil =>
    rw [compact] at fused
    cases fused
  | separator => cases other
  | @call last args' ns _ parted =>
    rw [compact_call] at fused
    generalize same : compact (.call last args' :: before) ns = ms at fused
    cases fused with | call _ _ rest =>
    obtain rfl := nil_of_fused rest
    exact ⟨name, name, args', render ns, .refl name, .head ns, by simp, blank_of_compact_nil parted same⟩
  | @word t ns parted =>
    rw [compact_word] at fused
    cases filled with | word some_left ends filled =>
    cases fused with | word _ rest joined =>
    cases joined with | name _ name =>
    have letters := letters_of_hyphenated good
    cases parted with
    | @separator r ns alone parted =>
      have dropped : isDropped (.word t :: before) (.separator r) ns = true := by
        by_contra stays
        rw [compact_separator, if_neg stays] at rest
        cases rest with | separator _ joined => cases joined
      rcases isDropped_iff.mp dropped with ⟨-, none | rfl⟩ | ⟨rfl, spaced | spaced⟩
      · cases none
      · rw [compact_separator, if_pos dropped, compact] at rest
        cases rest
      · -- The first word would be a dash.
        obtain ⟨op, _, same, operator, -⟩ := word_of_spacedOperator spaced
        cases same
        obtain ⟨c, u, first, dashless⟩ := hyphenated_first good
        cases first
        exact absurd (dash_of_operator good (.head _) operator) dashless
      · obtain ⟨op, behind, rfl, operator, single⟩ := word_of_spacedOperator spaced
        obtain ⟨ns, rfl⟩ := exists_of_headSpace single
        rw [compact_operator operator] at rest
        cases rest with | word _ rest joined =>
        cases joined with | name _ name =>
        cases parted with | word _ parted =>
        cases parted with | separator _ fresh parted =>
        cases filled with | separator _ filled =>
        cases filled with | word _ _ filled =>
        cases filled with | separator _ filled =>
        obtain rfl : op = '-' := dash_of_operator good (by simp) operator
        obtain ⟨written, last, args', behind, spread, member, whole, blank⟩ :=
          ih ns.length (by simp [← size]; omega) parted filled fresh (hyphenated_behind good) rest rfl
        exact ⟨t ++ ' ' :: '-' :: ' ' :: written, last, args', behind, .dash t spread,
          by simp [member], by simp [whole], blank⟩
    | _ =>
      -- No separator stands between this word and the next one, or the name.
      have word := (headWord_of_fused rest).symm.trans (rfl : headWord [.call name args] = true)
      have opens := ends (headWord_of_compact word rfl)
      exact absurd (letters '(' (by simp [opens])) (by decide)

/-- A call as a value: a name with complete arguments. -/
theorem callsOneOf_text_iff {names : List Text} (table : ∀ k ∈ names, hyphenated false k = true) {t : Text} :
    callsOneOf names t = true ↔ ∃ name arguments, Text.lower name ∈ names ∧ Complete arguments ∧
      t = name ++ '(' :: (arguments ++ [')']) := by
  rw [callsOneOf_iff]
  constructor
  · rintro ⟨name, args, read, known⟩
    have member : .call name args ∈ parse t := by simp [read]
    have complete := (formed_parse t).complete_of_mem member
    refine ⟨name, render args, known, complete, ?_⟩
    rw [← render_parse t, read]
    simp
  · rintro ⟨name, arguments, known, complete, rfl⟩
    have letters := letters_of_hyphenated (hyphenated_of_lower (table _ known))
    exact ⟨name, _, parse_call letters complete, known⟩

theorem trim_spread {name written : Text} (spread : Spread name written) (good : hyphenated false name = true)
    (arguments : Text) :
    trim (written ++ '(' :: (arguments ++ [')'])) = written ++ '(' :: (arguments ++ [')']) := by
  obtain ⟨c, name', written', rfl, rfl⟩ := spread.first good
  refine trim_eq_self (fun d head => ?_) (fun d last => ?_)
  · cases head
    exact visible_of_isWordChar (letters_of_hyphenated good c (.head _))
  · have same : d = ')' := by simpa [List.getLast?_cons] using last.symm
    subst same
    rfl

section

variable {v name : Text} {args : List Node} (good : hyphenated false name = true)

include good

/-- Behind blanks, the siblings that canonical spacing turns into one call are all of the value. -/
theorem spread_behind {lead : Text} {ahead ns : List Node} (blank : ∀ c ∈ lead, isBlank c = true)
    (parted : Parted ns) (filled : Filled ns) (other : headSeparator ns = false)
    (fused : Fused (compact ahead ns) [.call name args]) (whole : v = lead ++ render ns)
    (complete : ∀ name args, .call name args ∈ ns → Complete (render args)) :
    ∃ written arguments, Spread name written ∧ Complete arguments ∧
      trim v = written ++ '(' :: (arguments ++ [')']) := by
  obtain ⟨written, last, args, behind, spread, member, same, blank'⟩ :=
    spread_of_fused parted filled other good fused
  refine ⟨written, render args, spread, complete last args member, ?_⟩
  have trimmed := trim_of_parts (trim_spread spread good (render args)) blank blank'
  rw [← trimmed, whole, same]
  simp

/-- What is one call in canonical spacing was one before, but for spaces around dashes of the name. -/
theorem spread_of_parse (read : parse (compactText v) = [.call name args]) :
    ∃ written arguments, Spread name written ∧ Complete arguments ∧
      trim v = written ++ '(' :: (arguments ++ [')']) := by
  have fused := fused_compactText v
  rw [read] at fused
  have parted := parted_parse v
  have filled := filled_parse v
  have written := (render_parse v).symm
  have complete : ∀ name args, .call name args ∈ parse v → Complete (render args) :=
    fun _ _ => (formed_parse v).complete_of_mem
  generalize parse v = ns at fused parted filled written complete
  cases separates : headSeparator ns with
  | false => exact spread_behind good (List.forall_mem_nil _) parted filled separates fused written complete
  | true =>
    cases parted with
    | @separator t ns alone parted =>
      cases filled with | separator _ filled =>
      have dropped : isDropped [] (.separator t) ns = true := by
        by_contra stays
        rw [compact_separator, if_neg stays] at fused
        cases fused with | separator _ joined => cases joined
      obtain ⟨u, same, blank⟩ := blank_of_dropped dropped
      cases same
      rw [compact_separator, if_pos dropped, List.nil_append] at fused
      exact spread_behind good (List.all_eq_true.mp blank) parted filled alone fused (by simpa using written)
        fun name args member => complete name args (.tail _ member)
    | _ => cases separates

end

/-- The value is a call of a function from the list, but for single spaces around dashes of the name. -/
def SpacedCall (names : List Text) (v : Text) : Prop :=
  ∃ name written arguments, Spread name written ∧ name ≠ written ∧ Text.lower name ∈ names ∧
    Complete arguments ∧ trim v = written ++ '(' :: (arguments ++ [')'])

namespace SpacedCall

variable {names : List Text} {v : Text}

theorem paren (spaced : SpacedCall names v) : '(' ∈ trim v := by
  obtain ⟨name, written, arguments, -, -, -, -, whole⟩ := spaced
  simp [whole]

/-- The spaces are not those of a name. -/
theorem no_call (spaced : SpacedCall names v) (table : ∀ k ∈ names, hyphenated false k = true) :
    callsOneOf names (trim v) = false := by
  obtain ⟨name, written, arguments, spread, differ, known, -, whole⟩ := spaced
  refine Bool.eq_false_iff.mpr fun calls => ?_
  obtain ⟨name', arguments', known', -, whole'⟩ := (callsOneOf_text_iff table).mp calls
  have letters := letters_of_hyphenated (hyphenated_of_lower (table _ known))
  have solid := letters_of_hyphenated (hyphenated_of_lower (table _ known'))
  have absent : '(' ∉ written := fun member => by
    rcases spread.mem member with member | same
    · exact absurd (letters _ member) (by decide)
    · cases same
  have absent' : '(' ∉ name' := fun member => absurd (solid _ member) (by decide)
  obtain ⟨rfl, -⟩ := first_unique (whole.symm.trans whole') absent absent'
  exact absurd (solid _ (spread.marks differ).2) (by decide)

end SpacedCall

section

variable {names : List Text} (table : ∀ k ∈ names, hyphenated false k = true) {v : Text}

include table

theorem callsOneOf_of_spread {name written arguments : Text} (spread : Spread name written)
    (known : Text.lower name ∈ names) (complete : Complete arguments)
    (whole : trim v = written ++ '(' :: (arguments ++ [')'])) :
    callsOneOf names (trim (compactText v)) = true := by
  have good := hyphenated_of_lower (table _ known)
  obtain ⟨before, behind, parts, blank, blank'⟩ := trim_parts v
  have compacted := compactText_spread complete blank' blank spread good
  have same : v = before ++ (written ++ '(' :: (arguments ++ ')' :: behind)) := by
    rw [parts, whole]
    simp
  rw [← same] at compacted
  rw [compacted, trim_spread (.refl name) good]
  exact (callsOneOf_text_iff table).mpr ⟨name, _, known, complete_compactText complete, rfl⟩

theorem parse_of_callsOneOf (calls : callsOneOf names (trim (compactText v)) = true) :
    ∃ name args, Text.lower name ∈ names ∧ parse (compactText v) = [.call name args] := by
  obtain ⟨name, arguments, known, complete, whole⟩ := (callsOneOf_text_iff table).mp calls
  have good := hyphenated_of_lower (table _ known)
  obtain ⟨before, behind, parts, blank, blank'⟩ := trim_parts (compactText v)
  have again := compactText_spread complete blank' blank (.refl name) good
  have same : compactText v = before ++ (name ++ '(' :: (arguments ++ ')' :: behind)) := by
    rw [parts, whole]
    simp
  rw [← same, compactText_again] at again
  refine ⟨name, parse (compactText arguments), known, ?_⟩
  rw [again]
  exact parse_call (letters_of_hyphenated good) (complete_compactText complete)

/-- Canonical spacing takes no call away, and it adds those with spaces around dashes of the name. -/
theorem callsOneOf_compactText : callsOneOf names (trim (compactText v)) = true ↔
    callsOneOf names (trim v) = true ∨ SpacedCall names v := by
  constructor
  · intro calls
    obtain ⟨name, args, known, read⟩ := parse_of_callsOneOf table calls
    obtain ⟨written, arguments, spread, complete, whole⟩ :=
      spread_of_parse (hyphenated_of_lower (table _ known)) read
    by_cases same : name = written
    · subst same
      exact .inl ((callsOneOf_text_iff table).mpr ⟨name, arguments, known, complete, whole⟩)
    · exact .inr ⟨name, written, arguments, spread, same, known, complete, whole⟩
  · rintro (calls | ⟨name, written, arguments, spread, -, known, complete, whole⟩)
    · obtain ⟨name, arguments, known, complete, whole⟩ := (callsOneOf_text_iff table).mp calls
      exact callsOneOf_of_spread table (.refl name) known complete whole
    · exact callsOneOf_of_spread table spread known complete whole

end

end DataType
end AtomicCss
