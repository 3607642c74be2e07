import AtomicCss.Proofs.Migration.ThemeCall
import AtomicCss.Proofs.Theme.OrderedMap
import AtomicCss.Proofs.Value.Parentheses

/-! What migrating a value may change. The migrated value is the value with some
of its calls `theme(…)` replaced: whole calls, with arguments that name a token
of the theme. Every other character stays, in its order. A value that is such a
call is replaced. -/
namespace AtomicCss.Migration
open Text Value

/-- The first part of the path stands for a namespace, and the theme has the token
that the other parts name in it. -/
def Names (theme : Theme) (path token : Text) : Prop :=
  ¬ "--".toList <+: path ∧ ∃ root parts ns, pathParts path = root :: parts ∧
    (root, ns) ∈ pathRoots ∧ theme.contains token = true ∧
      token = ns ++ (parts.filter (· != Theme.defaultKey)).flatMap fun p => '-' :: p

/-- The arguments name a token, or they name one in front of the last slash and
something visible follows it. -/
inductive Asks (theme : Theme) (arguments : Text) : Text → Option Text → Prop
  | token {token : Text} (named : Names theme (trim arguments) token) :
      Asks theme arguments token none
  | modified {path modifier token : Text}
      (unnamed : ∀ token, ¬ Names theme (trim arguments) token)
      (cut : trim arguments = path ++ '/' :: modifier) (last : '/' ∉ modifier)
      (visible : ink modifier ≠ []) (named : Names theme (trim path) token) :
      Asks theme arguments token (some (ink modifier))

/-- What stands for the token after the migration. -/
def reference (context : Context) (token : Text) : Option Text → Text
  | some modifier => "theme".toList ++ '(' :: (token ++ " / ".toList ++ modifier ++ [')'])
  | none =>
    match context with
    | .declaration => "var".toList ++ '(' :: (token ++ [')'])
    | .atRule => "theme".toList ++ '(' :: (token ++ [')'])

/-- The character in front of what follows a text. -/
def front (before : Option Char) (t : Text) : Option Char := t.getLast?.or before

/-- The second text is the first with calls replaced. A call that is replaced is
there as a whole: its parentheses match, and its name does not go on in front,
where `before` stands. -/
inductive Replaced (theme : Theme) (allowed : Context → Prop) : Option Char → Text → Text → Prop
  | nil (before : Option Char) : Replaced theme allowed before [] []
  | keep {before : Option Char} (c : Char) {t t' : Text} (later : Replaced theme allowed (some c) t t') :
      Replaced theme allowed before (c :: t) (c :: t')
  | call {before : Option Char} {arguments token t t' : Text} {modifier : Option Text}
      {context : Context} (apart : ∀ c ∈ before, Boundary c) (complete : Complete arguments)
      (asked : Asks theme arguments token modifier) (known : allowed context)
      (later : Replaced theme allowed (some ')') t t') :
      Replaced theme allowed before ("theme(".toList ++ (arguments ++ ')' :: t))
        (reference context token modifier ++ t')

section

variable {theme : Theme}

theorem token_eq_some {path token : Text} : token? theme path = some token ↔ Names theme path token := by
  have unique : (pathRoots.map Prod.fst).Nodup := by decide
  unfold token? Names
  by_cases dashed : "--".toList <+: path
  · simp only [List.isPrefixOf_iff_prefix, dashed, ↓reduceIte, reduceCtorEq, not_true_eq_false,
      false_and]
  · cases parted : pathParts path with
    | nil => simp only [List.isPrefixOf_iff_prefix, dashed, ↓reduceIte, reduceCtorEq, false_and,
        exists_false, and_false]
    | cons root parts =>
      simp only [List.isPrefixOf_iff_prefix, dashed, ↓reduceIte, Option.bind_eq_some_iff,
        Option.ite_none_right_eq_some, Option.some.injEq, not_false_eq_true, true_and]
      constructor
      · rintro ⟨ns, known, held, rfl⟩
        exact ⟨root, parts, ns, rfl, (Theme.lookup_eq_some_of_unique unique).mp known, held, rfl⟩
      · rintro ⟨root', parts', ns, same, known, held, rfl⟩
        obtain ⟨rfl, rfl⟩ := List.cons.inj same
        exact ⟨ns, (Theme.lookup_eq_some_of_unique unique).mpr known, held, rfl⟩

theorem request_eq_some {arguments token : Text} {modifier : Option Text} :
    request? theme arguments = some (token, modifier) ↔ Asks theme arguments token modifier := by
  unfold request?
  dsimp only
  constructor
  · intro found
    split at found
    · rename_i named
      cases found
      exact .token (token_eq_some.mp named)
    · rename_i unnamed
      split at found
      · cases found
      · rename_i path behind cut
        rw [words_flatten] at found
        split at found
        · cases found
        · rename_i visible
          obtain ⟨held, named, same⟩ := Option.map_eq_some_iff.mp found
          cases same
          obtain ⟨whole, last⟩ := splitLast_eq_some.mp cut
          refine .modified (fun other names => ?_) whole last (by simpa using visible)
            (token_eq_some.mp named)
          rw [token_eq_some.mpr names] at unnamed
          cases unnamed
  · rintro (named | ⟨unnamed, cut, last, visible, named⟩)
    · rw [token_eq_some.mpr named]
    · have absent : token? theme (trim arguments) = none := by
        cases found : token? theme (trim arguments) with
        | none => rfl
        | some other => exact absurd (token_eq_some.mp found) (unnamed other)
      rw [absent, splitLast_eq_some.mpr ⟨cut, last⟩]
      simp [words_flatten, visible, token_eq_some.mpr named]

theorem renderNode_request (context : Context) (token : Text) (modifier : Option Text) :
    renderNode (requestNode context (token, modifier)) = reference context token modifier := by
  have written (name t : Text) : renderNode (.call name [.word t]) = name ++ '(' :: (t ++ [')']) := by
    rw [renderNode_call, render_cons, renderNode_word, render_nil, List.append_nil]
  cases modifier with
  | some modifier => exact written _ _
  | none =>
    cases context with
    | declaration => exact written _ _
    | atRule => exact written _ _

theorem front_append (before : Option Char) (a b : Text) :
    front before (a ++ b) = front (front before a) b := by
  rw [front, front, front, List.getLast?_append, Option.or_assoc]

theorem front_cons (before : Option Char) (c : Char) (t : Text) :
    front before (c :: t) = front (some c) t := front_append before [c] t

namespace Replaced

variable {allowed : Context → Prop} {before : Option Char} {t t' u u' : Text}

theorem same (before : Option Char) (t : Text) : Replaced theme allowed before t t := by
  induction t generalizing before with
  | nil => exact .nil before
  | cons c t ih => exact .keep c (ih (some c))

theorem append (first : Replaced theme allowed before t t')
    (second : Replaced theme allowed (front before t) u u') :
    Replaced theme allowed before (t ++ u) (t' ++ u') := by
  induction first with
  | nil before => exact second
  | keep c later ih =>
    rw [front_cons] at second
    exact .keep c (ih second)
  | @call before arguments token t t' modifier context apart complete asked known later ih =>
    rw [front_append, front_append, front_cons] at second
    have whole := Replaced.call apart complete asked known (ih second)
    simpa using whole

/-- What stands in front matters to a text only if that begins with the name of a call. -/
theorem behind (replaced : Replaced theme allowed before t t') {other : Option Char}
    (apart : t.head? = some 't' → ∀ c ∈ other, Boundary c) : Replaced theme allowed other t t' := by
  cases replaced with
  | nil => exact .nil other
  | keep c later => exact .keep c later
  | call _ complete asked known later => exact .call (apart rfl) complete asked known later

/-- A call that stays keeps its name and its parentheses. -/
theorem around {arguments arguments' : Text} (name : Text)
    (inside : Replaced theme allowed (some '(') arguments arguments')
    (later : Replaced theme allowed (some ')') t t') : Replaced theme allowed before
      (name ++ '(' :: (arguments ++ ')' :: t)) (name ++ '(' :: (arguments' ++ ')' :: t')) := by
  exact (Replaced.same before name).append (.keep '(' (inside.append (.keep ')' later)))

theorem mono {wider : Context → Prop} (replaced : Replaced theme allowed before t t')
    (wide : ∀ context, allowed context → wider context) : Replaced theme wider before t t' := by
  induction replaced with
  | nil before => exact .nil before
  | keep c later ih => exact .keep c ih
  | call apart complete asked known later ih =>
    exact .call apart complete asked (wide _ known) ih

/-- Where no arguments ask for anything, nothing is replaced. -/
theorem eq_of_unasked (replaced : Replaced theme allowed before t t')
    (unasked : ∀ arguments token modifier, ¬ Asks theme arguments token modifier) : t' = t := by
  induction replaced with
  | nil before => rfl
  | keep c later ih => rw [ih]
  | call apart complete asked known later ih => exact absurd asked (unasked _ _ _)

end Replaced

theorem replaced_replaceCalls (context : Context) {ns : List Node} (formed : Formed ns)
    (before : Option Char) (apart : Calls ns → ∀ c ∈ before, Boundary c) :
    Replaced theme (· = context) before (render ns) (render (replaceCalls theme context ns)) := by
  induction formed generalizing before with
  | nil => simpa [replaceCalls] using Replaced.nil before
  | @leaf n ns leaf boundary later ih =>
    have kept : replaceCallsNode theme context n = n := by
      cases n with
      | call name args => exact absurd rfl (leaf name args)
      | _ => rw [replaceCallsNode]
    rw [replaceCalls, kept, render_cons, render_cons]
    apply (Replaced.same before _).append
    apply ih
    intro calls
    obtain ⟨c, last, ends⟩ := boundary calls
    rw [front, last]
    rintro d ⟨⟩
    exact ends
  | @call name args ns complete inside later ih_inside ih_later =>
    have behind : Replaced theme (· = context) (some ')') (render ns)
        (render (replaceCalls theme context ns)) := by
      apply ih_later
      rintro _ d ⟨⟩
      exact .inr (.inl rfl)
    have opened : Replaced theme (· = context) (some '(') (render args)
        (render (replaceCalls theme context args)) := by
      apply ih_inside
      rintro _ d ⟨⟩
      exact .inl rfl
    rw [replaceCalls, replaceCallsNode, render_cons, render_cons, renderNode_call]
    by_cases called : name = "theme".toList
    · rw [if_pos called]
      subst called
      cases node : themeNode? theme context args with
      | none =>
        rw [Option.getD_none, renderNode_call]
        simpa using (Replaced.same _ (render args)).around "theme".toList behind
      | some n =>
        obtain ⟨⟨token, modifier⟩, found, rfl⟩ := Option.map_eq_some_iff.mp node
        have whole : Replaced theme (· = context) before
            ("theme(".toList ++ (render args ++ ')' :: render ns))
            (reference context token modifier ++ render (replaceCalls theme context ns)) :=
          .call (apart ⟨_, _, _, rfl⟩) complete (request_eq_some.mp found) rfl behind
        rw [Option.getD_some, renderNode_request]
        simpa using whole
    · rw [if_neg called, renderNode_call]
      simpa using opened.around name behind

/-- A migrated value is the value with calls replaced by what its context asks for. -/
theorem replaced_migrateValue (theme : Theme) (context : Context) (t : Text) :
    Replaced theme (· = context) none t (migrateValue theme context t) := by
  have replaced : Replaced theme (· = context) none (render (parse t))
      (render (replaceCalls theme context (parse t))) :=
    replaced_replaceCalls context (formed_parse t) none nofun
  rwa [render_parse, ← migrateValue_eq_replaceCalls] at replaced

/-- A value that is one call of the theme. -/
theorem migrateValue_theme (context : Context) {arguments : Text} (complete : Complete arguments) :
    migrateValue theme context ("theme(".toList ++ (arguments ++ [')'])) =
      renderNode (((request? theme arguments).map (requestNode context)).getD
        (.call "theme" (parse arguments))) := by
  have letters : ∀ c ∈ "theme".toList, isWordChar c = true := forall_of_all rfl
  have opened : "theme(".toList ++ (arguments ++ [')']) =
      "theme".toList ++ '(' :: (arguments ++ [')']) := rfl
  rw [migrateValue_eq_replaceCalls, opened, parse_call letters complete, replaceCalls, replaceCalls, replaceCallsNode,
    if_pos rfl, themeNode?, render_parse, render_cons, render_nil, List.append_nil]

/-- A call that asks for a token is replaced. -/
theorem migrateValue_call (context : Context) {arguments token : Text} {modifier : Option Text}
    (complete : Complete arguments) (asked : Asks theme arguments token modifier) :
    migrateValue theme context ("theme(".toList ++ (arguments ++ [')'])) =
      reference context token modifier := by
  rw [migrateValue_theme context complete, request_eq_some.mpr asked, Option.map_some, Option.getD_some,
    renderNode_request]

/-- A call that asks for nothing stays. -/
theorem migrateValue_unasked (context : Context) {arguments : Text} (complete : Complete arguments)
    (unasked : request? theme arguments = none) :
    migrateValue theme context ("theme(".toList ++ (arguments ++ [')'])) =
      "theme(".toList ++ (arguments ++ [')']) := by
  rw [migrateValue_theme context complete, unasked, Option.map_none, Option.getD_none, renderNode_call,
    render_parse]
  rfl

end

end AtomicCss.Migration
