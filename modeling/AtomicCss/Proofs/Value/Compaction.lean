import AtomicCss.Proofs.Text.Trim
import AtomicCss.Proofs.Value.SpacingWalk

/-! Canonical spacing only takes blank characters away, and only where the
reader is outside of quotes and escapes. Hence it changes neither the visible
characters of a text nor what the text does to the reader of brackets. -/
namespace AtomicCss

namespace Value

/-- The second text is the first one without some of the blank characters
that are read outside of quotes and escapes. -/
inductive Thinned : Scan → Text → Text → Prop
  | nil (s : Scan) : Thinned s [] []
  | keep {s : Scan} {c : Char} {a b : Text} (rest : Thinned (s.next c) a b) :
    Thinned s (c :: a) (c :: b)
  | drop {c : Char} {a b : Text} (blank : Text.isBlank c = true) (rest : Thinned .plain a b) :
    Thinned .plain (c :: a) b

namespace Thinned

variable {s : Scan} {a b c d : Text}

theorem refl (s : Scan) (a : Text) : Thinned s a a := by
  induction a generalizing s with
  | nil => exact .nil s
  | cons c rest ih => exact .keep (ih (s.next c))

theorem append (first : Thinned s a b) (second : Thinned (s.after a) c d) :
    Thinned s (a ++ c) (b ++ d) := by
  induction first with
  | nil => exact second
  | keep _ ih => exact .keep (ih second)
  | drop blank _ ih =>
    refine .drop blank (ih ?_)
    rwa [Scan.after_cons, Text.next_neutral (by trivial) (Text.blank_neutral blank)] at second

theorem ofBlank (blank : a.all Text.isBlank = true) : Thinned .plain a [] := by
  induction a with
  | nil => exact .nil _
  | cons c rest ih =>
    simp only [List.all_cons, Bool.and_eq_true] at blank
    exact .drop blank.1 (ih blank.2)

theorem ink_eq (thinned : Thinned s a b) : Text.ink b = Text.ink a := by
  induction thinned with
  | nil => rfl
  | keep _ ih => simp only [Text.ink, List.filter_cons] at ih ⊢; rw [ih]
  | drop blank _ ih => simpa [Text.ink, blank] using ih

theorem count_eq (thinned : Thinned s a b) : b.count '[' = a.count '[' := by
  induction thinned with
  | nil => rfl
  | keep _ ih => rw [List.count_cons, List.count_cons, ih]
  | drop blank _ ih =>
    rename_i c _ _ _
    have other : c ≠ '[' := by
      rintro rfl
      cases blank
    rw [List.count_cons_of_ne other, ih]

theorem track_eq (thinned : Thinned s a b) (closers : List Char) :
    Text.track (s, closers) b = Text.track (s, closers) a := by
  induction thinned generalizing closers with
  | nil => rfl
  | keep rest ih =>
    rename_i s c a b
    rw [Text.track_cons, Text.track_cons]
    cases step : Text.turn (s, closers) c with
    | none => rfl
    | some q =>
      obtain ⟨s', closers'⟩ := q
      obtain rfl : s' = s.next c := by
        unfold Text.turn at step
        split at step
        · obtain ⟨_, -, same⟩ := Option.map_eq_some_iff.mp step
          cases same
          rfl
        · cases step
          rfl
      exact ih closers'
  | drop blank rest ih =>
    rw [ih, Text.track_cons, Text.turn_neutral (by trivial) (Text.blank_neutral blank)]
    rfl

/-- A visible character in front stays there. -/
theorem head_eq {c : Char} (visible : Text.isBlank c = false) (thinned : Thinned s (c :: a) b) :
    ∃ rest, b = c :: rest := by
  cases thinned with
  | keep rest => exact ⟨_, rfl⟩
  | drop blank _ => simp [visible] at blank

/-- A visible character at the end stays there. -/
theorem endsVisibly (thinned : Thinned s a b) (ends : Text.EndsVisibly a) :
    Text.EndsVisibly b := by
  induction thinned with
  | nil => exact ends
  | @keep s c a b rest ih =>
    intro d last
    cases b with
    | nil =>
      have nothing : a = [] := by
        by_cases empty : a = []
        · exact empty
        · exact absurd rest.ink_eq.symm (ends.tail.ink_ne_nil empty)
      subst nothing
      exact ends d last
    | cons e b => exact ih ends.tail d (by simpa [List.getLast?_cons] using last)
  | drop _ _ ih => exact ih ends.tail

end Thinned

mutual

/-- Every separator is read outside of quotes and escapes, when the text of the
node is read from state `s`. -/
def SettledNode (s : Scan) : Node → Prop
  | .word _ => True
  | .separator _ => s = .plain
  | .call name args => Settled (s.after (name ++ ['('])) args

def Settled (s : Scan) : List Node → Prop
  | [] => True
  | n :: ns => SettledNode s n ∧ Settled (s.after (renderNode n)) ns

end

/-- The same for lists of siblings with a closing in front of each. -/
def SettledAfter (s : Scan) : List (List Node) → Prop
  | [] => True
  | ns :: rest => Settled (s.next ')') ns ∧ SettledAfter ((s.next ')').after (render ns)) rest

theorem settled_spell {s : Scan} {c : Char} {ns : List Node} (settled : Settled (s.next c) ns) :
    Settled s (spell c ns) := by
  fun_cases spell c ns <;> simp_all [Settled, SettledNode]

theorem settled_space {c : Char} {ns : List Node} (live : Scan.plain.live c = true)
    (settled : Settled .plain ns) : Settled .plain (space c ns) := by
  have plain := Scan.next_of_live live
  fun_cases space c ns <;> simp_all [Settled, SettledNode]

theorem settled_parse (t : Text) : Settled .plain (parse t) := by
  refine (nest_lex_induction (motive := fun _ s _ g =>
    Settled s g.here ∧ SettledAfter (s.after (render g.here)) g.after) ?_ ?_ ?_ ?_ ?_ 0 .plain t).1
  · intro depth s
    simp [Settled, SettledAfter]
  · rintro depth s c rest g - ⟨settled, later⟩
    exact ⟨settled_spell settled, by simpa [render_spell] using later⟩
  · rintro depth c rest g live - ⟨settled, later⟩
    have plain := Scan.next_of_live live
    exact ⟨settled_space live settled, by simpa [render_space, plain] using later⟩
  · have opened : Scan.plain.next '(' = .plain := rfl
    rintro depth rest ⟨here, after⟩ ⟨settled, later⟩
    cases after with
    | nil => simp_all [Nesting.openCall, Settled, SettledNode, SettledAfter]
    | cons siblings after => simp_all [Nesting.openCall, Settled, SettledNode, SettledAfter]
  · rintro depth rest g ⟨settled, later⟩
    have closed : Scan.plain.next ')' = .plain := rfl
    simp [Nesting.close, Settled, SettledAfter, closed, settled, later]

theorem blank_of_dropped {before after : List Node} {n : Node}
    (dropped : isDropped before n after = true) : ∃ t, n = .separator t ∧ t.all Text.isBlank = true := by
  cases n with
  | separator t =>
    refine ⟨t, rfl, ?_⟩
    simp only [isDropped, Node.isBlankSeparator, Node.isSpace, Bool.or_eq_true, Bool.and_eq_true,
      beq_iff_eq] at dropped
    rcases dropped with ⟨⟨-, blank⟩, -⟩ | ⟨rfl, -⟩
    · exact blank
    · rfl
  | _ => simp [isDropped, Node.isBlankSeparator, Node.isSpace] at dropped

mutual

theorem thinned_compactNode {s : Scan} : (n : Node) → SettledNode s n →
    Thinned s (renderNode n) (renderNode (compactNode n))
  | .word t, _ => by simpa [compactNode] using Thinned.refl s t
  | .separator t, _ => by simpa [compactNode] using Thinned.refl s t
  | .call name args, settled => by
    have inside := (thinned_compact [] args settled).append (Thinned.refl _ [')'])
    simpa [compactNode] using (Thinned.refl s (name ++ ['('])).append inside

theorem thinned_compact {s : Scan} (before : List Node) : (ns : List Node) → Settled s ns →
    Thinned s (render ns) (render (compact before ns))
  | [], _ => by simpa [compact] using Thinned.nil s
  | n :: after, settled => by
    have later := thinned_compact (n :: before) after settled.2
    rw [compact]
    split
    · rename_i dropped
      obtain ⟨t, rfl, blank⟩ := blank_of_dropped dropped
      have first := Thinned.ofBlank blank
      obtain rfl : s = .plain := settled.1
      simpa using first.append (by simpa using later)
    · simpa using (thinned_compactNode n settled.1).append later

end

/-- A text in its canonical spacing. -/
theorem thinned_compactText (t : Text) : Thinned .plain t (compactText t) := by
  simpa [compactText_eq_compact, render_parse] using thinned_compact [] (parse t) (settled_parse t)

theorem ink_compactText (t : Text) : Text.ink (compactText t) = Text.ink t := (thinned_compactText t).ink_eq

theorem mem_compactText {c : Char} (visible : Text.isBlank c = false) (t : Text) :
    c ∈ compactText t ↔ c ∈ t := by
  rw [← Text.mem_ink visible, ink_compactText, Text.mem_ink visible]

end Value
end AtomicCss
