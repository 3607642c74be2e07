import AtomicCss.Proofs.Value.Calls
import AtomicCss.Proofs.Variant.Printing

/-! Selectors between brackets. A selector is wrapped when it is read and unwrapped
when it is written. If it ends in a backslash, that takes the parenthesis of the
wrapping out of play, and the bracket behind it closes nothing. -/
namespace AtomicCss.Variant
open Text

/-- A wrapped selector. -/
def wrapped (t : Text) : Text := "&:is(".toList ++ (t ++ [')'])

theorem wrapped_track (t : Text) (closers : List Char) :
    track (.plain, closers) (wrapped t) =
      (track (.plain, ')' :: closers) t).bind fun p => track p [')'] := by
  have front : track (.plain, closers) "&:is(".toList = some (.plain, ')' :: closers) := by
    have closed : track (.plain, []) "&:is(".toList = some (.plain, [')']) := by decide
    exact track_below closed closers
  rw [wrapped, track_append_of front, track_append]

theorem closed_wrapped {t : Text} (closed : Closed t) : Closed (wrapped t) := by
  rw [Closed, wrapped_track, closed.track_eq]
  rfl

/-- The short form stands in the long one, where its brackets are those of a call. -/
theorem unwrapIs_cases (t : Text) : Value.unwrapIs t = t ∨
    (t = wrapped (Value.unwrapIs t) ∧ (balanced t = true → Closed (Value.unwrapIs t))) := by
  unfold Value.unwrapIs
  split
  · rename_i amp colon name args tree
    split
    · rename_i known
      obtain ⟨rfl, rfl, rfl⟩ := known
      refine .inr ⟨?_, fun holds => Value.callsClosed_parse holds ['i', 's'] args (by simp [tree])⟩
      conv => lhs; rw [← Value.render_parse t, tree]
      simp [wrapped]
    · exact .inl rfl
  · exact .inl rfl

theorem shortSelector_cases (selector : Text) : shortSelector selector = selector ∨
    (selector = wrapped (shortSelector selector) ∧
      (balanced selector = true → Closed (shortSelector selector))) := by
  unfold shortSelector
  dsimp only
  split
  · rename_i short
    exact (unwrapIs_cases selector).resolve_left short.1 |> .inr
  · exact .inl rfl

theorem anchorSelector_cases (t : Text) :
    (anchorSelector t = t ∨ anchorSelector t = "& ".toList ++ t) ∨ anchorSelector t = wrapped t := by
  unfold anchorSelector
  split
  · exact .inl (.inl rfl)
  · split
    · exact .inl (.inr rfl)
    · exact .inr (by simp [wrapped])

/-- The brackets of a selector between brackets are those of its short form. -/
theorem selector_track (selector : Text) (closers : List Char) :
    track (.plain, closers) (print (.arbitrary selector)) =
      (track (.plain, ']' :: closers) (shortSelector selector)).bind fun p => track p [']'] := by
  have whole : print (.arbitrary selector) =
      '[' :: (Arbitrary.print (shortSelector selector) ++ [']']) := by simp [print]
  rw [whole, track_cons, show turn (.plain, closers) '[' = some (.plain, ']' :: closers) from rfl,
    Option.bind_some, track_append, Arbitrary.print_track]

namespace Spelt

variable {t selector : Text} {v : Variant}

theorem selector_balanced_or_jams (spelt : Spelt t (.arbitrary selector)) :
    balanced (shortSelector selector) = true ∨ Jams (print (.arbitrary selector)) := by
  cases spelt with
  | main main => cases main
  | @selector inner w closed read =>
    have reading := Arbitrary.reading_of_decodeTrimmed closed.balanced read
    have short (holds : balanced (anchorSelector w) = true) :
        balanced (shortSelector (anchorSelector w)) = true := by
      rcases shortSelector_cases (anchorSelector w) with same | ⟨-, closed⟩
      · rwa [same]
      · exact (closed holds).balanced
    rcases anchorSelector_cases w with (same | same) | same
    · exact .inl (short (by rw [same]; exact reading.balanced))
    · refine .inl (short ?_)
      have front : Closed "& ".toList := by decide
      rw [same, front.balanced_append]
      exact reading.balanced
    · rcases shortSelector_cases (anchorSelector w) with long | ⟨unwrapped, -⟩
      · by_cases dangling : Dangling w
        · -- The escaped parenthesis leaves the call open, and the bracket cannot close it.
          right
          intro closers
          obtain ⟨s, reached, -⟩ := balanced_iff.mp reading.balanced
          obtain rfl : s = .escaped := (track_scan reached).symm.trans dangling
          have inside := track_below reached (')' :: ']' :: closers)
          rw [List.nil_append] at inside
          rw [selector_track, long, same, wrapped_track, inside]
          rfl
        · have closed := (closed_iff_not_dangling reading.balanced).mpr dangling
          exact .inl (short (same ▸ (closed_wrapped closed).balanced))
      · have same' : shortSelector (anchorSelector w) = w := by
          have both := unwrapped.symm.trans same
          unfold wrapped at both
          exact List.append_cancel_right (List.append_cancel_left both)
        exact .inl (by rw [same']; exact reading.balanced)

/-- A printed variant leaves as many brackets open as it has texts that are not
closed, or it closes a bracket that it did not open. -/
theorem leaves_or_jams (spelt : Spelt t v) :
    Leaves (loose v.texts) v.print ∨ Jams v.print := by
  by_cases named : IsSelector v
  · obtain ⟨selector, rfl⟩ := named
    rcases spelt.selector_balanced_or_jams with holds | jams
    · left
      have whole := Leaves.bracketed holds (Arbitrary.print_track _ [])
      simpa [print, texts] using whole
    · exact .inr jams
  · exact .inl (spelt.printable named).leaves_print

theorem closed_texts (spelt : Spelt t v) (closed : Closed v.print) : ∀ w ∈ v.texts, Closed w := by
  rcases spelt.leaves_or_jams with leaves | jams
  · exact loose_eq_zero.mp (leaves.closed_iff.mp closed)
  · have reached := jams []
    rw [Closed, reached] at closed
    cases closed

theorem solid_print (spelt : Spelt t v) (closed : Closed v.print) : Solid ':' v.print := by
  have texts_closed := spelt.closed_texts closed
  by_cases named : IsSelector v
  · obtain ⟨selector, rfl⟩ := named
    have inside := Arbitrary.closed_print.mpr (texts_closed (shortSelector selector) (by simp [texts]))
    have solid : Solid ':' ('[' :: (_ ++ [']'])) := .bracketed inside
    simpa [print] using solid
  · exact (spelt.reprint named texts_closed).solid

end Spelt
end AtomicCss.Variant
