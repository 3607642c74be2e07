import AtomicCss.Proofs.Arbitrary.Legibility
import AtomicCss.Proofs.Variant.Selector

/-! Reading the canonical text of a selector between brackets. A selector that was
unwrapped must be wrapped again where it is read, which is judged by what is written
and not by what was unwrapped: a space in front hides a combinator. -/
namespace AtomicCss
open Text

namespace Value

theorem leadsSpaced_closing (c : Char) (rest : Text) :
    leadsSpaced (c :: (rest ++ [')'])) = leadsSpaced (c :: rest) := by
  have stop : (rest ++ [')']).takeWhile isSeparator = rest.takeWhile isSeparator := by
    rw [List.takeWhile_append]
    split
    · rename_i all
      rw [(List.takeWhile_prefix isSeparator).eq_of_length all]
      exact List.append_nil rest
    · rfl
  rw [leadsSpaced_cons, leadsSpaced_cons, stop]

/-- Spaces at the end of a text go away like those in front of a parenthesis. -/
theorem squeeze_closing (ahead : Ahead) {s : Scan} {t : Text} (plain : Scan.after s t = .plain) :
    squeeze ahead [] s (t ++ [')']) = squeeze ahead [] s t ++ [')'] := by
  have solid : isSeparator ')' = false := rfl
  induction s, t using runs_induction generalizing ahead with
  | nil s =>
    cases plain
    rfl
  | hidden s c rest hidden ih =>
    rw [List.cons_append, squeeze_hidden hidden, squeeze_hidden hidden, ih .other plain]
    rfl
  | last run separators =>
    have same : isRunDropped ahead ([] ++ run) [')'] = isRunDropped ahead ([] ++ run) [] := rfl
    rw [squeeze_run separators solid, squeeze_last separators, same]
    rfl
  | run run c rest separators other ih =>
    have scan : Scan.after .plain run = .plain :=
      track_scan (closed_of_neutral fun d member => separator_neutral (separators d member))
    have dropped : isRunDropped ahead ([] ++ run) (c :: (rest ++ [')'])) =
        isRunDropped ahead ([] ++ run) (c :: rest) := by
      unfold isRunDropped
      rw [leadsSpaced_closing]
      rfl
    rw [Scan.after_append, scan] at plain
    rw [List.append_assoc, List.cons_append, squeeze_run separators other, squeeze_run separators other,
      dropped, ih _ plain]
    simp

theorem compactText_wrapped {t : Text} (closed : Closed t) :
    compactText (Variant.wrapped t) = Variant.wrapped (compactText t) := by
  have front (u : Text) : squeeze .edge [] .plain ("&:is(".toList ++ u) =
      "&:is(".toList ++ squeeze .edge [] .plain u := rfl
  rw [compactText_eq_squeeze (Variant.closed_wrapped closed).balanced,
    compactText_eq_squeeze closed.balanced, Variant.wrapped, front, squeeze_closing .edge (track_scan closed)]
  rfl

end Value

namespace Arbitrary

/-- A first character that is visible and neither escapes nor is written with an
escape comes first again. -/
theorem head_reread {c : Char} (visible : isBlank c = false) (backslash : c ≠ '\\') (low : c ≠ '_')
    (t : Text) : (reread (c :: t)).head? = some c := by
  have space := ne_space visible
  have respelled : respell .start (c :: t) = c :: respell (Decoding.start.next c t) t := by
    rw [respell.eq_def]
    simp [backslash, low, space]
  rw [reread_eq, respelled, spaceOperators, spaceFrom, emit_outside rfl]
  exact congrArg List.head? (trim_between (a := []) (by simpa using visible) visible)

theorem decodeTrimmed_encode_iff {t w : Text} :
    decodeTrimmed (encode t) = some w ↔ reread t ≠ [] ∧ reread t = w := by
  unfold decodeTrimmed
  rw [show trim (decode (encode t)) = reread t from rfl]
  by_cases empty : reread t = [] <;> simp [empty]

theorem reading_reread {t : Text} (holds : balanced t = true) (some_left : reread t ≠ []) :
    Reading (reread t) := by
  have encoded : balanced (encode t) = true := by
    rw [balanced_iff, (encode_respelled t).track_eq (by trivial)]
    exact balanced_iff.mp holds
  exact reading_of_decodeTrimmed encoded (decodeTrimmed_encode_iff.mpr ⟨some_left, rfl⟩)

/-- Reading keeps a character that neither escapes nor is written with an escape. -/
theorem mem_reread {c : Char} (visible : isBlank c = false) (backslash : c ≠ '\\') (low : c ≠ '_')
    {t : Text} : c ∈ reread t ↔ c ∈ t := by
  have space := ne_space visible
  have gap (s : Decoding) : c ≠ s.gap := by
    unfold Decoding.gap
    split
    · exact space
    · exact low
  have respelled (s : Decoding) (t : Text) : c ∈ respell s t ↔ c ∈ t := by
    fun_induction respell s t <;> simp_all
  rw [← mem_ink visible, ink_reread, mem_ink visible, respelled]

end Arbitrary

namespace Variant

/-- A text between brackets is read as a selector, unless it is blank or takes the
bracket behind it out of play. -/
theorem parse_bracketed_iff {k : Text} (holds : balanced k = true) {v : Variant} :
    parse? ('[' :: (Arbitrary.encode k ++ [']'])) = some v ↔ ¬ Dangling k ∧ Arbitrary.reread k ≠ [] ∧
      v = .arbitrary (anchorSelector (Arbitrary.reread k)) := by
  have same := (Arbitrary.encode_respelled k).track_eq (p := (.plain, [])) (by trivial)
  have cut (v : Variant) : parse? ('[' :: (Arbitrary.encode k ++ [']'])) = some v ↔
      ∃ inner, Argument.bracketed? ('[' :: (Arbitrary.encode k ++ [']'])) = some inner ∧
        ∃ w, Arbitrary.decodeTrimmed inner = some w ∧ .arbitrary (anchorSelector w) = v := by
    simp [parse?, Option.bind_eq_some_iff]
  rw [cut]
  by_cases dangling : Dangling k
  · refine iff_of_false ?_ (by simp [dangling])
    rintro ⟨inner, bracketed, -⟩
    obtain ⟨s, reached, -⟩ := balanced_iff.mp holds
    unfold Argument.bracketed? at bracketed
    split at bracketed
    · rename_i found
      obtain ⟨i, place, -⟩ := Option.map_eq_some_iff.mp found
      obtain ⟨u, whole, plain⟩ := closedByLast_live place
      obtain rfl : '[' :: Arbitrary.encode k = u := by
        rw [← List.cons_append] at whole
        exact List.append_cancel_right whole
      -- The text in front of the bracket ends in an escape.
      have after : Scan.after .plain (Arbitrary.encode k) = .escaped := by
        rw [track_scan (same.trans reached), ← track_scan reached]
        exact dangling
      rw [Scan.after_cons, show Scan.plain.next '[' = .plain from rfl, after] at plain
      cases plain
    · cases bracketed
  · have closed : Closed (Arbitrary.encode k) := same.trans ((closed_iff_not_dangling holds).mpr dangling)
    have bracketed := (bracketed_eq_some (closed_bracketed closed).balanced).mpr ⟨rfl, closed⟩
    constructor
    · rintro ⟨inner, found, w, decoded, rfl⟩
      rw [bracketed] at found
      cases found
      obtain ⟨some_left, rfl⟩ := Arbitrary.decodeTrimmed_encode_iff.mp decoded
      exact ⟨dangling, some_left, rfl⟩
    · rintro ⟨-, some_left, rfl⟩
      exact ⟨_, bracketed, _, Arbitrary.decodeTrimmed_encode_iff.mpr ⟨some_left, rfl⟩, rfl⟩

/-- The text begins with no combinator and no sign of a rule. -/
def Headless (t : Text) : Prop := ∀ c ∈ t.head?, c ≠ '@' ∧ c ≠ '>' ∧ c ≠ '+' ∧ c ≠ '~'

instance : (t : Text) → Decidable (Headless t)
  | [] => isTrue (by simp [Headless])
  | c :: t => decidable_of_iff (c ≠ '@' ∧ c ≠ '>' ∧ c ≠ '+' ∧ c ≠ '~') (by simp [Headless])

theorem anchorSelector_wraps {t : Text} : anchorSelector t = wrapped t ↔ '&' ∉ t ∧ Headless t := by
  have longer : t ≠ wrapped t := by
    intro same
    have length := congrArg List.length same
    simp [wrapped] at length
    omega
  have other : "& ".toList ++ t ≠ wrapped t := by simp [wrapped]
  unfold anchorSelector
  by_cases anchored : t.head? = some '@' ∨ t.contains '&' = true
  · rw [if_pos anchored]
    refine iff_of_false longer ?_
    rintro ⟨ampersand, head⟩
    rcases anchored with rule | inside
    · exact (head '@' rule).1 rfl
    · exact ampersand (by simpa using inside)
  · rw [if_neg anchored]
    obtain ⟨rule, inside⟩ := not_or.mp anchored
    have ampersand : '&' ∉ t := by simpa using inside
    by_cases combinator : t.head? = some '>' ∨ t.head? = some '+' ∨ t.head? = some '~'
    · rw [if_pos combinator]
      refine iff_of_false other ?_
      rintro ⟨-, head⟩
      rcases combinator with first | first | first
      · exact (head _ first).2.1 rfl
      · exact (head _ first).2.2.1 rfl
      · exact (head _ first).2.2.2 rfl
    · rw [if_neg combinator]
      refine iff_of_true (by simp [wrapped]) ⟨ampersand, fun c head => ?_⟩
      rw [head] at rule combinator
      simpa using And.intro rule combinator

/-- The text is wrapped where it is read: it is not blank, and it begins with no
combinator, no sign of a rule, and no space that is lost. -/
structure Rewrapped (k : Text) : Prop where
  some_left : k ≠ []
  trimmed : trim k = k
  headless : Headless k

instance (k : Text) : Decidable (Rewrapped k) :=
  decidable_of_iff (k ≠ [] ∧ trim k = k ∧ Headless k)
    ⟨fun ⟨some_left, trimmed, headless⟩ => ⟨some_left, trimmed, headless⟩,
      fun wrapped => ⟨wrapped.some_left, wrapped.trimmed, wrapped.headless⟩⟩

theorem print_selector (selector : Text) : print (.arbitrary selector) =
    '[' :: (Arbitrary.encode (Value.compactText (shortSelector selector)) ++ [']']) := by
  simp [print, Arbitrary.print]

/-- A selector that says where the element stands is not anchored again. -/
theorem anchorSelector_reread {k : Text} (known : '&' ∈ k ∨ k.head? = some '@') :
    anchorSelector (Arbitrary.reread k) = Arbitrary.reread k := by
  refine if_pos ?_
  rcases known with ampersand | rule
  · right
    simpa using (Arbitrary.mem_reread (c := '&') rfl (by decide) (by decide)).mpr ampersand
  · left
    obtain ⟨rest, rfl⟩ := List.head?_eq_some_iff.mp rule
    exact Arbitrary.head_reread rfl (by decide) (by decide) rest

theorem anchored_selector (w : Text) :
    '&' ∈ anchorSelector w ∨ (anchorSelector w).head? = some '@' := by
  unfold anchorSelector
  split
  · rename_i anchored
    rcases anchored with rule | ampersand
    · exact .inr rule
    · exact .inl (by simpa using ampersand)
  · split <;> simp

theorem reading_anchorSelector {t w : Text} (read : Arbitrary.decodeTrimmed t = some w)
    (holds : balanced (anchorSelector w) = true) : Arbitrary.Reading (anchorSelector w) := by
  obtain ⟨rfl, some_left⟩ := Arbitrary.decodeTrimmed_eq read
  have trimmed := trim_trim (Arbitrary.decode t)
  generalize trim (Arbitrary.decode t) = w at holds some_left trimmed ⊢
  rcases anchorSelector_cases w with (same | same) | same <;> rw [same] at holds ⊢
  · exact ⟨holds, trimmed, some_left⟩
  · refine ⟨holds, trim_eq_self (fun c head => ?_) (fun c last => ?_), by simp⟩
    · cases head
      rfl
    · rw [List.getLast?_append_of_ne_nil _ some_left] at last
      exact endsVisibly_of_trimmed trimmed c last
  · refine ⟨holds, trim_eq_self (fun c head => ?_) (fun c last => ?_), by simp [wrapped]⟩
    · cases head
      rfl
    · rw [wrapped, ← List.append_assoc, List.getLast?_concat] at last
      cases last
      rfl

/-- A selector that was not unwrapped comes back if its canonical text is legible. -/
theorem whole_comes_back_iff {s : Text} (reading : Arbitrary.Reading s)
    (anchored : '&' ∈ s ∨ s.head? = some '@') (whole : shortSelector s = s) :
    (∃ s', parse? (print (.arbitrary s)) = some (.arbitrary s') ∧
      Value.compactText s' = Value.compactText s) ↔ Arbitrary.Legible (Value.compactText s) := by
  have compact := Arbitrary.compact_compactText reading
  have thinned := Value.thinned_compactText s
  have ink_same := thinned.ink_eq
  rw [print_selector, whole, Arbitrary.legible_iff compact, closed_iff_not_dangling compact.balanced]
  have known : '&' ∈ Value.compactText s ∨ (Value.compactText s).head? = some '@' := by
    rcases anchored with ampersand | rule
    · exact .inl ((Value.mem_compactText rfl s).mpr ampersand)
    · right
      obtain ⟨rest, rfl⟩ := List.head?_eq_some_iff.mp rule
      obtain ⟨rest', same⟩ := thinned.head_eq (c := '@') rfl
      rw [same]
      rfl
  have anchor := anchorSelector_reread known
  have visible : ink (Value.compactText s) ≠ [] := ink_same ▸ reading.ink_ne_nil
  obtain ⟨-, some_left⟩ := Arbitrary.decodeTrimmed_eq (Arbitrary.decodeTrimmed_encode visible)
  simp only [parse_bracketed_iff compact.balanced, arbitrary.injEq, anchor]
  constructor
  · rintro ⟨s', ⟨ends, -, rfl⟩, same⟩
    exact ⟨ends, same⟩
  · rintro ⟨ends, same⟩
    exact ⟨_, ⟨ends, some_left, rfl⟩, same⟩

/-- What is wrapped and becomes a wrapped text by canonical spacing was closed. -/
theorem closed_of_wrapped {r k : Text} (holds : balanced r = true) (closed : Closed k)
    (same : Value.compactText (wrapped r) = wrapped k) : Closed r := by
  have whole : Closed (wrapped r) := by
    rw [← Arbitrary.closed_of_thinned (Value.thinned_compactText (wrapped r)), same]
    exact closed_wrapped closed
  rw [closed_iff_not_dangling holds]
  intro dangling
  obtain ⟨s, reached, -⟩ := balanced_iff.mp holds
  obtain rfl : s = .escaped := (track_scan reached).symm.trans dangling
  have inside := track_below reached [')']
  rw [List.nil_append] at inside
  rw [Closed, wrapped_track, inside] at whole
  cases whole

/-- Only a text that is wrapped again has the canonical spacing of a wrapped one. -/
theorem headless_of_wrapped {r k : Text} (trimmed : trim r = r) (some_left : r ≠ [])
    (same : Value.compactText (anchorSelector r) = wrapped k) (ampersand : '&' ∉ r) : Headless r := by
  obtain ⟨c, rest, rfl⟩ := List.exists_cons_of_ne_nil some_left
  have visible := trim_head trimmed
  have seen := congrArg ink same
  rw [Value.ink_compactText] at seen
  intro d head
  cases head
  refine ⟨?_, ?_, ?_, ?_⟩ <;> rintro rfl <;>
    simp [anchorSelector, ink, wrapped, isBlank, ampersand] at seen

/-- A selector that was unwrapped must also be wrapped again. -/
theorem unwrapped_comes_back_iff {x : Text} (closed : Closed x) (short : shortSelector (wrapped x) = x)
    (anchor : anchorSelector x = wrapped x) :
    (∃ s', parse? (print (.arbitrary (wrapped x))) = some (.arbitrary s') ∧
      Value.compactText s' = Value.compactText (wrapped x)) ↔
        Arbitrary.Legible (Value.compactText x) ∧ Rewrapped (Value.compactText x) := by
  have ampersand : '&' ∉ Arbitrary.reread (Value.compactText x) := by
    rw [Arbitrary.mem_reread rfl (by decide) (by decide), Value.mem_compactText rfl]
    exact (anchorSelector_wraps.mp anchor).1
  have kept : Closed (Value.compactText x) :=
    (Arbitrary.closed_of_thinned (Value.thinned_compactText x)).mpr closed
  have squeezed : Value.squeeze .edge [] .plain (Value.compactText x) = Value.compactText x := by
    rw [← Value.compactText_eq_squeeze kept.balanced, Value.compactText_again]
  rw [print_selector, short, Value.compactText_wrapped closed]
  generalize Value.compactText x = k at ampersand kept squeezed ⊢
  simp only [parse_bracketed_iff kept.balanced, arbitrary.injEq]
  constructor
  · rintro ⟨s', ⟨-, some_left, rfl⟩, same⟩
    have reading := Arbitrary.reading_reread kept.balanced some_left
    have headless := headless_of_wrapped reading.trimmed some_left same ampersand
    rw [anchorSelector_wraps.mpr ⟨ampersand, headless⟩] at same
    have again := closed_of_wrapped reading.balanced kept same
    rw [Value.compactText_wrapped again] at same
    have same : Value.compactText (Arbitrary.reread k) = k := by
      unfold wrapped at same
      exact List.append_cancel_right (List.append_cancel_left same)
    have compact : Arbitrary.Compact k := same ▸ Arbitrary.compact_compactText reading
    have legible := (Arbitrary.legible_iff compact).mpr ⟨kept, same⟩
    refine ⟨legible, ⟨?_, compact.trimmed, ?_⟩⟩
    · rintro rfl
      exact some_left rfl
    · rw [Arbitrary.reread_literal compact.trimmed legible.literal] at headless
      rwa [Headless, Arbitrary.head_spaceOperators] at headless
  · rintro ⟨legible, some_left, trimmed, headless⟩
    obtain ⟨-, same⟩ := (Arbitrary.legible_iff ⟨kept.balanced, trimmed, squeezed⟩).mp legible
    have ends := endsVisibly_of_trimmed trimmed
    obtain ⟨-, some_read⟩ := Arbitrary.decodeTrimmed_eq
      (Arbitrary.decodeTrimmed_encode (ends.ink_ne_nil some_left))
    have head : Headless (Arbitrary.reread k) := by
      rwa [Headless, Arbitrary.reread_literal trimmed legible.literal, Arbitrary.head_spaceOperators]
    refine ⟨_, ⟨legible.ends, some_read, rfl⟩, ?_⟩
    rw [anchorSelector_wraps.mpr ⟨ampersand, head⟩,
      Value.compactText_wrapped (Arbitrary.closed_reread kept ends), same]

/-- An unwrapped selector is wrapped again by itself. -/
theorem anchor_shortSelector {s : Text} (short : shortSelector s ≠ s) :
    anchorSelector (shortSelector s) = s := by
  unfold shortSelector at short ⊢
  dsimp only at short ⊢
  split
  · rename_i known
    exact known.2
  · rename_i other
    simp [other] at short

/-- A selector between brackets comes back from its canonical text, up to its spaces,
exactly when that text is legible and, if the selector was unwrapped, wrapped again. -/
theorem selector_comes_back_iff {u : Text} {v : Variant} (bracket : u.head? = some '[')
    (read : parse? u = some v) : ∃ s, v = .arbitrary s ∧ (balanced s = true →
      ((∃ s', parse? v.print = some (.arbitrary s') ∧ Value.compactText s' = Value.compactText s) ↔
        Arbitrary.Legible (Value.compactText (shortSelector s)) ∧
          (shortSelector s ≠ s → Rewrapped (Value.compactText (shortSelector s))))) := by
  obtain ⟨rest, rfl⟩ := List.head?_eq_some_iff.mp bracket
  obtain ⟨inner, -, w, decoded, rfl⟩ : ∃ inner, Argument.bracketed? ('[' :: rest) = some inner ∧
      ∃ w, Arbitrary.decodeTrimmed inner = some w ∧ .arbitrary (anchorSelector w) = v := by
    simpa [parse?, Option.bind_eq_some_iff] using read
  refine ⟨anchorSelector w, rfl, fun holds => ?_⟩
  have reading := reading_anchorSelector decoded holds
  have anchored := anchored_selector w
  generalize anchorSelector w = s at holds reading anchored ⊢
  by_cases whole : shortSelector s = s
  · rw [whole_comes_back_iff reading anchored whole, whole]
    simp
  · obtain ⟨long, closed⟩ := (shortSelector_cases s).resolve_left whole
    have unwrapped := unwrapped_comes_back_iff (closed holds) (by rw [← long])
      ((anchor_shortSelector whole).trans long)
    rw [← long] at unwrapped
    rw [unwrapped]
    simp [whole]

theorem descendant_selector_comes_back : ∃ s', parse? (print (.arbitrary "&:is(a > _b)")) =
    some (.arbitrary s') ∧ Value.compactText s' = Value.compactText "&:is(a > _b)" := by
  obtain ⟨s, same, comes_back⟩ := selector_comes_back_iff (u := "[a_>_\\_b]")
    (v := .arbitrary "&:is(a > _b)") (by decide) (by decide +kernel)
  cases same
  exact (comes_back (by decide)).mpr (by decide +kernel)

/-- The space in front of the combinator is lost, and so `[>img]` is not wrapped. -/
theorem spaced_combinator_not_wrapped : ¬ ∀ (u : Text) (v : Variant), u.head? = some '[' →
    parse? u = some v → ∃ s s', v = .arbitrary s ∧ parse? v.print = some (.arbitrary s') ∧
      Value.compactText s' = Value.compactText s := by
  intro comes_back
  obtain ⟨s, s', same, read, spaced⟩ := comes_back "[&:is(_>img)]" (.arbitrary "&:is( >img)")
    (by decide) (by decide +kernel)
  have other : parse? (print (.arbitrary "&:is( >img)")) = some (.arbitrary "& >img") := by decide +kernel
  rw [other] at read
  cases same
  cases read
  exact absurd spaced (by decide +kernel)

end Variant

end AtomicCss
