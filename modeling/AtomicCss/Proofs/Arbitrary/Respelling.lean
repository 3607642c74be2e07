import AtomicCss.Arbitrary
import AtomicCss.Proofs.Text.Closing
import AtomicCss.Proofs.Value.Compaction

/-! Writing and reading bracketed text only ever puts one run of characters that
mean nothing to the reader of brackets in the place of another. So brackets
and quotes stay as they are, and what is read from balanced brackets is
balanced again. -/
namespace AtomicCss.Arbitrary
open Text

/-- Characters without a meaning for brackets, or an underscore with its escape. -/
def Mute (u : Text) : Prop := u = ['\\', '_'] ∨ (u ≠ [] ∧ ∀ c ∈ u, Neutral c)

theorem mute_escape : Mute ['\\', '_'] := .inl rfl

theorem mute_neutral {c : Char} (neutral : Neutral c) : Mute [c] :=
  .inr ⟨by simp, by simpa using neutral⟩

theorem track_mute {u : Text} (mute : Mute u) {p : Place} (sound : p.1.Sound) :
    track p u = some (p.1.settle, p.2) := by
  rcases mute with rfl | ⟨some_left, neutral⟩
  · obtain ⟨s, closers⟩ := p
    cases s with
    | plain => simp [track_cons, turn, Scan.live, Scan.next, Scan.settle]
    | escaped =>
      rw [track_cons, turn_escaped, Option.bind_some, track_cons,
        turn_neutral (by trivial) (by decide)]
      rfl
    | quoted q =>
      have other : '\\' ≠ q := by
        rintro rfl
        cases sound
      simp [track_cons, turn, Scan.live, Scan.next, Scan.settle]
    | quotedEscaped q =>
      rw [track_cons, turn_quotedEscaped, Option.bind_some, track_cons,
        turn_neutral (p := (.quoted q, closers)) sound (by decide)]
      rfl
  · induction u generalizing p with
    | nil => contradiction
    | cons c rest ih =>
      rw [track_cons, turn_neutral sound (neutral c (by simp)), Option.bind_some]
      cases rest with
      | nil => rfl
      | cons d rest =>
        rw [ih (p := (p.1.settle, p.2)) (Scan.sound_settle sound) (by simp)
          (fun e member => neutral e (by simp_all)), Scan.settle_settle]

theorem count_mute {u : Text} (mute : Mute u) : u.count '[' = 0 := by
  rcases mute with rfl | ⟨-, neutral⟩
  · rfl
  · refine List.count_eq_zero.mpr fun member => ?_
    exact absurd (neutral _ member) (by decide)

/-- The second text has other characters without a meaning for brackets. -/
inductive Respelled : Text → Text → Prop
  | nil : Respelled [] []
  | same (c : Char) {a b : Text} (rest : Respelled a b) : Respelled (c :: a) (c :: b)
  | swap {u u' a b : Text} (before : Mute u) (after : Mute u') (rest : Respelled a b) :
    Respelled (u ++ a) (u' ++ b)

namespace Respelled

theorem track_eq {a b : Text} (respelled : Respelled a b) {p : Place} (sound : p.1.Sound) :
    track p b = track p a := by
  induction respelled generalizing p with
  | nil => rfl
  | same c rest ih =>
    rw [track_cons, track_cons]
    cases step : turn p c with
    | none => rfl
    | some q => exact ih (turn_sound sound step)
  | swap before after rest ih =>
    rw [track_append_of (track_mute after sound), track_append_of (track_mute before sound),
      ih (p := (p.1.settle, p.2)) (Scan.sound_settle sound)]

theorem count_eq {a b : Text} (respelled : Respelled a b) : b.count '[' = a.count '[' := by
  induction respelled with
  | nil => rfl
  | same c _ ih => rw [List.count_cons, List.count_cons, ih]
  | swap before after _ ih =>
    rw [List.count_append, List.count_append, count_mute before, count_mute after, ih]

end Respelled

theorem unescape_respelled (s : Decoding) (t : Text) : Respelled t (unescape s t) := by
  fun_induction unescape s t with
  | case1 => exact .nil
  | case2 => exact .same _ .nil
  | case3 s rest ih => exact .swap mute_escape (mute_neutral (c := '_') (by decide)) ih
  | case4 s d rest other ih => exact .same _ (.same _ ih)
  | case5 s c rest plain next ih =>
    split
    · rename_i replaced
      obtain ⟨rfl, -⟩ := replaced
      exact .swap (mute_neutral (c := '_') (by decide)) (mute_neutral (c := ' ') (by decide)) ih
    · exact .same c ih

theorem encode_cons (c : Char) (t : Text) :
    encode (c :: t) =
      (if c = '_' then ['\\', '_'] else if c = ' ' then ['_'] else [c]) ++ encode t := by
  by_cases low : c = '_'
  · subst low
    simp [encode, replace]
  · simp [encode, replace, low]

theorem encode_respelled (t : Text) : Respelled t (encode t) := by
  induction t with
  | nil => exact .nil
  | cons c rest ih =>
    rw [encode_cons]
    split
    · rename_i low
      subst low
      exact .swap (mute_neutral (c := '_') (by decide)) mute_escape ih
    · split
      · rename_i space
        subst space
        exact .swap (mute_neutral (c := ' ') (by decide)) (mute_neutral (c := '_') (by decide)) ih
      · exact .same c ih

/-- An operator with or without spaces around it. -/
theorem emit_mute (s : MathState) (c : Char) (rest : Text) :
    s.emit c rest = [c] ∨ (Neutral c ∧ Mute (s.emit c rest)) := by
  unfold MathState.emit
  split
  · rename_i operator
    have neutral : Neutral c := by
      obtain ⟨-, rfl | rfl | rfl | rfl, -⟩ := operator <;> decide
    refine .inr ⟨neutral, .inr ?_⟩
    unfold spacedOut
    have space : Neutral ' ' := by decide
    split
    · simpa using neutral
    · split
      · simpa using neutral
      · split <;> split <;> simp [neutral, space]
  · exact .inl rfl

theorem spaceFrom_respelled (s : MathState) (t : Text) : Respelled t (spaceFrom s t) := by
  induction t generalizing s with
  | nil => exact .nil
  | cons c rest ih =>
    rw [spaceFrom]
    rcases emit_mute s c rest with alone | ⟨neutral, mute⟩
    · rw [alone]
      exact .same c (ih _)
    · exact .swap (u := [c]) (mute_neutral neutral) mute (ih _)

theorem decode_track (t : Text) {p : Place} (sound : p.1.Sound) :
    track p (decode t) = track p t :=
  ((spaceFrom_respelled .start _).track_eq sound).trans ((unescape_respelled .start t).track_eq sound)

/-- What is read between balanced brackets. -/
structure Reading (v : Text) : Prop where
  balanced : balanced v = true
  trimmed : trim v = v
  some_left : v ≠ []

theorem decodeTrimmed_eq {t v : Text} (read : decodeTrimmed t = some v) :
    trim (decode t) = v ∧ v ≠ [] := by
  unfold decodeTrimmed at read
  dsimp only at read
  split at read
  · cases read
  · rename_i some_left
    cases read
    exact ⟨rfl, by simpa using some_left⟩

theorem trimmed_of_decodeTrimmed {t v : Text} (read : decodeTrimmed t = some v) : Trimmed v := by
  obtain ⟨rfl, some_left⟩ := decodeTrimmed_eq read
  exact .of_trim some_left

theorem reading_of_decodeTrimmed {t v : Text} (holds : Text.balanced t = true)
    (read : decodeTrimmed t = some v) : Reading v := by
  obtain ⟨rfl, some_left⟩ := decodeTrimmed_eq read
  refine ⟨balanced_trim ?_, trim_trim _, some_left⟩
  rw [balanced_iff] at holds ⊢
  simpa only [decode_track t (p := (.plain, [])) (by trivial)] using holds

theorem count_decodeTrimmed {t v : Text} (read : decodeTrimmed t = some v) :
    v.count '[' = t.count '[' := by
  obtain ⟨rfl, -⟩ := decodeTrimmed_eq read
  rw [count_trim, decode, spaceOperators, (spaceFrom_respelled .start _).count_eq,
    (unescape_respelled .start t).count_eq]

theorem print_track (v : Text) (closers : List Char) :
    track (.plain, closers) (print v) = track (.plain, closers) v := by
  rw [print, (encode_respelled _).track_eq (by trivial), (Value.thinned_compactText v).track_eq]

theorem count_print (v : Text) : (print v).count '[' = v.count '[' := by
  rw [print, (encode_respelled _).count_eq, (Value.thinned_compactText v).count_eq]

theorem printUnhinted_track {v : Text} (trimmed : trim v = v) (closers : List Char) :
    track (.plain, closers) (printUnhinted v) = track (.plain, closers) v := by
  unfold printUnhinted
  dsimp only
  split
  · rw [trimmed, (encode_respelled _).track_eq (by trivial)]
  · exact print_track v closers

theorem count_printUnhinted (v : Text) : (printUnhinted v).count '[' = v.count '[' := by
  unfold printUnhinted
  dsimp only
  split
  · rw [(encode_respelled _).count_eq, count_trim]
  · exact count_print v

end AtomicCss.Arbitrary
