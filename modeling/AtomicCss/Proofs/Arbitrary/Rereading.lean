import AtomicCss.Proofs.Arbitrary.Respelling

/-! What is read where a text was written between brackets. An escaped space
comes back as an underscore, an escaped underscore as a backslash and a space, and
within `url(...)` a space comes back as an underscore; everything else is
read as it was. -/
namespace AtomicCss.Arbitrary
open Text

namespace Decoding

/-- A quote is only ever opened by a quote character. -/
def Sound (s : Decoding) : Prop := ∀ q, s.quote = some q → Scan.isQuote q = true

theorem sound_start : Sound start := by simp [Sound, start]

theorem sound_next {s : Decoding} (sound : s.Sound) (c : Char) (rest : Text) :
    (s.next c rest).Sound := by
  unfold next
  split
  · split
    · simp [Sound]
    · exact sound
  · rename_i none_open
    split
    · rename_i opens
      intro q same
      cases same
      rcases opens with rfl | rfl <;> rfl
    · split
      · simp [Sound, none_open]
      · split
        · simp [Sound, none_open]
        · split <;> simp [Sound, none_open]

/-- How a written space is read. -/
def gap (s : Decoding) : Char := if s.url = none then ' ' else '_'

theorem next_underscore {s : Decoding} (sound : s.Sound) (rest : Text) : s.next '_' rest = s := by
  have other : opensUrl ('_' :: rest) = false := by simp [opensUrl, lower]
  unfold next
  split
  · rename_i q open_
    have quote := sound q open_
    have different : '_' ≠ q := by
      rintro rfl
      cases quote
    simp [different]
  · simp [other]

private theorem lower_take_encode {p : Text} (plain : ∀ c ∈ p, c ≠ '_' ∧ c ≠ ' ' ∧ c ≠ '\\')
    (t : Text) : lower ((encode t).take p.length) = p ↔ lower (t.take p.length) = p := by
  induction p generalizing t with
  | nil => simp [lower]
  | cons d p ih =>
    have head := plain d (by simp)
    have rest := ih (fun c member => plain c (by simp [member]))
    cases t with
    | nil => rfl
    | cons c t =>
      rw [encode_cons]
      by_cases low : c = '_'
      · subst low
        simp [lower, show Char.toLower '\\' = '\\' from rfl, show Char.toLower '_' = '_' from rfl,
          head.1.symm, head.2.2.symm]
      · by_cases space : c = ' '
        · subst space
          simp [lower, show Char.toLower ' ' = ' ' from rfl, show Char.toLower '_' = '_' from rfl,
            head.1.symm, head.2.1.symm]
        · have kept := rest t
          simp only [lower, List.map_take] at kept
          simp [lower, low, space, kept]

/-- Escaping does not hide the beginning of `url(...)` and makes no new one. -/
theorem next_encode (s : Decoding) (c : Char) (t : Text) : s.next c (encode t) = s.next c t := by
  have same : opensUrl (c :: encode t) = opensUrl (c :: t) := by
    have tail := lower_take_encode (p := ['r', 'l', '(']) (by simp) t
    simp only [lower, List.length_cons, List.length_nil] at tail
    have cut (t : Text) : opensUrl (c :: t) = true ↔
        c.toLower = 'u' ∧ (t.take 3).map Char.toLower = ['r', 'l', '('] := by
      simp [opensUrl, lower]
    rw [Bool.eq_iff_iff, cut, cut, tail]
  unfold next
  rw [same]

end Decoding

/-- The text that is unescaped from an escaped text, from state `s` on. -/
def respell (s : Decoding) : Text → Text
  | [] => []
  | c :: rest =>
    if c = '\\' then
      match rest with
      | [] => ['\\']
      | d :: rest =>
        if d = '_' then '\\' :: '\\' :: s.gap :: respell s rest
        else if d = ' ' then '_' :: respell s rest
        else '\\' :: d :: respell s rest
    else if c = '_' then '_' :: respell s rest
    else if c = ' ' then s.gap :: respell s rest
    else c :: respell (s.next c rest) rest

theorem unescape_plain (s : Decoding) {c : Char} (plain : c ≠ '\\') (t : Text) :
    unescape s (c :: t) =
      (if c = '_' ∧ (s.next c t).url = none then ' ' else c) :: unescape (s.next c t) t := by
  rw [unescape.eq_def]
  simp [plain]

theorem unescape_gap {s : Decoding} (sound : s.Sound) (t : Text) :
    unescape s ('_' :: t) = s.gap :: unescape s t := by
  rw [unescape_plain s (by decide), Decoding.next_underscore sound]
  simp [Decoding.gap]

theorem unescape_encode {s : Decoding} (sound : s.Sound) (t : Text) :
    unescape s (encode t) = respell s t := by
  fun_induction respell s t with
  | case1 => rfl
  | case2 s => rfl
  | case3 s rest ih =>
    simp [encode_cons, unescape, unescape_gap sound, ih sound]
  | case4 s rest _ ih => simp [encode_cons, unescape, ih sound]
  | case5 s d rest low space ih => simp [encode_cons, low, space, unescape, ih sound]
  | case6 s rest _ ih => simp [encode_cons, unescape, ih sound]
  | case7 s rest _ _ ih => simp [encode_cons, unescape_gap sound, ih sound]
  | case8 s c rest plain low space ih =>
    simp [encode_cons, low, space, unescape_plain s plain, Decoding.next_encode,
      ih (Decoding.sound_next sound c rest)]

/-- What is read where a text was written. -/
def reread (t : Text) : Text := trim (decode (encode t))

theorem reread_eq (t : Text) : reread t = trim (spaceOperators (respell .start t)) := by
  rw [reread, decode, unescape_encode Decoding.sound_start]

theorem ink_emit (s : MathState) (c : Char) (rest : Text) : ink (s.emit c rest) = ink [c] := by
  have space : isBlank ' ' = true := rfl
  unfold MathState.emit spacedOut
  split
  · split
    · rfl
    · split
      · rfl
      · split <;> split <;> simp [ink, space, List.filter_cons]
  · rfl

theorem ink_spaceFrom (s : MathState) (t : Text) : ink (spaceFrom s t) = ink t := by
  induction t generalizing s with
  | nil => rfl
  | cons c rest ih => rw [spaceFrom, ink_append, ink_emit, ih, ← ink_append, List.singleton_append]

theorem ink_respell {t : Text} (visible : ink t ≠ []) (s : Decoding) : ink (respell s t) ≠ [] := by
  have backslash : isBlank '\\' = false := rfl
  have low : isBlank '_' = false := rfl
  have space : isBlank ' ' = true := rfl
  fun_induction respell s t with
  | case1 => exact visible
  | case2 => simp [ink, backslash]
  | case3 => simp [ink, backslash]
  | case4 => simp [ink, low]
  | case5 => simp [ink, backslash]
  | case6 => simp [ink, low]
  | case7 s rest _ _ ih =>
    have rest_visible : ink rest ≠ [] := by simpa [ink, space] using visible
    have later := ih rest_visible
    simp only [ink, List.filter_cons] at later ⊢
    split
    · simp
    · exact later
  | case8 s c rest _ _ _ ih =>
    cases blank : isBlank c with
    | false => simp [ink, blank]
    | true =>
      have rest_visible : ink rest ≠ [] := by simpa [ink, blank] using visible
      simpa [ink, blank] using ih rest_visible

theorem decodeTrimmed_encode {t : Text} (visible : ink t ≠ []) :
    decodeTrimmed (encode t) = some (reread t) := by
  have some_left : reread t ≠ [] := by
    rw [reread_eq, Ne, trim_eq_nil, spaceOperators, ink_spaceFrom]
    exact ink_respell visible .start
  unfold decodeTrimmed
  dsimp only
  rw [show trim (decode (encode t)) = reread t from rfl, if_neg (by simpa using some_left)]

/-- Where only blank characters are left, the reader is not in an escape. -/
def Tight : Scan → Text → Prop
  | _, [] => True
  | q, c :: t => (ink (c :: t) = [] → q.settle = q) ∧ Tight (q.next c) t

theorem tight_append {q : Scan} {a b : Text} (tight : Tight q (a ++ b)) : Tight (q.after a) b := by
  induction a generalizing q with
  | nil => exact tight
  | cons c a ih => exact ih tight.2

theorem track_settled {q : Scan} (sound : q.Sound) (ready : q.settle = q) {t : Text}
    (blank : ∀ c ∈ t, isBlank c = true) (closers : List Char) :
    track (q, closers) t = some (q, closers) := by
  induction t with
  | nil => rfl
  | cons c rest ih =>
    rw [track_cons, turn_neutral sound (blank_neutral (blank c (by simp))), ready, Option.bind_some]
    exact ih fun d member => blank d (by simp [member])

/-- Trimming a closed text leaves no escape unfinished. -/
theorem closed_trim {t : Text} (closed : Closed t) (tight : Tight .plain t) : Closed (trim t) := by
  obtain ⟨before, behind, same, blank, blank'⟩ := trim_parts t
  rw [same] at tight
  have whole : track (.plain, []) (trim t ++ behind) = some (.plain, []) := by
    have closed' := closed
    unfold Closed at closed'
    rwa [same, track_append_of (track_blank blank [])] at closed'
  rw [track_append] at whole
  obtain ⟨⟨q, closers⟩, middle, last⟩ := Option.bind_eq_some_iff.mp whole
  have sound := track_sound (p := (.plain, [])) (by trivial) middle
  cases behind with
  | nil =>
    cases last
    exact middle
  | cons c behind =>
    have rest := (tight_append (tight_append tight)).1 (ink_blank blank')
    rw [track_scan (track_blank blank []), track_scan middle] at rest
    rw [track_settled sound rest blank'] at last
    cases last
    exact middle

theorem tight_respell {s : Decoding} {q : Scan} (sound : q.Sound) (ready : q.settle = q) {t : Text}
    (ends : EndsVisibly t) : Tight q (respell s t) := by
  have backslash (t : Text) : ink ('\\' :: t) ≠ [] := by simp [ink, show isBlank '\\' = false from rfl]
  have escape (q : Scan) (ready : q.settle = q) (d : Char) : (q.next '\\').next d = q := by
    cases q with
    | plain => rfl
    | quoted r => simp [Scan.next]
    | escaped => cases ready
    | quotedEscaped r => cases ready
  have step {q : Scan} {d : Char} {rest : Text} (sound : q.Sound) (ready : q.settle = q)
      (neutral : Neutral d) (later : Tight q rest) : Tight q (d :: rest) :=
    ⟨fun _ => ready, by rwa [next_neutral sound neutral, ready]⟩
  have gap (s : Decoding) : Neutral s.gap := by
    unfold Decoding.gap
    split <;> decide
  fun_induction respell s t generalizing q with
  | case1 => trivial
  | case2 => exact ⟨fun blank => absurd blank (backslash _), trivial⟩
  | case3 s rest ih =>
    refine ⟨fun blank => absurd blank (backslash _), fun blank => absurd blank (backslash _), ?_⟩
    rw [escape q ready]
    exact step sound ready (gap s) (ih sound ready ends.tail.tail)
  | case4 s rest _ ih => exact step sound ready (by decide) (ih sound ready ends.tail.tail)
  | case5 s d rest low space ih =>
    refine ⟨fun blank => absurd blank (backslash _), fun blank => ?_, ?_⟩
    · cases rest with
      | nil => simp [ink, ends d rfl] at blank
      | cons e rest =>
        have visible := ink_respell (ends.tail.tail.ink_ne_nil (by simp)) s
        rw [← List.singleton_append, ink_append, List.append_eq_nil_iff] at blank
        exact absurd blank.2 visible
    · rw [escape q ready]
      exact ih sound ready ends.tail.tail
  | case6 s rest _ ih => exact step sound ready (by decide) (ih sound ready ends.tail)
  | case7 s rest _ _ ih => exact step sound ready (gap s) (ih sound ready ends.tail)
  | case8 s c rest plain low space ih =>
    refine ⟨fun _ => ready, ih (Scan.sound_next sound c) ?_ ends.tail⟩
    cases q with
    | plain => simp only [Scan.next, plain, if_false]; split <;> rfl
    | quoted r => simp only [Scan.next, plain, if_false]; split <;> rfl
    | escaped => cases ready
    | quotedEscaped r => cases ready

theorem emit_eq (s : MathState) (c : Char) (rest : Text) : ∃ before behind,
    s.emit c rest = before ++ c :: behind ∧ (before = [] ∨ before = [' ']) ∧
      (behind = [] ∨ behind = [' ']) ∧
      (before ++ behind ≠ [] → c = '+' ∨ c = '-' ∨ c = '*' ∨ c = '/') := by
  unfold MathState.emit spacedOut
  split
  · rename_i operator
    split
    · exact ⟨[], [], by simp⟩
    · split
      · exact ⟨[], [], by simp⟩
      · refine ⟨_, _, rfl, ?_, ?_, fun _ => operator.2.1⟩ <;> split <;> simp
  · exact ⟨[], [], by simp⟩

theorem tight_spaceFrom {q : Scan} (sound : q.Sound) {t : Text} (tight : Tight q t)
    (m : MathState) : Tight q (spaceFrom m t) := by
  induction t generalizing q m with
  | nil => exact tight
  | cons c rest ih =>
    have later := ih (Scan.sound_next sound c) tight.2 (m.next c rest)
    have same := ink_spaceFrom (m.next c rest) rest
    obtain ⟨before, behind, emitted, first, second, operator⟩ := emit_eq m c rest
    rw [spaceFrom, emitted]
    by_cases alone : before ++ behind = []
    · obtain ⟨rfl, rfl⟩ := List.append_eq_nil_iff.mp alone
      refine ⟨fun blank => tight.1 ?_, later⟩
      have split (t : Text) : ink (c :: t) = ink [c] ++ ink t := ink_append [c] t
      rw [split, ← same, ← split]
      exact blank
    · have visible (t : Text) : ink (c :: t) ≠ [] := by
        rcases operator alone with rfl | rfl | rfl | rfl <;> simp [ink, isBlank]
      have neutral : Neutral c := by
        rcases operator alone with rfl | rfl | rfl | rfl <;> decide
      have space : Neutral ' ' := by decide
      have settled : Tight q.settle (behind ++ spaceFrom (m.next c rest) rest) := by
        rw [next_neutral sound neutral] at later
        rcases second with rfl | rfl
        · exact later
        · refine ⟨fun _ => Scan.settle_settle q, ?_⟩
          rwa [next_neutral (Scan.sound_settle sound) space, Scan.settle_settle]
      have written (q' : Scan) (sound' : q'.Sound) (same : q'.settle = q.settle) :
          Tight q' (c :: (behind ++ spaceFrom (m.next c rest) rest)) :=
        ⟨fun blank => absurd blank (visible _), by rwa [next_neutral sound' neutral, same]⟩
      rcases first with rfl | rfl
      · exact written q sound rfl
      · have operator_left (t : Text) : ink (' ' :: c :: t) ≠ [] := by
          have split : ink (' ' :: c :: t) = ink [' '] ++ ink (c :: t) := ink_append [' '] (c :: t)
          simp [split, visible]
        refine ⟨fun blank => absurd blank (operator_left _), ?_⟩
        rw [next_neutral sound space]
        exact written _ (Scan.sound_settle sound) (Scan.settle_settle q)

/-- Writing and reading a closed text gives a closed text. -/
theorem closed_reread {t : Text} (closed : Closed t) (ends : EndsVisibly t) :
    Closed (reread t) := by
  refine closed_trim ?_ ?_
  · rw [Closed, decode_track _ (by trivial), (encode_respelled t).track_eq (by trivial)]
    exact closed
  · rw [decode, unescape_encode Decoding.sound_start]
    exact tight_spaceFrom (by trivial) (tight_respell (by trivial) rfl ends) .start

end AtomicCss.Arbitrary
