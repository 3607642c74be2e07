import AtomicCss.Proofs.DataType.Literals
import AtomicCss.Proofs.Text.Cut
import AtomicCss.Proofs.Value.Runs

/-! Two numbers with a slash between them. Without brackets and quotes canonical spacing treats
each side of the slash as if it stood alone, but for the blanks next to the slash. -/
namespace AtomicCss.DataType
open Text Value

/-- Nothing opens or is quoted, and only blanks separate. -/
def Bare (t : Text) : Prop := ∀ c ∈ t, Neutral c ∧ (isSeparator c = true → isBlank c = true)

namespace Bare

variable {a b : Text}

theorem append_iff : Bare (a ++ b) ↔ Bare a ∧ Bare b := List.forall_mem_append

theorem blank_of_run (bare : Bare a) (run : IsRun a) : ∀ c ∈ a, isBlank c = true := fun c member =>
  (bare c member).2 (run c member)

theorem compactText_eq (bare : Bare a) : compactText a = squeeze .edge [] .plain a :=
  compactText_eq_squeeze (closed_of_neutral fun c member => (bare c member).1).balanced

end Bare

/-- A run that may go away holds blanks in either case. -/
theorem blank_of_dropped_run {run : Text} (blank : ∀ c ∈ run, isBlank c = true) (dropped : Bool) :
    ∀ c ∈ (if dropped then [] else run), isBlank c = true := by
  cases dropped with
  | false => exact blank
  | true => exact nofun

/-- What stands ahead only decides on the blanks in front. -/
theorem trim_squeeze {t : Text} (bare : Bare t) (ahead ahead' : Ahead) :
    trim (squeeze ahead [] .plain t) = trim (squeeze ahead' [] .plain t) := by
  rcases run_cases t with separators | ⟨run, c, rest, rfl, separators, other⟩
  · have blank := bare.blank_of_run separators
    have nothing (ahead : Ahead) : trim (squeeze ahead [] .plain t) = [] := by
      rw [squeeze_last separators, List.nil_append]
      exact trim_eq_nil.mpr (ink_blank (blank_of_dropped_run blank _))
    rw [nothing, nothing]
  · have blank := (Bare.append_iff.mp bare).1.blank_of_run separators
    have front (ahead : Ahead) : trim (squeeze ahead [] .plain (run ++ c :: rest)) =
        trim (c :: squeeze (.next run .plain c) [] (Scan.plain.next c) rest) := by
      rw [squeeze_run separators other, List.nil_append]
      exact trim_before (blank_of_dropped_run blank _) _
    rw [front, front]

theorem takeWhile_slash (t b : Text) :
    (t ++ '/' :: b).takeWhile isSeparator = t.takeWhile isSeparator := by
  induction t with
  | nil => rfl
  | cons c t ih =>
    rw [List.cons_append, List.takeWhile_cons, List.takeWhile_cons, ih]

/-- A slash behind a text is no end of it, but only the blanks in front of the slash depend on that. -/
theorem squeeze_slash {a : Text} (bare : Bare a) (b : Text) (ahead : Ahead) : ∃ x r r' ahead',
    squeeze ahead [] .plain (a ++ '/' :: b) = x ++ (r ++ '/' :: squeeze ahead' [] .plain b) ∧
      squeeze ahead [] .plain a = x ++ r' ∧ (∀ c ∈ r, isBlank c = true) ∧ ∀ c ∈ r', isBlank c = true := by
  revert ahead
  refine runs_induction (motive := fun s a => s = .plain → Bare a → ∀ ahead, ∃ x r r' ahead',
    squeeze ahead [] s (a ++ '/' :: b) = x ++ (r ++ '/' :: squeeze ahead' [] .plain b) ∧
      squeeze ahead [] s a = x ++ r' ∧ (∀ c ∈ r, isBlank c = true) ∧ ∀ c ∈ r', isBlank c = true)
    ?_ ?_ ?_ ?_ .plain a rfl bare
  · rintro _ rfl - ahead
    exact ⟨[], [], [], _, by rw [List.nil_append, squeeze]; rfl, by simp [squeeze], nofun, nofun⟩
  · rintro s c rest hidden - plain
    exact absurd plain hidden
  · rintro run separators - bare ahead
    have blank := bare.blank_of_run separators
    exact ⟨[], _, _, _, squeeze_run separators rfl [], squeeze_last separators [],
      blank_of_dropped_run blank _, blank_of_dropped_run blank _⟩
  · rintro run c rest separators other ih - bare ahead
    obtain ⟨⟨neutral, -⟩, bare⟩ := List.forall_mem_cons.mp (Bare.append_iff.mp bare).2
    have plain : Scan.plain.next c = .plain := next_neutral (by trivial) neutral
    obtain ⟨x, r, r', ahead', whole, alone, blank, blank'⟩ := ih plain bare (.next run .plain c)
    have same : isRunDropped ahead run (c :: (rest ++ '/' :: b)) = isRunDropped ahead run (c :: rest) := by
      rw [isRunDropped, isRunDropped, leadsSpaced_cons, leadsSpaced_cons, takeWhile_slash]
      rfl
    refine ⟨(if isRunDropped ahead run (c :: rest) then [] else run) ++ c :: x, r, r', ahead', ?_, ?_,
      blank, blank'⟩
    · rw [List.append_assoc, List.cons_append, squeeze_run separators other, List.nil_append, same, whole]
      simp
    · rw [squeeze_run separators other, List.nil_append, alone]
      simp

/-- The canonical spacing of two texts with the first slash between them. -/
theorem splitFirst_compactText {a b : Text} (absent : '/' ∉ a) (bare : Bare (a ++ '/' :: b)) :
    ∃ a' b', splitFirst '/' (compactText (a ++ '/' :: b)) = some (a', b') ∧
      trim a' = trim (compactText a) ∧ trim b' = trim (compactText b) := by
  obtain ⟨left, right⟩ := Bare.append_iff.mp bare
  obtain ⟨-, right⟩ := List.forall_mem_cons.mp right
  obtain ⟨x, r, r', ahead, whole, alone, blank, blank'⟩ := squeeze_slash left b .edge
  rw [← bare.compactText_eq] at whole
  rw [← left.compactText_eq] at alone
  have inside : '/' ∉ x ++ r := by
    intro member
    rcases List.mem_append.mp member with member | member
    · exact absent ((mem_compactText rfl a).mp (by simp [alone, member]))
    · cases blank '/' member
  refine ⟨x ++ r, squeeze ahead [] .plain b, splitFirst_eq_some.mpr ⟨by simp [whole], inside⟩, ?_, ?_⟩
  · rw [alone, trim_behind blank, trim_behind blank']
  · rw [trim_squeeze right ahead .edge, Bare.compactText_eq right]

theorem isRatio_iff {t : Text} : isRatio t = true ↔
    ∃ a b, splitFirst '/' t = some (a, b) ∧ isNumber (trim a) = true ∧ isNumber (trim b) = true := by
  unfold isRatio
  split
  · rename_i a b same
    simp [same]
  · rename_i same
    simp [same]

theorem not_mem_blank {t : Text} (blank : ∀ c ∈ t, isBlank c = true) : '/' ∉ t := fun member => by
  cases blank '/' member

/-- Blanks around a value do not matter. -/
theorem isRatio_trim (t : Text) : isRatio (trim t) = isRatio t := by
  obtain ⟨before, behind, parts, blank, blank'⟩ := trim_parts t
  generalize trim t = u at parts
  subst parts
  cases found : splitFirst '/' u with
  | none =>
    have absent : '/' ∉ before ++ (u ++ behind) := by
      simp [not_mem_blank blank, not_mem_blank blank', splitFirst_eq_none.mp found]
    simp [isRatio, found, splitFirst_eq_none.mpr absent]
  | some cut =>
    obtain ⟨a, b⟩ := cut
    obtain ⟨rfl, first⟩ := splitFirst_eq_some.mp found
    have found' : splitFirst '/' (before ++ (a ++ '/' :: b ++ behind)) = some (before ++ a, b ++ behind) :=
      splitFirst_eq_some.mpr ⟨by simp, by simp [first, not_mem_blank blank]⟩
    simp only [isRatio, found, found', trim_before blank, trim_behind blank']

/-- Visible characters decide. -/
theorem Bare.of_ink {a b : Text} (bare : Bare a) (same : ink b = ink a) : Bare b := by
  intro c member
  cases blank : isBlank c with
  | true => exact ⟨blank_neutral blank, fun _ => rfl⟩
  | false =>
    rw [← mem_ink blank, same, mem_ink blank] at member
    rw [← blank]
    exact bare c member

/-- The characters of numbers. -/
theorem bare_of_isNumber {t : Text} (number : isNumber (trim t) = true) : Bare t := by
  refine Bare.of_ink (fun c member => ⟨?_, fun separates => ?_⟩) (ink_trim t).symm
  · obtain ⟨⟨digits, unit⟩, read, empty⟩ := (Option.any_eq_true _ _).mp number
    obtain rfl : unit = [] := List.isEmpty_iff.mp empty
    obtain ⟨sign, signed, same, -, points⟩ := splitNumber_parts read
    rw [same, List.append_nil] at member
    rcases List.mem_append.mp member with member | member
    · rcases signed with rfl | rfl | rfl
      · cases member
      · exact List.mem_singleton.mp member ▸ (by decide)
      · exact List.mem_singleton.mp member ▸ (by decide)
    · refine neutral_of_isNameChar ?_
      rcases points c member with digit | rfl
      · exact (isPlain_iff.mp (isPlain_of_alphanum (isAlphanum_iff.mpr (.inr digit)))).1
      · rfl
  · rw [isSeparator_of_isWordChar ((singleWord_of_isNumber number).letters c member)] at separates
    cases separates

theorem bare_slash {a b : Text} (left : Bare a) (right : Bare b) : Bare (a ++ '/' :: b) :=
  Bare.append_iff.mpr ⟨left, List.forall_mem_cons.mpr ⟨⟨by decide, nofun⟩, right⟩⟩

/-- Canonical spacing takes no ratio away, and it adds those where the sign of a number stands
between two single spaces. -/
theorem isRatio_compactText {v : Text} : isRatio (trim (compactText v)) = true ↔
    ∃ a b, splitFirst '/' v = some (a, b) ∧ (isNumber (trim a) = true ∨ Joins isNumber a) ∧
      (isNumber (trim b) = true ∨ Joins isNumber b) := by
  have number (t : Text) := recognized_iff (fun w => singleWord_of_isNumber (t := w)) (v := t)
  have same (t : Text) : ink t = ink (compactText t) := (ink_compactText t).symm
  simp only [← number]
  rw [isRatio_trim, isRatio_iff]
  constructor
  · rintro ⟨a', b', found, first, second⟩
    obtain ⟨whole, -⟩ := splitFirst_eq_some.mp found
    have bare : Bare v := by
      refine Bare.of_ink ?_ (same v)
      rw [whole]
      exact bare_slash (bare_of_isNumber first) (bare_of_isNumber second)
    cases cut : splitFirst '/' v with
    | none =>
      have inside : '/' ∈ v := (mem_compactText rfl v).mp (by simp [whole])
      exact absurd inside (splitFirst_eq_none.mp cut)
    | some cut' =>
      obtain ⟨a, b⟩ := cut'
      obtain ⟨rfl, absent⟩ := splitFirst_eq_some.mp cut
      obtain ⟨a'', b'', found', left, right⟩ := splitFirst_compactText absent bare
      rw [found, Option.some.injEq, Prod.mk.injEq] at found'
      obtain ⟨rfl, rfl⟩ := found'
      exact ⟨a, b, rfl, by rwa [← left], by rwa [← right]⟩
  · rintro ⟨a, b, cut, first, second⟩
    obtain ⟨rfl, absent⟩ := splitFirst_eq_some.mp cut
    have bare := bare_slash ((bare_of_isNumber first).of_ink (same a)) ((bare_of_isNumber second).of_ink (same b))
    obtain ⟨a', b', found, left, right⟩ := splitFirst_compactText absent bare
    exact ⟨a', b', found, by rwa [left], by rwa [right]⟩

end AtomicCss.DataType
