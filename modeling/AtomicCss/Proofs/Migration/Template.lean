import AtomicCss.Migration.Template
import Mathlib.Data.List.Perm.Basic

/-! Replacing findings in a template is one splice from left to right: what lies
between the chosen findings stays, and each of them becomes its image. A
finding that holds its text and is passed over gets in the way of a chosen one,
and the order in which the findings are listed does not matter. -/
namespace AtomicCss.Migration

@[simp] theorem byteLength_append (a b : Text) : byteLength (a ++ b) = byteLength a + byteLength b := by
  induction a with
  | nil => simp [byteLength]
  | cons c a ih =>
    simp only [List.cons_append, byteLength, ih]
    omega

/-- A text splits after `n` bytes exactly where a part of `n` bytes ends. -/
theorem splitBytes_eq_some {n : Nat} {t a b : Text} :
    splitBytes n t = some (a, b) ↔ t = a ++ b ∧ byteLength a = n := by
  induction t generalizing n a with
  | nil =>
    cases a with
    | nil => by_cases zero : n = 0 <;> simp [splitBytes, byteLength, zero, eq_comm]
    | cons d a => by_cases zero : n = 0 <;> simp [splitBytes, zero]
  | cons c rest ih =>
    have some_bytes := c.utf8Size_pos
    cases a with
    | nil =>
      by_cases zero : n = 0
      · simp [splitBytes, byteLength, zero, eq_comm]
      · by_cases inside : n < c.utf8Size <;> simp [splitBytes, byteLength, zero, inside, Ne.symm zero]
    | cons d a =>
      constructor
      · intro cut
        simp only [splitBytes] at cut
        split at cut
        · cases cut
        · split at cut
          · cases cut
          · obtain ⟨⟨a', b'⟩, later, same⟩ := Option.map_eq_some_iff.mp cut
            cases same
            obtain ⟨rfl, counted⟩ := ih.mp later
            refine ⟨rfl, ?_⟩
            simp only [byteLength]
            omega
      · rintro ⟨same, counted⟩
        obtain ⟨rfl, rest_eq⟩ := List.cons.inj same
        simp only [byteLength] at counted
        have later : splitBytes (n - c.utf8Size) rest = some (a, b) := ih.mpr ⟨rest_eq, by omega⟩
        simp only [splitBytes]
        rw [if_neg (by omega), if_neg (by omega), later]
        rfl

theorem splitBytes_append (before rest : Text) :
    splitBytes (byteLength before) (before ++ rest) = some (before, rest) :=
  splitBytes_eq_some.mpr ⟨rfl, rfl⟩

theorem slice?_eq_some {start stop : Nat} {t inner : Text} :
    slice? start stop t = some inner ↔
      ∃ before after, t = before ++ inner ++ after ∧
        start = byteLength before ∧ stop = byteLength (before ++ inner) := by
  unfold slice?
  constructor
  · intro found
    obtain ⟨forward, found⟩ := Option.ite_none_left_eq_some.mp found
    obtain ⟨⟨before, rest⟩, first, found⟩ := Option.bind_eq_some_iff.mp found
    obtain ⟨⟨_, after⟩, second, rfl⟩ := Option.map_eq_some_iff.mp found
    obtain ⟨rfl, counted⟩ := splitBytes_eq_some.mp first
    obtain ⟨rfl, inner_counted⟩ := splitBytes_eq_some.mp second
    refine ⟨before, after, by simp, counted.symm, ?_⟩
    simp only [byteLength_append]
    omega
  · rintro ⟨before, after, rfl, rfl, rfl⟩
    have inside : byteLength (before ++ inner) - byteLength before = byteLength inner := by simp
    rw [if_neg (by simp), inside, List.append_assoc, splitBytes_append]
    simp only [Option.bind_some, splitBytes_append, Option.map_some]

/-- The range holds exactly the text. -/
def Finding.Holds (f : Finding) (content : Text) : Prop :=
  slice? f.start f.stop content = some f.text

instance (f : Finding) (content : Text) : Decidable (f.Holds content) :=
  inferInstanceAs (Decidable (_ = _))

/-- Two ranges share a byte. -/
def Finding.Overlaps (f g : Finding) : Prop :=
  ∃ i, (f.start ≤ i ∧ i < f.stop) ∧ g.start ≤ i ∧ i < g.stop

/-- `g` gets in the way of `f`: they share a byte, or `g` is an empty range strictly inside `f`. -/
def Finding.Blocks (g f : Finding) : Prop :=
  f.Overlaps g ∨ (g.start = g.stop ∧ f.start < g.start ∧ g.start < f.stop)

/-- A text from byte `at` on, with findings from left to right replaced by their
images. Every gap between them is kept. -/
inductive Spliced (image : Text → Text) : Nat → Text → List Finding → Text → Prop
  | rest (place : Nat) (t : Text) : Spliced image place t [] t
  | finding {place : Nat} {gap t out : Text} {f : Finding} {fs : List Finding}
    (start : f.start = place + byteLength gap) (stop : f.stop = f.start + byteLength f.text)
    (later : Spliced image f.stop t fs out) :
    Spliced image place (gap ++ f.text ++ t) (f :: fs) (gap ++ image f.text ++ out)

/-- The text with other characters in a range of bytes, if both ends of the range are ends of
characters. -/
def replaceRange (start stop : Nat) (piece t : Text) : Option Text :=
  if stop < start then none
  else
    (splitBytes start t).bind fun (before, rest) =>
      (splitBytes (stop - start) rest).map fun (_, after) => before ++ piece ++ after

theorem replaceRange_eq (before inner piece after : Text) :
    replaceRange (byteLength before) (byteLength (before ++ inner)) piece (before ++ inner ++ after) =
      some (before ++ piece ++ after) := by
  have inside : byteLength (before ++ inner) - byteLength before = byteLength inner := by simp
  unfold replaceRange
  rw [if_neg (by simp), inside, List.append_assoc, splitBytes_append]
  simp only [Option.bind_some, splitBytes_append, Option.map_some]

theorem eq_nil_of_byteLength {t : Text} (empty : byteLength t = 0) : t = [] := by
  cases t with
  | nil => rfl
  | cons c rest =>
    have some_bytes := c.utf8Size_pos
    simp only [byteLength] at empty
    omega

/-- Of two beginnings of a text the one with more bytes goes on where the other ends. -/
theorem longer_beginning {a b c d : Text} (same : a ++ b = c ++ d)
    (short : byteLength a ≤ byteLength c) : ∃ e, c = a ++ e := by
  rcases List.append_eq_append_iff.mp same with ⟨e, longer, -⟩ | ⟨e, rfl, -⟩
  · exact ⟨e, longer⟩
  · rw [byteLength_append] at short
    obtain rfl := eq_nil_of_byteLength (t := e) (by omega)
    exact ⟨[], by simp⟩

/-- Findings that hold their texts one before the other, from the end of the text to its
beginning. -/
inductive Backward : Text → List Finding → Prop
  | none (t : Text) : Backward t []
  | finding {before after : Text} {f : Finding} {fs : List Finding}
    (start : f.start = byteLength before) (stop : f.stop = byteLength (before ++ f.text))
    (earlier : Backward before fs) : Backward (before ++ f.text ++ after) (f :: fs)

/-- Whatever is chosen up to the end of `seen` lies in `seen`, one before the other. -/
theorem backward_choose (seen rest : Text) (fs : List Finding) :
    Backward seen (choose (seen ++ rest) (byteLength seen) fs) := by
  induction fs generalizing seen rest with
  | nil => exact .none seen
  | cons f fs ih =>
    simp only [choose]
    split
    · rename_i fits
      obtain ⟨before, after, same, start, stop⟩ := slice?_eq_some.mp fits.2
      obtain ⟨gap, rfl⟩ := longer_beginning same.symm (stop ▸ fits.1)
      have earlier := ih before (f.text ++ gap ++ rest)
      refine .finding start stop ?_
      simpa [start] using earlier
    · exact ih seen rest

theorem Backward.holds {seen : Text} {fs : List Finding} (backward : Backward seen fs) (rest : Text) :
    ∀ f ∈ fs, f.Holds (seen ++ rest) := by
  induction backward generalizing rest with
  | none => simp
  | @finding before after f fs start stop earlier ih =>
    intro g member
    rcases List.mem_cons.mp member with rfl | member
    · exact slice?_eq_some.mpr ⟨before, after ++ rest, by simp, start, stop⟩
    · simpa using ih (f.text ++ after ++ rest) g member

theorem Backward.bounded {seen : Text} {fs : List Finding} (backward : Backward seen fs) :
    ∀ f ∈ fs, f.stop ≤ byteLength seen := by
  induction backward with
  | none => simp
  | @finding before after f fs start stop earlier ih =>
    intro g member
    rcases List.mem_cons.mp member with rfl | member
    · simp only [byteLength_append] at stop ⊢
      omega
    · have inside := ih g member
      simp only [byteLength_append]
      omega

theorem Backward.disjoint {seen : Text} {fs : List Finding} (backward : Backward seen fs) :
    fs.Pairwise fun f g => g.stop ≤ f.start := by
  induction backward with
  | none => exact .nil
  | finding start stop earlier ih =>
    apply List.Pairwise.cons _ ih
    intro g member
    rw [start]
    exact earlier.bounded g member

theorem weave_finding {image : Text → Text} {before after : Text} {f : Finding} {fs : List Finding}
    (start : f.start = byteLength before) (stop : f.stop = byteLength (before ++ f.text)) :
    weave image (before ++ f.text ++ after) (f :: fs) =
      weave image before fs ++ image f.text ++ after := by
  have behind := splitBytes_append (before ++ f.text) after
  have front := splitBytes_append before (f.text ++ after)
  rw [← List.append_assoc] at front
  simp only [weave, start, stop, behind, front]

/-- One more finding may be spliced in behind the last one. -/
theorem Spliced.behind {image : Text → Text} {place : Nat} {t out : Text} {fs : List Finding}
    (spliced : Spliced image place t fs out) {f : Finding} (start : f.start = place + byteLength t)
    (stop : f.stop = f.start + byteLength f.text) (after : Text) :
    Spliced image place (t ++ f.text ++ after) (fs ++ [f]) (out ++ image f.text ++ after) := by
  induction spliced with
  | rest place t => exact .finding start stop (.rest f.stop after)
  | @finding place gap t out g fs gstart gstop later ih =>
    have last := ih (by simp only [byteLength_append] at start; omega)
    simpa using Spliced.finding gstart gstop last

theorem Backward.spliced {seen : Text} {fs : List Finding} (backward : Backward seen fs)
    (image : Text → Text) : Spliced image 0 seen fs.reverse (weave image seen fs) := by
  induction backward with
  | none t => exact .rest 0 t
  | @finding before after f fs start stop earlier ih =>
    rw [weave_finding start stop, List.reverse_cons]
    apply ih.behind
    · omega
    · rw [stop, start, byteLength_append]

/-- Replacing the findings in place, the last one first, comes to the same: what stands before
the last replaced finding is still as it was, so that every later range is found in it. -/
theorem Backward.inPlace {seen : Text} {fs : List Finding} (backward : Backward seen fs)
    (image : Text → Text) (done : Text) :
    fs.foldlM (fun out f => replaceRange f.start f.stop (image f.text) out) (seen ++ done) =
      some (weave image seen fs ++ done) := by
  induction backward generalizing done with
  | none => rfl
  | @finding before after f fs start stop earlier ih =>
    have replaced : replaceRange f.start f.stop (image f.text) (before ++ f.text ++ after ++ done) =
        some (before ++ (image f.text ++ after ++ done)) := by
      rw [start, stop, List.append_assoc _ after, replaceRange_eq]
      simp
    rw [List.foldlM_cons, replaced, weave_finding start stop]
    simpa using ih (image f.text ++ after ++ done)

theorem before_iff (f g : Finding) :
    f.before g = true ↔ g.start < f.start ∨ f.start = g.start ∧ g.stop ≤ f.stop := by
  simp [Finding.before]

theorem before_trans (f g h : Finding) (first : f.before g = true) (second : g.before h = true) :
    f.before h = true := by
  rw [before_iff] at first second ⊢
  omega

theorem before_total (f g : Finding) : (f.before g || g.before f) = true := by
  rw [Bool.or_eq_true, before_iff, before_iff]
  omega

/-- A chosen finding blocks each later one that reaches beyond its beginning. -/
theorem blocks_of_before {f g : Finding} (order : f.before g = true) (reaches : f.start < g.stop)
    (forward : f.start ≤ f.stop) : f.Blocks g := by
  rw [before_iff] at order
  by_cases empty : f.start = f.stop
  · exact .inr ⟨empty, by omega, reaches⟩
  · exact .inl ⟨f.start, by omega, by omega⟩

theorem Finding.Holds.forward {f : Finding} {content : Text} (holds : f.Holds content) :
    f.start ≤ f.stop ∧ f.stop ≤ byteLength content := by
  obtain ⟨before, after, rfl, start, stop⟩ := slice?_eq_some.mp holds
  simp only [byteLength_append] at start stop ⊢
  omega

/-- What is passed over does not hold its text, reaches beyond the bound or is blocked. -/
theorem choose_passed (content : Text) {fs : List Finding}
    (sorted : fs.Pairwise fun f g => f.before g = true) (bound : Nat) :
    ∃ passed, fs.Perm (choose content bound fs ++ passed) ∧
      ∀ f ∈ passed, f.Holds content → bound < f.stop ∨ ∃ g ∈ choose content bound fs, g.Blocks f := by
  induction fs generalizing bound with
  | nil => exact ⟨[], .nil, by simp⟩
  | cons f fs ih =>
    obtain ⟨order, sorted⟩ := List.pairwise_cons.mp sorted
    simp only [choose]
    split
    · rename_i fits
      obtain ⟨passed, same, reasons⟩ := ih sorted f.start
      refine ⟨passed, same.cons f, ?_⟩
      intro g member holds
      have listed : g ∈ fs := same.mem_iff.mpr (List.mem_append_right _ member)
      rcases reasons g member holds with reaches | ⟨h, chosen, blocks⟩
      · have forward := Finding.Holds.forward (f := f) fits.2
        exact .inr ⟨f, by simp, blocks_of_before (order g listed) reaches forward.1⟩
      · exact .inr ⟨h, by simp [chosen], blocks⟩
    · rename_i unfit
      obtain ⟨passed, same, reasons⟩ := ih sorted bound
      refine ⟨f :: passed, (same.cons f).trans List.perm_middle.symm, ?_⟩
      intro g member holds
      rcases List.mem_cons.mp member with rfl | member
      · by_cases fits : g.stop ≤ bound
        · exact absurd ⟨fits, holds⟩ unfit
        · exact .inl (by omega)
      · exact reasons g member holds

/-- Findings that do not hold their texts play no part. -/
theorem choose_filter (content : Text) (bound : Nat) (fs : List Finding) :
    choose content bound (fs.filter fun f => f.Holds content) = choose content bound fs := by
  induction fs generalizing bound with
  | nil => rfl
  | cons f fs ih =>
    by_cases holds : f.Holds content
    · rw [List.filter_cons_of_pos (by simpa using holds)]
      simp only [choose, ih]
    · have unfit : ¬ (f.stop ≤ bound ∧ slice? f.start f.stop content = some f.text) :=
        fun fits => holds fits.2
      rw [List.filter_cons_of_neg (by simpa using holds), ih, choose, if_neg unfit]

theorem Finding.Holds.unique {f g : Finding} {content : Text} (left : f.Holds content)
    (right : g.Holds content) (start : f.start = g.start) (stop : f.stop = g.stop) : f = g := by
  unfold Finding.Holds at left right
  rw [start, stop, right] at left
  cases f
  cases g
  simp_all

theorem chosen_perm {content : Text} {findings others : List Finding} (same : others.Perm findings) :
    chosen content others = chosen content findings := by
  have sorted (fs : List Finding) :
      ((fs.mergeSort Finding.before).filter fun f => f.Holds content).Pairwise
        fun f g => f.before g = true :=
    (List.pairwise_mergeSort before_trans before_total fs).filter _
  have listed : (others.mergeSort Finding.before).Perm (findings.mergeSort Finding.before) :=
    (List.mergeSort_perm others _).trans (same.trans (List.mergeSort_perm findings _).symm)
  unfold chosen
  rw [← choose_filter, ← choose_filter content _ (findings.mergeSort Finding.before)]
  congr 1
  -- Two findings with the same range both hold the text of that range, so that the order of
  -- replacement tells all findings that hold their texts apart.
  refine List.Perm.eq_of_pairwise ?_ (sorted others) (sorted findings) (listed.filter _)
  intro f g left right first second
  rw [before_iff] at first second
  have holds := (List.mem_filter.mp left).2
  have others_hold := (List.mem_filter.mp right).2
  exact Finding.Holds.unique (by simpa using holds) (by simpa using others_hold) (by omega) (by omega)

/-- The outcome is the content with images in the place of the applied findings. Applied
findings hold their texts and lie one after the other; one that holds its text and is passed over
is blocked by an applied one. Replacing them in place, the last one first, never misses its
range, and the outcome does not depend on the order in which the findings are listed. -/
theorem replaceFindings_splices (image : Text → Text) (content : Text) (findings : List Finding) :
    (∃ applied passed,
      findings.Perm (applied ++ passed) ∧
      Spliced image 0 content applied (replaceFindings image content findings) ∧
      (∀ f ∈ applied, f.Holds content) ∧
      (applied.Pairwise fun f g => f.stop ≤ g.start) ∧
      (∀ f ∈ passed, f.Holds content → ∃ g ∈ applied, g.Blocks f) ∧
      applied.reverse.foldlM (fun out f => replaceRange f.start f.stop (image f.text) out) content =
        some (replaceFindings image content findings)) ∧
    ∀ others, others.Perm findings →
      replaceFindings image content others = replaceFindings image content findings := by
  constructor
  · have backward := backward_choose content [] (findings.mergeSort Finding.before)
    rw [List.append_nil] at backward
    obtain ⟨passed, same, reasons⟩ := choose_passed content
      (List.pairwise_mergeSort before_trans before_total findings) (byteLength content)
    refine ⟨(chosen content findings).reverse, passed, ?_, backward.spliced image, ?_, ?_, ?_, ?_⟩
    · exact (List.mergeSort_perm findings _).symm.trans
        (same.trans ((List.reverse_perm _).symm.append_right passed))
    · intro f member
      simpa using backward.holds [] f (List.mem_reverse.mp member)
    · exact List.pairwise_reverse.mpr backward.disjoint
    · intro f member holds
      rcases reasons f member holds with beyond | ⟨g, chosen, blocks⟩
      · have inside := holds.forward
        omega
      · exact ⟨g, List.mem_reverse.mpr chosen, blocks⟩
    · have replaced := backward.inPlace image []
      rw [List.append_nil, List.append_nil] at replaced
      rw [List.reverse_reverse]
      exact replaced
  · intro others same
    unfold replaceFindings
    rw [chosen_perm same]

/-- The longer of two findings at a place is in the way of the other one, and an empty one may
stand on either side of it. -/
example :
    replaceFindings (fun t => '<' :: (t ++ ['>'])) "né fl"
      [Finding.at "" 1, Finding.at "é" 1, Finding.at "é f" 1, Finding.at " " 2, Finding.at "" 5] =
      "n<><é f><>l".toList := by
  cbv

end AtomicCss.Migration
