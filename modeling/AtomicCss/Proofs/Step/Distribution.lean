import AtomicCss.Proofs.Step.Folding
import Mathlib.Algebra.BigOperators.Group.List.Basic
import Mathlib.Data.List.Perm.Basic

/-! When a whole selector list may take the place of each `&`. Composition puts every
branch of the outer selector into every branch of the template; plain replacement puts the
whole list there, commas included. The two give the same branches if the outer selector is
one branch, or if the template is nothing but `&`, and in no other case: what is visible beside
`&` is written once by replacement, but once for each outer branch by composition. -/
namespace AtomicCss.Step
open Text

/-- The branches of `emitted` are those that composition makes of an outer selector and a template,
in any order. -/
def Spreads (outer template emitted : Text) : Prop :=
  (branches emitted).Perm (fill (branches template) (branches outer))

instance (outer template emitted : Text) : Decidable (Spreads outer template emitted) :=
  inferInstanceAs (Decidable (List.Perm _ _))

section Counting

variable {counted : Char → Bool}

theorem countP_replace (c : Char) (u t : Text) :
    (replace c u t).countP counted =
      t.countP (fun d => counted d && d != c) + t.count c * u.countP counted := by
  induction t with
  | nil => simp
  | cons d t ih =>
    by_cases same : d = c
    · subst same
      rw [replace_here, List.countP_append, ih]
      simp only [List.countP_cons, bne_self_eq_false, Bool.and_false, Bool.false_eq_true, if_false,
        List.count_cons_self, Nat.add_mul, one_mul]
      omega
    · rw [replace_other c u same, List.countP_cons, ih]
      simp only [List.countP_cons, Bool.and_eq_true, bne_iff_ne, ne_eq, same, not_false_eq_true,
        and_true, List.count_cons_of_ne]
      omega

theorem replace_flatten (c : Char) (u : Text) (ts : List Text) :
    replace c u ts.flatten = (ts.map (replace c u)).flatten := by
  induction ts with
  | nil => rfl
  | cons t ts ih => simp [ih]

theorem countP_fill (templates outers : List Text) :
    (fill templates outers).flatten.countP counted =
      outers.length * templates.flatten.countP (fun d => counted d && d != '&') +
        templates.flatten.count '&' * outers.flatten.countP counted := by
  induction outers with
  | nil => simp [fill]
  | cons outer outers ih =>
    have first : (fill templates (outer :: outers)).flatten =
        replace '&' outer templates.flatten ++ (fill templates outers).flatten := by
      simp [fill, replace_flatten]
    rw [first, List.countP_append, countP_replace, ih]
    simp only [List.length_cons, List.flatten_cons, List.countP_append, Nat.add_mul, one_mul,
      Nat.mul_add]
    omega

theorem countP_joinWith (uncounted : counted ',' = false) (ts : List Text) :
    (joinWith [','] ts).countP counted = ts.flatten.countP counted := by
  induction ts with
  | nil => rfl
  | cons a ts ih =>
    cases ts with
    | nil => simp [joinWith, List.intercalate]
    | cons b ts =>
      rw [joinWith_cons_cons, List.countP_append, List.countP_append, ih, List.flatten_cons,
        List.countP_append]
      simp [uncounted]

theorem countP_trim (blank : ∀ c, isBlank c = true → counted c = false) (t : Text) :
    (trim t).countP counted = t.countP counted := by
  obtain ⟨before, behind, whole, blank_before, blank_behind⟩ := trim_parts t
  have none_before : before.countP counted = 0 :=
    List.countP_eq_zero.mpr fun c member => by simp [blank c (blank_before c member)]
  have none_behind : behind.countP counted = 0 :=
    List.countP_eq_zero.mpr fun c member => by simp [blank c (blank_behind c member)]
  conv => rhs; rw [whole]
  simp [none_before, none_behind]

/-- Taking the branches of a text drops commas and blank characters only. -/
theorem countP_branches (uncounted : counted ',' = false)
    (blank : ∀ c, isBlank c = true → counted c = false) (t : Text) :
    (branches t).flatten.countP counted = t.countP counted := by
  have trimmed (ts : List Text) :
      (ts.map trim).flatten.countP counted = ts.flatten.countP counted := by
    induction ts with
    | nil => rfl
    | cons a ts ih => simp [countP_trim blank, ih]
  conv => rhs; rw [← joinWith_segment ',' t]
  rw [countP_joinWith uncounted, branches, trimmed]

end Counting

theorem count_branches (t : Text) : (branches t).flatten.count '&' = t.count '&' := by
  refine countP_branches (by decide) (fun c unseen => ?_) t
  rw [beq_eq_false_iff_ne]
  rintro rfl
  cases unseen

/-- A visible character that separates no branches. -/
def shown (c : Char) : Bool := !isBlank c && c != ','

/-- The text has no visible character but `&` and commas. -/
def Bare (n : Text) : Prop := ∀ c ∈ n, shown c = true → c = '&'

theorem length_branches (t : Text) : (branches t).length = (segment ',' t).length := by
  simp [branches]

theorem length_fill (templates outers : List Text) :
    (fill templates outers).length = outers.length * templates.length := by
  simp [fill]

/-- Where two outer branches reach a template, it has no other visible character than `&`. -/
theorem Spreads.bare {s n : Text} (spreads : Spreads s n (replace '&' s n))
    (several : 2 ≤ (branches s).length) : Bare n := by
  have blank (c : Char) (unseen : isBlank c = true) : shown c = false := by simp [shown, unseen]
  -- Replacement writes what is beside `&` once, composition once for each outer branch.
  have totals := (List.Perm.flatten spreads).countP_eq shown
  rw [countP_branches (by decide) blank, countP_replace, countP_fill, count_branches,
    countP_branches (by decide) fun c unseen => by simp [blank c unseen],
    countP_branches (by decide) blank] at totals
  have once : n.countP (fun d => shown d && d != '&') =
      (branches s).length * n.countP (fun d => shown d && d != '&') := by omega
  have none_left : n.countP (fun d => shown d && d != '&') = 0 := by
    by_contra some_left
    have twice := Nat.mul_le_mul_right (n.countP fun d => shown d && d != '&') several
    omega
  intro c member visible
  simpa [visible] using List.countP_eq_zero.mp none_left c member

theorem length_segment_neutral {sep : Char} (separator : Neutral sep) {t : Text}
    (neutral : ∀ c ∈ t, Neutral c) : (segment sep t).length = t.count sep + 1 := by
  induction t with
  | nil => rfl
  | cons c t ih =>
    obtain ⟨first, others⟩ := List.forall_mem_cons.mp neutral
    have later := ih others
    by_cases same : c = sep
    · rw [same, segment_separator separator, List.length_cons, later, List.count_cons_self]
    · have front := length_segment_append sep (closed_neutral first) t
      rw [(Solid.neutral first same).segment_eq, List.length_singleton, List.singleton_append] at front
      rw [List.count_cons_of_ne same]
      omega

/-- Each `&` of a text without brackets and quotes brings all the branches of what takes its place. -/
theorem length_segment_replace {n s : Text} (neutral : ∀ c ∈ n, Neutral c) (closed : Closed s) :
    (segment ',' (replace '&' s n)).length + n.count '&' =
      n.count ',' + 1 + n.count '&' * (segment ',' s).length := by
  induction n with
  | nil => simp [Text.segment, segmentFrom]
  | cons c n ih =>
    obtain ⟨first, others⟩ := List.forall_mem_cons.mp neutral
    have later := ih others
    by_cases same : c = '&'
    · subst same
      have front := length_segment_append ',' closed (replace '&' s n)
      rw [replace_here, List.count_cons_self, List.count_cons_of_ne (by decide), Nat.add_mul]
      omega
    · have front := length_segment_append ',' (closed_neutral first) (replace '&' s n)
      have commas : (c :: n).count ',' = [c].count ',' + n.count ',' := by
        rw [← List.count_append, List.singleton_append]
      have alone : (segment ',' [c]).length = [c].count ',' + 1 :=
        length_segment_neutral (by decide) (by simpa using first)
      rw [List.singleton_append] at front
      rw [replace_other '&' s same, List.count_cons_of_ne same, commas]
      omega

/-- Texts that hold `&` once on average, and each of them somewhere, hold it once each. -/
theorem count_eq_one {ts : List Text} (somewhere : ∀ t ∈ ts, 1 ≤ t.count '&')
    (total : ts.flatten.count '&' = ts.length) : ∀ t ∈ ts, t.count '&' = 1 := by
  induction ts with
  | nil => simp
  | cons t ts ih =>
    obtain ⟨first, others⟩ := List.forall_mem_cons.mp somewhere
    have least : ts.length ≤ ts.flatten.count '&' := by
      rw [List.count_flatten, ← List.length_map (List.count '&')]
      exact List.length_le_sum_of_one_le _ (by simpa using others)
    rw [List.flatten_cons, List.count_append, List.length_cons] at total
    exact List.forall_mem_cons.mpr ⟨by omega, ih others (by omega)⟩

theorem mem_of_mem_branches {t b : Text} (member : b ∈ branches t) {c : Char} (inside : c ∈ b) :
    c ∈ t := by
  obtain ⟨piece, cut, rfl⟩ := List.mem_map.mp member
  refine mem_of_mem_segment cut ?_
  obtain ⟨before, behind, parts, -, -⟩ := trim_parts piece
  rw [parts]
  simp [inside]

namespace Bare

variable {n : Text}

theorem neutral (bare : Bare n) : ∀ c ∈ n, Neutral c := by
  intro c member
  by_cases blank : isBlank c = true
  · exact blank_neutral blank
  · by_cases comma : c = ','
    · rw [comma]
      decide
    · rw [bare c member (by simp [shown, blank, comma])]
      decide

variable (bare : Bare n) (readable : Readable n) {b : Text} (member : b ∈ branches n)
include bare readable member

/-- Nothing hides a comma, so that each of them separates branches. -/
theorem comma_not_mem : ',' ∉ b := by
  have alone : (segment ',' b).length = b.count ',' + 1 :=
    length_segment_neutral (by decide) fun c inside =>
      bare.neutral c (mem_of_mem_branches member inside)
  rw [(readable.pattern member).solid.segment_eq, List.length_singleton] at alone
  exact List.count_eq_zero.mp (by omega)

theorem amp_of_visible {c : Char} (inside : c ∈ b) (visible : isBlank c = false) : c = '&' := by
  refine bare c (mem_of_mem_branches member inside) ?_
  have other : c ≠ ',' := fun same => bare.comma_not_mem readable member (same ▸ inside)
  simp [shown, visible, other]

theorem amp_first : ∃ rest, b = '&' :: rest := by
  have pattern := readable.pattern member
  obtain ⟨c, rest, rfl⟩ := List.exists_cons_of_ne_nil pattern.nonempty
  rw [bare.amp_of_visible readable member List.mem_cons_self (trim_head pattern.trimmed)]
  exact ⟨rest, rfl⟩

theorem eq_amp (once : b.count '&' = 1) : b = ['&'] := by
  obtain ⟨rest, rfl⟩ := bare.amp_first readable member
  have blank : ∀ c ∈ rest, isBlank c = true := by
    intro c inside
    by_contra visible
    rw [bare.amp_of_visible readable member (List.mem_cons_of_mem _ inside) (by simpa using visible)]
      at inside
    have again := List.count_pos_iff.mpr inside
    rw [List.count_cons_self] at once
    omega
  have amp : trim ([] ++ (['&'] ++ rest)) = ['&'] := trim_of_parts rfl (by simp) blank
  rw [← (readable.pattern member).trimmed]
  exact amp

end Bare

/-- Where two outer branches reach a template as composition brings them there, each branch
of the template is `&`. -/
theorem Spreads.only_amps {s n : Text} (spreads : Spreads s n (replace '&' s n)) (closed : Closed s)
    (readable : Readable n) (several : 2 ≤ (branches s).length) : ∀ b ∈ branches n, b = ['&'] := by
  have bare := spreads.bare several
  have total : (branches n).flatten.count '&' = (branches n).length := by
    -- With k outer branches and m in the template, composition gives k * m branches, and
    -- replacement adds k - 1 branches to the m for each `&`.
    have lengths := spreads.length_eq
    have pieces := length_segment_replace bare.neutral closed
    rw [← length_segment_neutral (by decide) bare.neutral] at pieces
    rw [length_fill] at lengths
    simp only [length_branches] at lengths several ⊢
    obtain ⟨more, enough⟩ := Nat.exists_eq_add_of_le several
    rw [lengths, enough, Nat.mul_comm (n.count '&')] at pieces
    have scaled : (1 + more) * n.count '&' = (1 + more) * (segment ',' n).length := by
      simp only [Nat.add_mul] at pieces ⊢
      omega
    rw [count_branches]
    exact Nat.eq_of_mul_eq_mul_left (by omega) scaled
  have somewhere : ∀ b ∈ branches n, 1 ≤ b.count '&' := by
    intro b member
    obtain ⟨rest, rfl⟩ := bare.amp_first readable member
    simp
  exact fun b member => bare.eq_amp readable member (count_eq_one somewhere total b member)

theorem map_trim_glue {before : Text} (blank : ∀ c ∈ before, isBlank c = true) {pieces : List Text}
    (some_piece : pieces ≠ []) : (glue before pieces).map trim = pieces.map trim := by
  obtain ⟨piece, pieces, rfl⟩ := List.exists_cons_of_ne_nil some_piece
  have first : trim (before ++ (piece ++ [])) = trim piece := trim_padded blank (by simp)
  rw [List.append_nil] at first
  simp [first]

theorem map_trim_attach {behind : Text} (blank : ∀ c ∈ behind, isBlank c = true) {pieces : List Text}
    (some_piece : pieces ≠ []) : (attach pieces [behind]).map trim = pieces.map trim := by
  induction pieces with
  | nil => contradiction
  | cons piece pieces ih =>
    cases pieces with
    | nil =>
      have last : trim ([] ++ (piece ++ behind)) = trim piece := trim_padded (by simp) blank
      simpa [attach] using last
    | cons next pieces => simp [attach, ih]

theorem closed_blank {t : Text} (blank : ∀ c ∈ t, isBlank c = true) : Closed t :=
  closed_of_neutral fun c member => blank_neutral (blank c member)

theorem replace_blank {t : Text} (blank : ∀ c ∈ t, isBlank c = true) (u : Text) :
    replace '&' u t = t :=
  replace_absent fun member => absurd (blank _ member) (by decide)

theorem segment_blank {t : Text} (blank : ∀ c ∈ t, isBlank c = true) : segment ',' t = [t] := by
  have length := length_segment_neutral (show Neutral ',' by decide) fun c member =>
    blank_neutral (blank c member)
  rw [List.count_eq_zero.mpr fun member => absurd (blank _ member) (by decide)] at length
  exact segment_eq_self length

/-- Blank characters around a list belong to none of its branches. -/
theorem branches_padded {before t behind : Text} (closed : Closed t)
    (blank : ∀ c ∈ before, isBlank c = true) (blank' : ∀ c ∈ behind, isBlank c = true) :
    branches (before ++ (t ++ behind)) = branches t := by
  rw [branches, segment_append (closed_blank blank), segment_blank blank, attach,
    map_trim_glue blank (segment_ne_nil _ _), segment_append closed, segment_blank blank',
    map_trim_attach blank' (segment_ne_nil _ _), branches]

theorem branches_joinWith_closed {ts : List Text} (some_text : ts ≠ []) (closed : ∀ t ∈ ts, Closed t) :
    branches (joinWith [','] ts) = ts.flatMap branches := by
  rw [branches, segment_joinWith_closed (by decide) some_text closed, List.map_flatMap]
  rfl

theorem fill_amps_perm {templates : List Text} (only : ∀ b ∈ templates, b = ['&']) (outers : List Text) :
    (templates.flatMap fun _ => outers).Perm (fill templates outers) := by
  induction templates with
  | nil => simp [fill]
  | cons template templates ih =>
    obtain ⟨rfl, others⟩ := List.forall_mem_cons.mp only
    have alone (outer : Text) : replace '&' outer ['&'] = outer := by simp [replace_here]
    have apart := List.flatMap_append_perm outers (fun outer => [outer])
      fun outer => templates.map (replace '&' outer)
    rw [List.flatMap_singleton'] at apart
    simpa [fill, alone] using ((ih others).append_left outers).trans apart

/-- A template of nothing but `&` brings the list to each of its branches. -/
theorem spreads_of_only_amps {s n : Text} (closed : Closed s) (only : ∀ b ∈ branches n, b = ['&']) :
    Spreads s n (replace '&' s n) := by
  have padded {piece : Text} (member : piece ∈ segment ',' n) : ∃ before behind,
      replace '&' s piece = before ++ (s ++ behind) ∧ (∀ c ∈ before, isBlank c = true) ∧
        ∀ c ∈ behind, isBlank c = true := by
    obtain ⟨before, behind, whole, blank, blank'⟩ := trim_parts piece
    rw [only _ (List.mem_map_of_mem member)] at whole
    refine ⟨before, behind, ?_, blank, blank'⟩
    rw [whole, replace_append, replace_append, replace_blank blank, replace_blank blank', replace_here, replace_nil,
      List.append_nil]
  have all_closed : ∀ t ∈ (segment ',' n).map (replace '&' s), Closed t := by
    rintro _ made
    obtain ⟨piece, member, rfl⟩ := List.mem_map.mp made
    obtain ⟨before, behind, parts, blank, blank'⟩ := padded member
    rw [parts]
    exact (closed_blank blank).append (closed.append (closed_blank blank'))
  have same {piece : Text} (member : piece ∈ segment ',' n) :
      branches (replace '&' s piece) = branches s := by
    obtain ⟨before, behind, parts, blank, blank'⟩ := padded member
    rw [parts, branches_padded closed blank blank']
  have emitted : branches (replace '&' s n) = (branches n).flatMap fun _ => branches s := by
    conv => lhs; rw [← joinWith_segment ',' n]
    rw [replace_joinWith '&' s rfl, branches_joinWith_closed (by simp [segment_ne_nil]) all_closed,
      List.flatMap_map, branches.eq_def n, List.flatMap_map]
    exact List.flatMap_congr fun piece member => same member
  rw [Spreads, emitted]
  exact fill_amps_perm only (branches s)

/-- A selector that can be nested in a rule: its quotes and brackets match, and trimming leaves it
as it is. -/
structure Standing (s : Text) : Prop where
  closed : Closed s
  trimmed : trim s = s
  nonempty : s ≠ []

/-- One branch takes the place of each `&` as composition puts it there. -/
theorem Standing.spreads_of_single {s n : Text} (standing : Standing s) (readable : Readable n)
    (single : (branches s).length = 1) : Spreads s n (replace '&' s n) := by
  rw [length_branches] at single
  have whole := segment_eq_self single
  have solid : Solid ',' s := solid_iff.mpr ⟨standing.closed, whole⟩
  have trimmed (piece : Text) : trim (replace '&' s piece) = replace '&' s (trim piece) := by
    obtain ⟨before, behind, parts, blank, blank'⟩ := trim_parts piece
    conv => lhs; rw [parts]
    rw [replace_append, replace_append, replace_blank blank, replace_blank blank']
    exact trim_of_parts (trim_replace standing.trimmed standing.nonempty (trim_trim piece)) blank blank'
  have alone : branches s = [s] := by rw [branches, whole, List.map_singleton, standing.trimmed]
  apply List.Perm.of_eq
  rw [alone, branches, segment_replace solid (by decide) (by decide) readable.exposed]
  simp [fill, branches, trimmed]

/-- Plain replacement agrees with composition if the outer selector is one branch or
the template is nothing but `&`, and not otherwise. -/
theorem Standing.spreads_iff {s n : Text} (standing : Standing s) (readable : Readable n) :
    Spreads s n (replace '&' s n) ↔ (branches s).length = 1 ∨ ∀ b ∈ branches n, b = ['&'] := by
  constructor
  · intro spreads
    by_cases several : 2 ≤ (branches s).length
    · exact .inr (spreads.only_amps standing.closed readable several)
    · have some_branch := segment_pos ',' s
      rw [← length_branches] at some_branch
      exact .inl (by omega)
  · rintro (single | only)
    · exact standing.spreads_of_single readable single
    · exact spreads_of_only_amps standing.closed only

theorem Standing.replace {s n : Text} (standing : Standing s) (readable : Readable n)
    (trimmed : trim n = n) : Standing (Text.replace '&' s n) where
  closed := readable.closed.replace (by decide) readable.exposed standing.closed
  trimmed := trim_replace standing.trimmed standing.nonempty trimmed
  nonempty := by
    refine replace_ne_nil '&' s standing.nonempty ?_
    rintro rfl
    exact readable.visible [] (by decide) rfl

/-- A list of branches may be nested. -/
theorem standing_joinWith {os : List Text} (some_branch : os ≠ []) (each : ∀ o ∈ os, Branch o) :
    Standing (joinWith ", " os) := by
  obtain ⟨first, others, rfl⟩ := List.exists_cons_of_ne_nil some_branch
  have ends : trim (joinWith ", " (first :: others)) = joinWith ", " (first :: others) ∧
      joinWith ", " (first :: others) ≠ [] := by
    clear some_branch
    induction others generalizing first with
    | nil =>
      have alone := each first (by simp)
      simpa [joinWith, List.intercalate] using And.intro alone.trimmed alone.nonempty
    | cons next others ih =>
      obtain ⟨head, tail⟩ := List.forall_mem_cons.mp each
      obtain ⟨trimmed, nonempty⟩ := ih next tail
      rw [joinWith_cons_cons]
      exact ⟨trim_append ", " head.trimmed head.nonempty trimmed nonempty,
        List.append_ne_nil_of_left_ne_nil head.nonempty _⟩
  refine ⟨?_, ends.1, ends.2⟩
  rw [joinWith_spaced]
  exact closed_joinWith (by decide) fun piece member => (solid_spaced each piece member).closed

end AtomicCss.Step
