import AtomicCss.Migration.Stylesheet
import AtomicCss.Proofs.Migration.CallReplacement

/-! Replacing calls from left to right. A text in which no call of the theme begins is
copied, and what is behind it is replaced as the calls and quotes say that are open
there. A complete call is replaced wherever it is not quoted, however many
calls are open around it. -/
namespace AtomicCss.Value

/-- How many calls are open, and the state, after one more character. -/
def advance (p : Nat × Scan) (c : Char) : Nat × Scan :=
  if p.2.live c then
    if c = '(' then (p.1 + 1, .plain) else if c = ')' then (p.1 - 1, .plain) else (p.1, .plain)
  else (p.1, p.2.next c)

/-- Where the reader is behind a text. -/
def place (p : Nat × Scan) (t : Text) : Nat × Scan := t.foldl advance p

theorem place_append (p : Nat × Scan) (a b : Text) : place p (a ++ b) = place (place p a) b :=
  List.foldl_append

theorem advance_inward {depth : Nat} {s : Scan} {c : Char} (inward : Inward depth s c) :
    advance (depth, s) c = (depth, s.next c) := by
  unfold advance
  split
  · rename_i live
    obtain ⟨opens, closes, -⟩ := inward live
    have settled : s.next c = .plain := Scan.next_of_live live
    rw [if_neg opens, settled]
    split
    · rename_i same
      have shallow : depth = 0 := by
        by_contra inside
        exact closes ⟨same, Nat.pos_of_ne_zero inside⟩
      simp [shallow]
    · rfl
  · rfl

theorem advance_separator {c : Char} (live : Scan.plain.live c = true) (separates : isSeparator c = true)
    (depth : Nat) : advance (depth, .plain) c = (depth, .plain) := by
  have opens : c ≠ '(' := by
    rintro rfl
    cases separates
  have closes : c ≠ ')' := by
    rintro rfl
    cases separates
  simp [advance, live, opens, closes]

theorem advance_sound {p : Nat × Scan} (sound : p.2.Sound) (c : Char) : (advance p c).2.Sound := by
  unfold advance
  split
  · split
    · trivial
    · split <;> trivial
  · exact Scan.sound_next sound c

theorem place_sound {p : Nat × Scan} (sound : p.2.Sound) (t : Text) : (place p t).2.Sound := by
  induction t generalizing p with
  | nil => exact sound
  | cons c t ih => exact ih (advance_sound sound c)

/-- A character that means nothing to the reader ends an escape at most. -/
theorem advance_neutral {p : Nat × Scan} (sound : p.2.Sound) {c : Char} (neutral : Text.Neutral c) :
    advance p c = (p.1, p.2.settle) := by
  have settled : p.2.next c = p.2.settle := Text.next_neutral sound neutral
  unfold advance
  split
  · rename_i live
    rw [if_neg (neutral.ne (by decide)), if_neg (neutral.ne (by decide)), ← settled,
      Scan.next_of_live live]
  · rw [settled]

theorem place_neutral {p : Nat × Scan} (settled : p.2.Settled) {u : Text}
    (neutral : ∀ c ∈ u, Text.Neutral c) : place p u = p := by
  induction u with
  | nil => rfl
  | cons c u ih =>
    have step : advance p c = p := by
      rw [advance_neutral settled.1 (neutral c List.mem_cons_self), settled.2]
    rw [place, List.foldl_cons, step]
    exact ih fun d member => neutral d (List.mem_cons_of_mem c member)

/-- The text of a first call begins with its name. -/
theorem leads_of_nest {depth : Nat} {s : Scan} {t name : Text} {args rest : List Node}
    (first : (nest (lex depth s t)).here = .call name args :: rest) : name ++ ['('] <+: t := by
  have read := nest_text depth s t
  rw [Nesting.text, first, render_cons, renderNode_call] at read
  exact ⟨_, by simpa using read⟩

end AtomicCss.Value

namespace AtomicCss.Migration
open Value

/-- The siblings of a nesting with their calls replaced. -/
def migrated (theme : Theme) (context : Context) (g : Nesting) : Text :=
  render (replaceCalls theme context g.here) ++
    g.after.flatMap fun siblings => ')' :: render (replaceCalls theme context siblings)

/-- A text that begins with a call of the theme. -/
def Leads (t : Text) : Prop := "theme(".toList <+: t

/-- No call of the theme begins in the text. -/
def Callless (t : Text) : Prop := ¬ "theme(".toList <:+: t

instance (t : Text) : Decidable (Callless t) := inferInstanceAs (Decidable (¬ _))

theorem Callless.part {a b : Text} (callless : Callless b) (part : a <:+: b) : Callless a :=
  fun calls => callless (calls.trans part)

theorem callless_of_not_mem {t : Text} (absent : 't' ∉ t) : Callless t :=
  fun calls => absent (calls.subset (by simp))

theorem Callless.cons {c : Char} {t : Text} (callless : Callless t) (other : c ≠ 't') :
    Callless (c :: t) := by
  intro calls
  rcases List.infix_cons_iff.mp calls with ⟨rest, leads⟩ | inside
  · exact other (List.cons.inj leads).1.symm
  · exact callless inside

/-- No call of the theme begins in the text, or goes on behind it. -/
theorem Callless.not_leads {a b : Text} (callless : Callless a)
    (stops : ∀ c, b.head? = some c → c ∉ "theme(".toList) : ¬ Leads (a ++ b) := by
  rintro ⟨rest, whole⟩
  rcases List.append_eq_append_iff.mp whole with ⟨m, rfl, -⟩ | ⟨m, same, rfl⟩
  · exact callless ⟨[], m, rfl⟩
  · cases m with
    | nil => exact callless ⟨[], [], by simp [same]⟩
    | cons c m => exact stops c rfl (by simp [same])

theorem Callless.append {a b : Text} (callless : Callless a) (callless' : Callless b)
    (stops : ∀ c, b.head? = some c → c ∉ "theme(".toList) : Callless (a ++ b) := by
  induction a with
  | nil => exact callless'
  | cons c a ih =>
    intro calls
    rcases List.infix_cons_iff.mp calls with leads | inside
    · exact callless.not_leads stops leads
    · exact ih (callless.part (List.infix_cons (List.infix_refl a))) inside

section

variable (theme : Theme) (context : Context)

theorem migrateValue_eq (t : Text) :
    migrateValue theme context t = migrated theme context (nest (lex 0 .plain t)) := by
  have closed := List.eq_nil_of_length_eq_zero (Nat.le_zero.mp (nest_lex_depth 0 .plain t))
  simp [migrateValue_eq_replaceCalls, migrated, parse, closed]

/-- Siblings that start with a call of the theme. -/
def StartsTheme (ns : List Node) : Prop := ∃ args rest, ns = .call "theme" args :: rest

/-- A word in front of the siblings stays in front of what becomes of them, as long as it neither
makes a call of the theme nor spoils one. -/
theorem replaceCalls_spelled {c : Char} {u : Text} {ns : List Node} (other : ¬ StartsTheme ns)
    (other' : ¬ StartsTheme ((c :: u).foldr spell ns)) :
    render (replaceCalls theme context ((c :: u).foldr spell ns)) =
      c :: u ++ render (replaceCalls theme context ns) := by
  have alone (ends : headWord ns = false) :
      render (replaceCalls theme context ((c :: u).foldr spell ns)) =
        c :: u ++ render (replaceCalls theme context ns) := by
    rw [foldr_spell (List.cons_ne_nil c u) (spell_fresh ends), replaceCalls, replaceCallsNode, render_cons,
      renderNode_word]
  cases ns with
  | nil => exact alone rfl
  | cons n ns =>
    cases n with
    | separator t => exact alone rfl
    | word t =>
      rw [spell_word]
      simp [replaceCalls, replaceCallsNode]
    | call name args =>
      rw [spell_call] at other' ⊢
      have plain : name ≠ "theme" := by
        rintro rfl
        exact other ⟨args, ns, rfl⟩
      have plain' : c :: u ++ name ≠ "theme" := by
        intro same
        rw [same] at other'
        exact other' ⟨args, ns, rfl⟩
      rw [replaceCalls, replaceCalls, replaceCallsNode, replaceCallsNode, if_neg plain, if_neg plain']
      simp

theorem leads_of_startsTheme {depth : Nat} {s : Scan} {t : Text}
    (starts : StartsTheme (nest (lex depth s t)).here) : Leads t := by
  obtain ⟨args, rest, first⟩ := starts
  exact leads_of_nest first

theorem migrated_opening (depth : Nat) (t : Text) :
    migrated theme context (nest (lex depth .plain ('(' :: t))) =
      '(' :: migrated theme context (nest (lex (depth + 1) .plain t)) := by
  rw [nest_opening]
  rcases nest (lex (depth + 1) .plain t) with ⟨here, _ | ⟨siblings, after⟩⟩
  · simp [migrated, Nesting.openCall, replaceCalls, replaceCallsNode]
  · simp [migrated, Nesting.openCall, replaceCalls, replaceCallsNode]

theorem migrated_closing (depth : Nat) (t : Text) :
    migrated theme context (nest (lex (depth + 1) .plain (')' :: t))) =
      ')' :: migrated theme context (nest (lex depth .plain t)) := by
  rw [nest_closing]
  simp [migrated, Nesting.close, replaceCalls]

theorem migrated_separator {c : Char} (live : Scan.plain.live c = true) (separates : isSeparator c = true)
    (depth : Nat) (t : Text) :
    migrated theme context (nest (lex depth .plain (c :: t))) =
      c :: migrated theme context (nest (lex depth .plain t)) := by
  rw [nest_separator depth t live separates]
  have kept (ns : List Node) : render (replaceCalls theme context (space c ns)) =
      c :: render (replaceCalls theme context ns) := by
    fun_cases space c ns <;> simp [replaceCalls, replaceCallsNode]
  simp [migrated, kept]

/-- A character where no call of the theme begins, in front of a text that does not begin with one. -/
theorem migrated_cons (p : Nat × Scan) {c : Char} {t : Text} (here : ¬ Leads (c :: t))
    (behind : ¬ Leads t) : migrated theme context (nest (lex p.1 p.2 (c :: t))) =
      c :: migrated theme context (nest (lex (advance p c).1 (advance p c).2 t)) := by
  obtain ⟨depth, s⟩ := p
  rcases reading_cases depth s c with inward | ⟨rfl, rfl⟩ | ⟨rfl, rfl, outer, rfl⟩ |
    ⟨rfl, live, separates⟩
  · have spelled := nest_word depth t inward
    have other : ¬ StartsTheme (nest (lex depth s (c :: t))).here :=
      fun starts => here (leads_of_startsTheme starts)
    rw [spelled] at other
    have kept := replaceCalls_spelled theme context (u := [])
      (fun starts => behind (leads_of_startsTheme starts)) other
    rw [advance_inward inward, spelled, migrated, migrated]
    exact congrArg (· ++ _) kept
  · exact migrated_opening theme context depth t
  · exact migrated_closing theme context outer t
  · rw [advance_separator live separates]
    exact migrated_separator theme context live separates depth t

/-- A text in which no call of the theme begins is copied. -/
theorem migrated_append {x : Text} (callless : Callless x) {v : Text}
    (stops : ∀ c, v.head? = some c → c ∉ "theme(".toList) (p : Nat × Scan) :
    migrated theme context (nest (lex p.1 p.2 (x ++ v))) =
      x ++ migrated theme context (nest (lex (place p x).1 (place p x).2 v)) := by
  induction x generalizing p with
  | nil => rfl
  | cons c x ih =>
    have callless' : Callless x := callless.part (List.infix_cons (List.infix_refl x))
    have here : ¬ Leads (c :: (x ++ v)) := callless.not_leads stops
    rw [List.cons_append, migrated_cons theme context p here (callless'.not_leads stops), ih callless']
    rfl

theorem migrated_callless {x : Text} (callless : Callless x) (p : Nat × Scan) :
    migrated theme context (nest (lex p.1 p.2 x)) = x := by
  have copied := migrated_append theme context callless (v := []) nofun p
  rw [List.append_nil] at copied
  rw [copied]
  simp [migrated, lex, nest, replaceCalls]

/-- A complete call that asks for a token is replaced, and what is behind it is read apart. -/
theorem migrated_call {arguments token : Text} {modifier : Option Text} (complete : Complete arguments)
    (asked : Asks theme arguments token modifier) (depth : Nat) (rest : Text) :
    migrated theme context (nest (lex depth .plain ("theme(".toList ++ (arguments ++ ')' :: rest)))) =
      reference context token modifier ++ migrated theme context (nest (lex depth .plain rest)) := by
  have letters : ∀ c ∈ "theme".toList, isWordChar c = true := Text.forall_of_all rfl
  have whole : "theme(".toList ++ (arguments ++ ')' :: rest) =
      "theme".toList ++ '(' :: (arguments ++ ')' :: rest) := rfl
  have node : themeNode? theme context (parse arguments) = some (requestNode context (token, modifier)) := by
    rw [themeNode?, render_parse, request_eq_some.mpr asked, Option.map_some]
  rw [whole, nest_call letters complete, migrated, Nesting.cons, replaceCalls, replaceCallsNode, if_pos rfl, node,
    Option.getD_some, render_cons, renderNode_request, List.append_assoc]
  rfl

/-- The name of an at-rule stays, whatever follows it. -/
theorem migrated_atName {name rest : Text} (letters : ∀ c ∈ name, isNameChar c = true)
    (ends : ∀ c, rest.head? = some c → isNameChar c = false) (depth : Nat) :
    migrated theme context (nest (lex depth .plain ('@' :: name ++ rest))) =
      '@' :: name ++ migrated theme context (nest (lex depth .plain rest)) := by
  have named : Text.NameLike ('@' :: name) := by
    refine Text.NameLike.cons rfl fun c member => ?_
    have letter := letters c member
    simp only [isNameChar, Bool.or_eq_true] at letter
    rcases letter with alnum | dash <;> simp_all [Text.isNameChar]
  have spelled : ∀ c ∈ '@' :: name, isWordChar c = true := fun c member =>
    isWordChar_of_isNameChar (named c member)
  have unbroken : ¬ StartsTheme (nest (lex depth .plain rest)).here := by
    intro starts
    obtain ⟨behind, whole⟩ := leads_of_startsTheme starts
    have first := ends 't' (by simp [← whole])
    cases first
  rw [nest_letters _ _ spelled, migrated, migrated, ← List.append_assoc]
  refine congrArg (· ++ _) (replaceCalls_spelled theme context unbroken ?_)
  rintro ⟨args, later, starts⟩
  have written := congrArg render starts
  rw [render_spelled, render_cons, renderNode_call] at written
  cases written

end

end AtomicCss.Migration
