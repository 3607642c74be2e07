import AtomicCss.Proofs.Arbitrary.Spacing

/-! Where a text is mathematics, and what an operator can join there. The reader keeps a
stack of open parentheses and looks back at the text that it wrote; both are said here of
the text alone. -/
namespace AtomicCss.Arbitrary
open Text Value

/-- The name at the end of a text. -/
def endName (t : Text) : Text := (t.reverse.takeWhile fun c => c.isAlphanum || c == '-').reverse

/-- Each parenthesis of the text has its counterpart there. -/
inductive Matched : Text → Prop
  | nil : Matched []
  | other {t : Text} {c : Char} (ahead : Matched t) (plain : c ≠ '(' ∧ c ≠ ')') : Matched (t ++ [c])
  | group {t inner : Text} (ahead : Matched t) (inside : Matched inner) :
    Matched (t ++ '(' :: (inner ++ [')']))

/-- The innermost parenthesis that is open at the end of the text holds mathematics: it stands
behind the name of a mathematical function, or behind no name inside of mathematics. -/
inductive InMath : Text → Prop
  | call {front inner : Text} (known : lower (endName front) ∈ mathFunctions) (inside : Matched inner) :
    InMath (front ++ '(' :: inner)
  | group {front inner : Text} (unnamed : endName front = []) (outer : InMath front)
    (inside : Matched inner) : InMath (front ++ '(' :: inner)

/-- For each open parenthesis of the text that was written, the innermost first, whether it holds
mathematics. -/
def openMath : Text → List Bool
  | [] => []
  | c :: w =>
    if c = '(' then MathState.opensMath ⟨w, openMath w, none⟩ :: openMath w
    else if c = ')' then (openMath w).tail
    else openMath w

theorem openMath_append {inner : Text} (inside : Matched inner) (w : Text) :
    openMath (inner.reverse ++ w) = openMath w := by
  induction inside generalizing w with
  | nil => rfl
  | other ahead plain ih => simp [openMath, plain, ih]
  | @group t inner ahead inside ih ih' =>
    have whole : (t ++ '(' :: (inner ++ [')'])).reverse ++ w =
        ')' :: (inner.reverse ++ '(' :: (t.reverse ++ w)) := by simp
    rw [whole, openMath, if_neg (by decide), if_pos rfl, ih', openMath, if_pos rfl, List.tail_cons, ih]

/-- The last entry was made for the last open parenthesis. -/
theorem openMath_cons {w : Text} {b : Bool} {outer : List Bool} (same : openMath w = b :: outer) :
    ∃ front inner, w.reverse = front ++ '(' :: inner ∧ Matched inner ∧ openMath front.reverse = outer ∧
      MathState.opensMath ⟨front.reverse, outer, none⟩ = b := by
  match w with
  | [] => cases same
  | c :: w =>
    rw [openMath] at same
    split at same
    · rename_i opens
      obtain ⟨known, rfl⟩ := List.cons.inj same
      exact ⟨w.reverse, [], by simp [opens], .nil, by simp, by simpa using known⟩
    · split at same
      · rename_i closes
        obtain ⟨q, before⟩ : ∃ q, openMath w = q :: b :: outer := by
          cases whole : openMath w with
          | nil => simp [whole] at same
          | cons q ps => exact ⟨q, by simpa [whole] using same⟩
        obtain ⟨middle, inner, whole, inside, opened, -⟩ := openMath_cons before
        have shorter : middle.length < w.length := by
          have length := congrArg List.length whole
          simp at length
          omega
        obtain ⟨front, inner', whole', inside', opened', known⟩ := openMath_cons opened
        rw [List.reverse_reverse] at whole'
        refine ⟨front, inner' ++ '(' :: (inner ++ [')']), ?_, .group inside' inside, opened', known⟩
        simp [closes, whole, whole']
      · rename_i opens closes
        obtain ⟨front, inner, whole, inside, opened, known⟩ := openMath_cons same
        exact ⟨front, inner ++ [c], by simp [whole], .other inside ⟨opens, closes⟩, opened, known⟩
termination_by w.length

theorem opensMath_iff {w : Text} {outer : List Bool} :
    MathState.opensMath ⟨w, outer, none⟩ = true ↔
      lower (endName w.reverse) ∈ mathFunctions ∨ endName w.reverse = [] ∧ outer.head? = some true := by
  simp [MathState.opensMath, MathState.inMath, endName, lower]

theorem InMath.of_openMath {w : Text} {outer : List Bool} (same : openMath w = true :: outer) :
    InMath w.reverse := by
  obtain ⟨front, inner, whole, inside, opened, known⟩ := openMath_cons same
  rw [whole]
  rcases opensMath_iff.mp known with called | ⟨unnamed, math⟩
  · exact .call (by simpa using called) inside
  · have shorter : front.length < w.length := by
      have length := congrArg List.length whole
      simp at length
      omega
    obtain ⟨rest, outer'⟩ := List.head?_eq_some_iff.mp math
    have math := InMath.of_openMath (opened.trans outer')
    exact .group (by simpa using unnamed) (by simpa using math) inside
termination_by w.length

/-- The stack of the reader says where the text is mathematics. -/
theorem inMath_iff {w : Text} : (openMath w).head? = some true ↔ InMath w.reverse := by
  constructor
  · intro math
    obtain ⟨outer, same⟩ := List.head?_eq_some_iff.mp math
    exact .of_openMath same
  · intro math
    generalize whole : w.reverse = t at math
    have written : w = t.reverse := by rw [← whole, List.reverse_reverse]
    subst written
    clear whole
    have opening (front : Text) {inner : Text} (inside : Matched inner) :
        openMath (front ++ '(' :: inner).reverse =
          MathState.opensMath ⟨front.reverse, openMath front.reverse, none⟩ :: openMath front.reverse := by
      have whole : (front ++ '(' :: inner).reverse = inner.reverse ++ '(' :: front.reverse := by simp
      rw [whole, openMath_append inside, openMath, if_pos rfl]
    induction math with
    | @call front _ known inside =>
      rw [opening front inside]
      simpa using opensMath_iff.mpr (.inl (by simpa using known))
    | @group front _ unnamed _ inside ih =>
      rw [opening front inside]
      simpa using opensMath_iff.mpr (.inr ⟨by simpa using unnamed, ih⟩)

/-- An operand at the end of `x` that `op` can join to what follows: what a parenthesis closes, a
number with its unit, or, in front of a factor, anything but an operator, a comma and an opening
parenthesis. -/
inductive LeftOperand (op : Char) : Text → Prop
  | closed (x : Text) : LeftOperand op (x ++ [')'])
  | number {x unit : Text} {d : Char} (starts : d.isDigit = true ∨ d = '.')
    (whole : x.getLast?.any isOperandChar = false) (part : ∀ c ∈ unit, isOperandChar c = true) :
    LeftOperand op (x ++ d :: unit)
  | factor {x : Text} {c : Char} (factor : op = '*' ∨ op = '/')
    (operand : c ≠ '(' ∧ c ≠ ',' ∧ isOperatorChar c = false) : LeftOperand op (x ++ [c])

theorem isOperandChar_number {d : Char} (starts : d.isDigit = true ∨ d = '.') : isOperandChar d = true := by
  rcases starts with digit | rfl
  · simp [isOperandChar, Char.isAlphanum, digit]
  · rfl

/-- The operand at the end of the text begins as a number does. -/
def EndsInNumber (t : Text) : Prop :=
  ∃ x unit d, t = x ++ d :: unit ∧ (d.isDigit = true ∨ d = '.') ∧
    x.getLast?.any isOperandChar = false ∧ ∀ c ∈ unit, isOperandChar c = true

/-- The operand at the end, from its last character to its first. -/
theorem takeWhile_operand {x operand : Text} (whole : x.getLast?.any isOperandChar = false)
    (part : ∀ c ∈ operand, isOperandChar c = true) :
    (x ++ operand).reverse.takeWhile isOperandChar = operand.reverse := by
  have stops : x.reverse.takeWhile isOperandChar = [] := by
    rw [List.getLast?_eq_head?_reverse] at whole
    cases back : x.reverse with
    | nil => rfl
    | cons e rest => exact List.takeWhile_cons_of_neg (by simpa [back] using whole)
  rw [List.reverse_append, List.takeWhile_append_of_pos, stops, List.append_nil]
  exact fun c member => part c (List.mem_reverse.mp member)

theorem operandHead_iff {w : Text} :
    (operandHead w).any (fun d => d.isDigit || d == '.') = true ↔ EndsInNumber w.reverse := by
  constructor
  · intro number
    obtain ⟨d, last, starts⟩ := (Option.any_eq_true _ _).mp number
    obtain ⟨unit, run⟩ := List.getLast?_eq_some_iff.mp last
    have whole := List.takeWhile_append_dropWhile (p := isOperandChar) (l := w)
    rw [run] at whole
    refine ⟨(w.dropWhile isOperandChar).reverse, unit.reverse, d, ?_, by simpa using starts, ?_, ?_⟩
    · simpa using (congrArg List.reverse whole).symm
    · have other := List.head?_dropWhile_not isOperandChar w
      rw [List.getLast?_reverse]
      cases first : (w.dropWhile isOperandChar).head? with
      | none => rfl
      | some e => simpa [first] using other
    · intro c member
      have inside : c ∈ w.takeWhile isOperandChar := by
        rw [run]
        simpa using .inl (List.mem_reverse.mp member)
      exact List.mem_takeWhile_imp inside
  · rintro ⟨x, unit, d, whole, starts, other, part⟩
    have run := takeWhile_operand other (List.forall_mem_cons.mpr ⟨isOperandChar_number starts, part⟩)
    rw [← whole, List.reverse_reverse] at run
    simpa [operandHead, run] using starts

theorem EndsInNumber.last {front : Text} {c : Char} (number : EndsInNumber (front ++ [c])) :
    isOperandChar c = true := by
  obtain ⟨x, unit, d, whole, starts, -, part⟩ := number
  have member : c ∈ d :: unit := by
    have last := congrArg List.getLast? whole
    rw [List.getLast?_concat, List.getLast?_append_of_ne_nil _ (by simp)] at last
    exact List.mem_of_getLast? last.symm
  rcases List.mem_cons.mp member with rfl | behind
  · exact isOperandChar_number starts
  · exact part c behind

theorem leftOperand_iff {op c : Char} {front : Text} : LeftOperand op (front ++ [c]) ↔
    c = ')' ∨ EndsInNumber (front ++ [c]) ∨
      (op = '*' ∨ op = '/') ∧ c ≠ '(' ∧ c ≠ ',' ∧ isOperatorChar c = false := by
  constructor
  · intro left
    generalize same : front ++ [c] = t at left
    cases left with
    | closed x => exact .inl (by simpa using (List.append_inj' same rfl).2)
    | number starts whole part => exact .inr (.inl ⟨_, _, _, rfl, starts, whole, part⟩)
    | factor factor operand =>
      obtain rfl := by simpa using (List.append_inj' same rfl).2
      exact .inr (.inr ⟨factor, operand⟩)
  · rintro (rfl | ⟨x, unit, d, whole, starts, other, part⟩ | ⟨factor, operand⟩)
    · exact .closed front
    · rw [whole]
      exact .number starts other part
    · exact .factor factor operand

theorem not_leftOperand_nil (op : Char) : ¬ LeftOperand op [] := by
  intro left
  generalize nothing : ([] : Text) = t at left
  cases left <;> simp at nothing

/-- A sign looks for a closing parenthesis or a number. -/
theorem isBinary_sign {op c : Char} {front : Text} (sign : op = '+' ∨ op = '-')
    (visible : isBlank c = false) :
    isBinary op (c :: front.reverse) = true ↔ c = ')' ∨ EndsInNumber (front ++ [c]) := by
  have before : (c :: front.reverse).dropWhile isBlank = c :: front.reverse := by simp [visible]
  simp only [isBinary, before]
  rw [if_pos sign, Bool.or_eq_true, operandHead_iff, beq_iff_eq, List.reverse_cons, List.reverse_reverse]

/-- A factor looks at the last character alone. -/
theorem isBinary_factor {op c : Char} {front : Text} (factor : ¬ (op = '+' ∨ op = '-'))
    (visible : isBlank c = false) : isBinary op (c :: front.reverse) = true ↔
      c ≠ '(' ∧ c ≠ ',' ∧ isOperatorChar c = false := by
  have before : (c :: front.reverse).dropWhile isBlank = c :: front.reverse := by simp [visible]
  simp only [isBinary, before]
  rw [if_neg factor]
  simp [isOperatorChar]
  tauto

/-- The reader looks back for an operand of the operator. -/
theorem isBinary_iff {op : Char} {x : Text} (operator : isOperatorChar op = true)
    (visible : x.getLast?.any isBlank = false) : isBinary op x.reverse = true ↔ LeftOperand op x := by
  rcases List.eq_nil_or_concat x with rfl | ⟨front, c, rfl⟩
  · exact iff_of_false (by simp [isBinary]) (not_leftOperand_nil op)
  · rw [List.concat_eq_append] at visible ⊢
    have visible : isBlank c = false := by simpa using visible
    rw [leftOperand_iff, List.reverse_append, List.reverse_singleton, List.singleton_append]
    by_cases sign : op = '+' ∨ op = '-'
    · have factor : ¬ (op = '*' ∨ op = '/') := by rcases sign with rfl | rfl <;> decide
      rw [isBinary_sign sign visible]
      simp [factor]
    · have factor : op = '*' ∨ op = '/' := by
        have known := isOperatorChar_iff.mp operator
        tauto
      rw [isBinary_factor sign visible]
      -- What a parenthesis closes and what a number ends in are operands of a factor, too.
      constructor
      · exact fun operand => .inr (.inr ⟨factor, operand⟩)
      · rintro (rfl | number | ⟨-, operand⟩)
        · exact ⟨by decide, by decide, rfl⟩
        · exact operand_other number.last
        · exact operand

/-- The space that an operator lacks next to its neighbour. -/
def lacking (neighbour : Option Char) : Text := if neighbour.any isBlank then [] else [' ']

/-- An operator gets the spaces that it lacks if it joins an operand in front of it to what follows. -/
theorem spacedOut_cases (op : Char) (written rest : Text) :
    (isBinary op written = true ∧ ∃ c behind, rest = c :: behind ∧ c ≠ ')') ∧
        spacedOut op written rest = lacking written.head? ++ op :: lacking rest.head? ∨
      ¬ (isBinary op written = true ∧ ∃ c behind, rest = c :: behind ∧ c ≠ ')') ∧
        spacedOut op written rest = [op] := by
  cases rest with
  | nil =>
    refine .inr ⟨?_, rfl⟩
    rintro ⟨-, c, behind, same, -⟩
    cases same
  | cons c rest =>
    by_cases alone : c = ')' ∨ ¬ isBinary op written = true
    · refine .inr ⟨?_, if_pos (by simpa using alone)⟩
      rintro ⟨binary, d, behind, same, other⟩
      cases same
      exact alone.elim other (absurd binary)
    · obtain ⟨other, binary⟩ := not_or.mp alone
      rw [not_not] at binary
      have behind : (c :: rest).head?.any isBlank = isBlank c := rfl
      refine .inl ⟨⟨binary, c, rest, rfl, other⟩, ?_⟩
      rw [spacedOut, if_neg (by simp [other, binary]), lacking, lacking, behind]

end AtomicCss.Arbitrary
