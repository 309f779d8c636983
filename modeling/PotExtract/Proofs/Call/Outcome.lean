import PotExtract.Proofs.Call.Roles
import PotExtract.Proofs.Checked.Extract
import Mathlib.Data.List.DropRight

/-!
# What becomes of a call

Where its parenthesis is closed, a call is told by its arguments: too few of
them come first, then the leftmost that has to be a literal and is none, and
all others give a message.

* `Verdict`: what an argument list comes to;
* `Verdict.unique`, `verdict_read`: it comes to one thing, which is what is
  read;
* `AgreeOn`, `Verdict.congr`: what an argument list does not depend on;
* `Fate`: what becomes of the call at a parenthesis;
* `isPastLast_required`: how many arguments a call has to have;
* `readCall_fate`: every call meets its fate.
-/

namespace PotExtract

open Source

/-- A message says what stands at the places of the roles. -/
structure Tells (roles : List Role) (args : List (List Char)) (message : Message) : Prop where
  text : some message.text = decoded? roles args .text
  plural : message.plural = decoded? roles args .plural
  context : message.context = decoded? roles args .context
  domain : message.domain = (argument? roles args .domain).map domainText
  plural_isSome : message.plural.isSome ↔ .plural ∈ roles
  context_isSome : message.context.isSome ↔ .context ∈ roles
  domain_isSome : message.domain.isSome ↔ roles.idxOf .domain < args.length

/-- What an argument list comes to. -/
inductive Verdict (f : Function) (args : List (List Char)) : Except SkipReason Message → Prop where
  /-- It ends too early, before an argument of this role. -/
  | missing {role : Role} (few : args.length < f.required)
      (next : f.roles[args.length]? = some role) : Verdict f args (.error (.missing role))
  /-- This is the leftmost argument that is not the literal it has to be. -/
  | notLiteral {i : Nat} {role : Role} (enough : f.required ≤ args.length)
      (here : NoLiteralAt f.roles args i role)
      (leftmost : ∀ j < i, ∀ other, ¬ NoLiteralAt f.roles args j other) :
      Verdict f args (.error (.notLiteral role))
  /-- All literals are there. -/
  | message {message : Message} (enough : f.required ≤ args.length)
      (literals : ∀ i role, ¬ NoLiteralAt f.roles args i role)
      (tells : Tells f.roles args message) : Verdict f args (.ok message)

/-! ## One verdict -/

theorem Tells.unique {roles : List Role} {args : List (List Char)} {m m' : Message}
    (h : Tells roles args m) (h' : Tells roles args m') : m = m' := by
  cases m
  cases m'
  simp only [Message.mk.injEq]
  exact ⟨Option.some.inj (h.text.trans h'.text.symm), h.plural.trans h'.plural.symm,
    h.context.trans h'.context.symm, h.domain.trans h'.domain.symm⟩

theorem Verdict.unique {f : Function} {args : List (List Char)}
    {a b : Except SkipReason Message} (h : Verdict f args a) (h' : Verdict f args b) : a = b := by
  cases h with
  | missing few next =>
    cases h' with
    | missing _ next' => rw [Option.some.inj (next.symm.trans next')]
    | notLiteral enough | message enough => exact absurd few (Nat.not_lt.2 enough)
  | @notLiteral i role enough here leftmost =>
    cases h' with
    | missing few => exact absurd few (Nat.not_lt.2 enough)
    | @notLiteral j other _ there leftmost' =>
      obtain lt | rfl | gt := Nat.lt_trichotomy i j
      · exact absurd here (leftmost' i lt role)
      · rw [Option.some.inj (here.place.symm.trans there.place)]
      · exact absurd there (leftmost j gt other)
    | message _ literals => exact absurd here (literals i role)
  | message enough literals tells =>
    cases h' with
    | missing few => exact absurd few (Nat.not_lt.2 enough)
    | @notLiteral i role _ here => exact absurd here (literals i role)
    | message _ _ tells' => rw [tells.unique tells']

/-! ## How many arguments a call needs -/

/-- A number is one past the last role that needs a literal. -/
structure IsPastLast (roles : List Role) (n : Nat) : Prop where
  last : ∃ i role, n = i + 1 ∧ roles[i]? = some role ∧ role.needsLiteral = true
  none_after : ∀ i role, roles[i]? = some role → role.needsLiteral = true → i < n

theorem required_eq_length (f : Function) :
    f.required = (f.roles.rdropWhile fun role => !role.needsLiteral).length := by
  rw [Function.required, List.rdropWhile, List.length_reverse]

theorem lt_required {f : Function} {i : Nat} {role : Role} (place : f.roles[i]? = some role)
    (needs : role.needsLiteral = true) : i < f.required := by
  by_contra past
  have whole :=
    List.rdropWhile_append_rtakeWhile (p := fun role => !role.needsLiteral) (l := f.roles)
  rw [← whole, List.getElem?_append_right (by rw [← required_eq_length]; omega)] at place
  have idle := List.mem_rtakeWhile_imp (List.mem_of_getElem? place)
  simp [needs] at idle

theorem isPastLast_required {f : Function} (listed : f ∈ Function.all) :
    IsPastLast f.roles f.required := by
  refine ⟨?_, fun i role place needs => lt_required place needs⟩
  obtain ⟨pos, -⟩ := Function.text_first listed
  rw [required_eq_length] at pos ⊢
  have ne := List.length_pos_iff.1 pos
  refine ⟨_, List.getLast _ ne, (Nat.sub_add_cancel pos).symm, ?_, ?_⟩
  · rw [List.getLast_eq_getElem]
    exact List.prefix_iff_getElem?.1 (List.rdropWhile_prefix _ _) _ (Nat.sub_lt pos Nat.one_pos)
  · simpa using List.rdropWhile_last_not _ _ ne

/-! ## The verdict -/

theorem decoded?_eq_bind {role : Role} (needs : role.needsLiteral = true) (roles : List Role)
    (args : List (List Char)) :
    decoded? roles args role =
      (argument? roles args role).bind fun arg => (role.read arg).toOption := by
  rw [decoded?, Option.map_bind]
  congr 1
  funext arg
  rw [Role.read_literal needs, Function.comp_apply]
  cases literal? arg <;> rfl

/-- A role that needs a literal is told exactly if the function has it. -/
theorem decoded?_isSome_iff {f : Function} {args : List (List Char)} {role : Role}
    (enough : f.required ≤ args.length) (literals : ∀ i role, ¬ NoLiteralAt f.roles args i role)
    (needs : role.needsLiteral = true) : (decoded? f.roles args role).isSome ↔ role ∈ f.roles := by
  constructor
  · intro told
    by_contra absent
    rw [decoded?, argument?, if_neg absent] at told
    cases told
  · intro listed
    have place : f.roles[f.roles.idxOf role]? = some role := List.getElem?_idxOf listed
    have inside := Nat.lt_of_lt_of_le (lt_required place needs) enough
    have given := List.getElem?_eq_getElem inside
    cases hliteral : literal? args[f.roles.idxOf role] with
    | none => exact absurd ⟨place, needs, _, given, hliteral⟩ (literals _ role)
    | some literal => simp [decoded?, argument?, listed, given, hliteral]

theorem Function.domain_mem {f : Function} (listed : f ∈ Function.all) : .domain ∈ f.roles := by
  have each : ∀ f ∈ Function.all, .domain ∈ f.roles := by decide
  exact each f listed

/-- The values that are read give a message that tells them. -/
theorem tells_of_readRoles {f : Function} (listed : f ∈ Function.all) {args : List (List Char)}
    (enough : f.required ≤ args.length) {values : List (Role × String)}
    (h : readRoles f.roles args = .ok values) {text : String}
    (found : values.lookup .text = some text) :
    Tells f.roles args
      ⟨text, values.lookup .plural, values.lookup .context, values.lookup .domain⟩ := by
  have told := lookup_readRoles h
  have literals := not_noLiteralAt_of_ok h
  have plural := (told .plural).trans (decoded?_eq_bind rfl f.roles args).symm
  have context := (told .context).trans (decoded?_eq_bind rfl f.roles args).symm
  have domain : values.lookup .domain = (argument? f.roles args .domain).map domainText := by
    rw [told]
    cases argument? f.roles args .domain <;> simp [Role.read_domain, Except.toOption]
  refine ⟨?_, plural, context, domain, ?_, ?_, ?_⟩
  · rw [← found, told]
    exact (decoded?_eq_bind rfl f.roles args).symm
  · rw [plural]
    exact decoded?_isSome_iff enough literals rfl
  · rw [context]
    exact decoded?_isSome_iff enough literals rfl
  · rw [domain, argument?, if_pos (Function.domain_mem listed)]
    simp

/-- What is read of an argument list is its verdict. -/
theorem verdict_read {f : Function} (listed : f ∈ Function.all) (args : List (List Char)) :
    Verdict f args (f.read args) := by
  rw [Function.read]
  by_cases few : args.length < f.required
  · have inside : args.length < f.roles.length :=
      Nat.lt_of_lt_of_le few (Checked.required_le_length f)
    rw [if_pos few, List.getD_eq_getElem?_getD, List.getElem?_eq_getElem inside]
    exact .missing few (List.getElem?_eq_getElem inside)
  · have enough := Nat.le_of_not_lt few
    rw [if_neg few]
    cases h : readRoles f.roles args with
    | error reason =>
      obtain ⟨i, role, here, leftmost, rfl⟩ := exists_noLiteralAt_of_error h
      exact .notLiteral enough here leftmost
    | ok values =>
      obtain ⟨text, found⟩ := Checked.exists_lookup_text listed enough h
      simp only [bind, Except.bind, found]
      exact .message enough (not_noLiteralAt_of_ok h) (tells_of_readRoles listed enough h found)

theorem read_eq_iff {f : Function} (listed : f ∈ Function.all) {args : List (List Char)}
    {outcome : Except SkipReason Message} : f.read args = outcome ↔ Verdict f args outcome := by
  constructor
  · rintro rfl
    exact verdict_read listed args
  · exact (verdict_read listed args).unique

/-! ## What the verdict does not depend on -/

/-- Two argument lists of which a function can tell no more apart than what counts say, and
arguments past its last role. -/
def AgreeOn (roles : List Role) (args args' : List (List Char)) : Prop :=
  ∀ i role, roles[i]? = some role →
    (i < args.length ↔ i < args'.length) ∧ (role ≠ .count → args[i]? = args'[i]?)

section
variable {roles : List Role} {args args' : List (List Char)} {role : Role}

theorem AgreeOn.symm (h : AgreeOn roles args args') : AgreeOn roles args' args :=
  fun i role place => ⟨(h i role place).1.symm, fun ne => ((h i role place).2 ne).symm⟩

theorem ne_count_of_needsLiteral (needs : role.needsLiteral = true) : role ≠ .count := by
  rintro rfl
  cases needs

theorem AgreeOn.argument? (h : AgreeOn roles args args') (ne : role ≠ .count) :
    PotExtract.argument? roles args role = PotExtract.argument? roles args' role := by
  rw [PotExtract.argument?, PotExtract.argument?]
  by_cases listed : role ∈ roles
  · rw [if_pos listed, if_pos listed, (h _ role (List.getElem?_idxOf listed)).2 ne]
  · rw [if_neg listed, if_neg listed]

theorem AgreeOn.decoded? (h : AgreeOn roles args args') (needs : role.needsLiteral = true) :
    PotExtract.decoded? roles args role = PotExtract.decoded? roles args' role := by
  rw [PotExtract.decoded?, PotExtract.decoded?, h.argument? (ne_count_of_needsLiteral needs)]

theorem AgreeOn.noLiteralAt (h : AgreeOn roles args args') {i : Nat}
    (at_ : NoLiteralAt roles args i role) : NoLiteralAt roles args' i role := by
  obtain ⟨place, needs, arg, given, none⟩ := at_
  refine ⟨place, needs, arg, ?_, none⟩
  rw [← (h i role place).2 (ne_count_of_needsLiteral needs), given]

/-- Up to the last role, the lists are of one length. -/
theorem AgreeOn.length_eq (h : AgreeOn roles args args') (few : args.length < roles.length) :
    args.length = args'.length := by
  have here := (h _ _ (List.getElem?_eq_getElem few)).1
  have before (i : Nat) (hi : i < args.length) : i < args'.length :=
    (h i _ (List.getElem?_eq_getElem (hi.trans few))).1.1 hi
  have notMore : args'.length ≤ args.length := Nat.not_lt.1 fun more =>
    absurd (here.2 more) (Nat.lt_irrefl _)
  refine Nat.le_antisymm (Nat.le_of_not_lt fun less => ?_) notMore
  exact absurd (before _ less) (Nat.lt_irrefl _)

theorem AgreeOn.required_le {f : Function} (h : AgreeOn f.roles args args')
    (enough : f.required ≤ args.length) : f.required ≤ args'.length := by
  by_contra few
  have few' := Nat.lt_of_not_le few
  have same := h.symm.length_eq (Nat.lt_of_lt_of_le few' (Checked.required_le_length f))
  omega

end

/-- What a count says, and arguments past the last role, change no verdict. -/
theorem Verdict.congr {f : Function} (listed : f ∈ Function.all) {args args' : List (List Char)}
    (h : AgreeOn f.roles args args') {outcome : Except SkipReason Message}
    (verdict : Verdict f args outcome) : Verdict f args' outcome := by
  have back {i : Nat} {role : Role} : NoLiteralAt f.roles args' i role →
      NoLiteralAt f.roles args i role := h.symm.noLiteralAt
  cases verdict with
  | missing few next =>
    have same := h.length_eq (Nat.lt_of_lt_of_le few (Checked.required_le_length f))
    rw [same] at few next
    exact .missing few next
  | notLiteral enough here leftmost =>
    exact .notLiteral (h.required_le enough) (h.noLiteralAt here)
      fun j hj other at_ => leftmost j hj other (back at_)
  | message enough literals tells =>
    refine .message (h.required_le enough) (fun i role at_ => literals i role (back at_)) ?_
    have place := List.getElem?_idxOf (Function.domain_mem listed)
    exact {
      text := tells.text.trans (h.decoded? rfl)
      plural := tells.plural.trans (h.decoded? rfl)
      context := tells.context.trans (h.decoded? rfl)
      domain := by rw [tells.domain, h.argument? (by decide)]
      plural_isSome := tells.plural_isSome
      context_isSome := tells.context_isSome
      domain_isSome := tells.domain_isSome.trans (h _ _ place).1 }

/-! ## Calls -/

/-- The parenthesis at a byte offset has a partner, and these arguments stand between the two. -/
def HasArguments (s : List Char) (opens : Nat) (args : List (List Char)) : Prop :=
  ∃ close inside, matchingParen? s opens = some close ∧
    Checked.slice s (opens + 1) close = .ok inside ∧ args = arguments inside

/-- What becomes of the call of a function whose parenthesis opens at a byte offset. -/
inductive Fate (f : Function) (s : List Char) (opens : Nat) : Except SkipReason Message → Prop where
  | unbalanced (none : matchingParen? s opens = none) : Fate f s opens (.error .unbalanced)
  | closed {args : List (List Char)} {outcome : Except SkipReason Message}
      (between : HasArguments s opens args) (verdict : Verdict f args outcome) :
      Fate f s opens outcome

theorem HasArguments.unique {s : List Char} {opens : Nat} {args args' : List (List Char)}
    (h : HasArguments s opens args) (h' : HasArguments s opens args') : args = args' := by
  obtain ⟨close, inside, partner, between, rfl⟩ := h
  obtain ⟨close', inside', partner', between', rfl⟩ := h'
  cases partner.symm.trans partner'
  cases between.symm.trans between'
  rfl

/-- The arguments of a call are those of the text up to the partner of its parenthesis. -/
theorem hasArguments_append {pre r inside rest : List Char}
    (h : closeParen? r = some (inside, rest)) :
    HasArguments (pre ++ '(' :: r) (byteSize pre) (arguments inside) := by
  obtain ⟨ts, rfl, reads, -⟩ := closeParen?_eq_some_iff.1 h
  have whole : pre ++ '(' :: r = (pre ++ ['(']) ++ ts.flatMap Token.text ++ ')' :: rest := by
    rw [reads.text]
    simp
  have cut := Checked.slice_append whole
  rw [byteSize_append (pre ++ ['(']), Checked.byteSize_ascii (c := '(') (by decide)] at cut
  exact ⟨_, _, by rw [Checked.matchingParen?_append rfl, h]; rfl, cut, rfl⟩

/-- A closed call is read from its arguments. -/
theorem HasArguments.readCall {pre r : List Char} {args : List (List Char)}
    (h : HasArguments (pre ++ '(' :: r) (byteSize pre) args) (f : Function) :
    f.readCall r = f.read args := by
  cases hclose : closeParen? r with
  | none =>
    obtain ⟨close, inside, partner, -⟩ := h
    rw [Checked.matchingParen?_append rfl, hclose] at partner
    cases partner
  | some p => rw [Function.readCall, hclose, h.unique (hasArguments_append hclose)]

/-- **Every call meets its fate.** It is unbalanced exactly if its parenthesis has no partner. Any
other call is told by its arguments alone: where they end before the last role that needs a
literal, the next role is missing; else the leftmost that is not the literal it has to be decides;
else the message says what stands at the places of the roles. Two calls whose arguments differ
only in what counts say, or past the last role, come to the same. -/
theorem readCall_fate {f : Function} (listed : f ∈ Function.all) (pre r : List Char) :
    Checked.extractCall (pre ++ '(' :: r) f (byteSize pre) = .ok (f.readCall r) ∧
      (∀ outcome, f.readCall r = outcome ↔ Fate f (pre ++ '(' :: r) (byteSize pre) outcome) ∧
      IsPastLast f.roles f.required ∧
      ∀ pre' r' args args', HasArguments (pre ++ '(' :: r) (byteSize pre) args →
        HasArguments (pre' ++ '(' :: r') (byteSize pre') args' → AgreeOn f.roles args args' →
          f.readCall r = f.readCall r' := by
  refine ⟨Checked.extractCall_eq listed rfl, ?_, isPastLast_required listed, ?_⟩
  · intro outcome
    constructor
    · rintro rfl
      cases hclose : closeParen? r with
      | none =>
        rw [Function.readCall, hclose]
        exact .unbalanced (by rw [Checked.matchingParen?_append rfl, hclose]; rfl)
      | some p =>
        have between : HasArguments (pre ++ '(' :: r) (byteSize pre) (arguments p.1) :=
          hasArguments_append hclose
        rw [between.readCall]
        exact .closed between (verdict_read listed _)
    · intro fate
      cases fate with
      | unbalanced none =>
        rw [Checked.matchingParen?_append rfl, Option.map_eq_none_iff] at none
        rw [Function.readCall, none]
      | closed between verdict =>
        rw [between.readCall]
        exact (read_eq_iff listed).2 verdict
  · intro pre' r' args args' between between' agree
    rw [between.readCall, between'.readCall]
    exact (read_eq_iff listed).2 (Verdict.congr listed agree.symm (verdict_read listed args'))

/-- A number and a further argument that hold parentheses, commas and quotation marks. -/
theorem readCall_fate_nx :
    let f : Function := ⟨"_nx", [.text, .plural, .count, .context, .domain]⟩
    let pre := "_nx".toList
    let r := "'a', ( \"b\\\"\" ), f( ',)' ), 'c', 'd', [ 1, 2 ] );".toList
    let r' := "'a', ( \"b\\\"\" ), $n, 'c', 'd')".toList
    let args := ["'a'", "( \"b\\\"\" )", "f( ',)' )", "'c'", "'d'", "[ 1, 2 ]"].map String.toList
    let args' := ["'a'", "( \"b\\\"\" )", "$n", "'c'", "'d'"].map String.toList
    f ∈ Function.all ∧ HasArguments (pre ++ '(' :: r) (byteSize pre) args ∧
      HasArguments (pre ++ '(' :: r') (byteSize pre) args' ∧ AgreeOn f.roles args args' ∧
      Fate f (pre ++ '(' :: r) (byteSize pre) (.ok ⟨"a", some "b\"", some "c", some "d"⟩) ∧
      f.readCall r = f.readCall r' := by
  intro f pre r r' args args'
  have listed : f ∈ Function.all := by decide
  have between : HasArguments (pre ++ '(' :: r) (byteSize pre) args := by
    have closed : (closeParen? r).map (fun p => arguments p.1) = some args := by decide +kernel
    obtain ⟨⟨inside, rest⟩, hclose, hargs⟩ := Option.map_eq_some_iff.1 closed
    exact hargs ▸ hasArguments_append hclose
  have between' : HasArguments (pre ++ '(' :: r') (byteSize pre) args' := by
    have closed : (closeParen? r').map (fun p => arguments p.1) = some args' := by decide +kernel
    obtain ⟨⟨inside, rest⟩, hclose, hargs⟩ := Option.map_eq_some_iff.1 closed
    exact hargs ▸ hasArguments_append hclose
  have agree : AgreeOn f.roles args args' := by
    intro i role place
    match i with
    | 0 | 1 | 2 | 3 | 4 =>
      cases place
      decide
    | i + 5 => cases place
  have outcome : f.readCall r = .ok ⟨"a", some "b\"", some "c", some "d"⟩ := by
    rw [between.readCall]
    decide +kernel
  exact ⟨listed, between, between', agree, ((readCall_fate listed pre r).2.1 _).1 outcome,
    (readCall_fate listed pre r).2.2.2 pre r' args args' between between' agree⟩

end PotExtract
