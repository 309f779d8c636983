import PotExtract.Proofs.Call.Roles
import PotExtract.Proofs.Call.Written
import PotExtract.Proofs.Source.Gaps
import PotExtract.Proofs.Source.Lookahead
import PotExtract.Proofs.Source.Unwrap

/-!
# Comments between the parentheses of a call

A comment can be replaced by a blank. Outside of arguments that changes
nothing. Within an argument it changes what a count or a domain says, and no
other; but a text, a plural or a context with a comment in it is no literal,
so such a call has no message, whatever it has with the blank.

* `readRoles_replace`, `Function.texts_replace`: an argument that needs no
  literal, replaced;
* `Function.read_error`: an argument that needs to be a literal and is none;
* `not_isLiteral_of_comment`: an argument with a comment in it is no literal;
* `reads_blank`: the tokens with a blank in place of a comment;
* `blank_comment`: what a call says with the blank.
-/

namespace PotExtract

open Source

/-! ## Arguments by their roles -/

/-- What a message says, the domain apart. -/
def Message.texts (message : Message) : String × Option String × Option String :=
  (message.text, message.plural, message.context)

/-- The values of the roles that need a literal. -/
def literalValues (values : List (Role × String)) : List (Role × String) :=
  values.filter fun value => value.1.needsLiteral

/-- What a message of some values says, the domain apart. -/
def textsOf (values : List (Role × String)) :
    Except SkipReason (String × Option String × Option String) :=
  match values.lookup .text with
  | none => .error (.missing .text)
  | some text => .ok (text, values.lookup .plural, values.lookup .context)

theorem lookup_literalValues {role : Role} (h : role.needsLiteral = true)
    (values : List (Role × String)) : (literalValues values).lookup role = values.lookup role := by
  induction values with
  | nil => rfl
  | cons value values ih =>
    obtain ⟨other, text⟩ := value
    rw [literalValues] at ih ⊢
    cases hother : other.needsLiteral with
    | true =>
      simp [hother, List.lookup_cons, ih]
    | false =>
      have ne : (role == other) = false := by
        rw [beq_eq_false_iff_ne]
        rintro rfl
        rw [h] at hother
        cases hother
      rw [List.filter_cons_of_neg (by simp [hother]), ih, List.lookup_cons, ne]

theorem textsOf_literalValues (values : List (Role × String)) :
    textsOf (literalValues values) = textsOf values := by
  have text : Role.text.needsLiteral = true := rfl
  have plural : Role.plural.needsLiteral = true := rfl
  have context : Role.context.needsLiteral = true := rfl
  simp only [textsOf, lookup_literalValues text, lookup_literalValues plural,
    lookup_literalValues context]

/-- The texts of an argument list depend on the roles that need a literal, and on how many
arguments there are. -/
theorem Function.texts_read (f : Function) (args : List (List Char)) :
    (f.read args).map Message.texts =
      if args.length < f.required then
        .error (.missing (f.roles.getD args.length .text))
      else ((readRoles f.roles args).map literalValues).bind textsOf := by
  rw [Function.read]
  split
  · rfl
  · cases readRoles f.roles args with
    | error reason => rfl
    | ok values =>
      simp only [bind, Except.map, Except.bind, textsOf_literalValues]
      rw [textsOf]
      cases values.lookup .text <;> rfl

theorem Role.exists_read {role : Role} (h : role.needsLiteral = false) (arg : List Char) :
    ∃ value, role.read arg = .ok value := by
  cases hread : role.read arg with
  | ok value => exact ⟨value, rfl⟩
  | error reason =>
    rw [(Role.read_eq_error_iff.1 hread).1] at h
    cases h

theorem map_readRoles_cons (role : Role) (roles : List Role) (arg : List Char)
    (args : List (List Char)) :
    (readRoles (role :: roles) (arg :: args)).map literalValues =
      (role.read arg).bind fun value =>
        ((readRoles roles args).map literalValues).map (literalValues [(role, value)] ++ ·) := by
  rw [readRoles]
  cases role.read arg with
  | error reason => rfl
  | ok value =>
    cases readRoles roles args with
    | error reason => rfl
    | ok values =>
      exact congrArg Except.ok (List.filter_append [(role, value)] values)

theorem readRoles_replace {roles : List Role} {before : List (List Char)}
    (h : ∀ role ∈ roles[before.length]?, role.needsLiteral = false) (a b : List Char)
    (after : List (List Char)) :
    (readRoles roles (before ++ a :: after)).map literalValues =
      (readRoles roles (before ++ b :: after)).map literalValues := by
  induction roles generalizing before with
  | nil => rfl
  | cons role roles ih =>
    cases before with
    | nil =>
      have dropped : role.needsLiteral = false := h role rfl
      obtain ⟨va, hva⟩ := Role.exists_read dropped a
      obtain ⟨vb, hvb⟩ := Role.exists_read dropped b
      simp [map_readRoles_cons, hva, hvb, Except.bind, literalValues, dropped]
    | cons c before =>
      rw [List.cons_append, List.cons_append, map_readRoles_cons, map_readRoles_cons, ih h]

theorem Function.texts_replace {f : Function} {before : List (List Char)}
    (h : ∀ role ∈ f.roles[before.length]?, role.needsLiteral = false) (a b : List Char)
    (after : List (List Char)) :
    (f.read (before ++ a :: after)).map Message.texts =
      (f.read (before ++ b :: after)).map Message.texts := by
  rw [f.texts_read, f.texts_read, readRoles_replace h a b]
  simp only [List.length_append, List.length_cons]

/-- An argument that has to be a literal and is none leaves the call without a message. -/
theorem Function.read_error {f : Function} {before after : List (List Char)} {arg : List Char}
    (none : Literal.parse? (unwrap arg) = none) {role : Role}
    (hrole : role ∈ f.roles[before.length]?) (needs : role.needsLiteral = true) :
    ∃ reason, f.read (before ++ arg :: after) = .error reason := by
  cases hread : f.read (before ++ arg :: after) with
  | error reason => exact ⟨reason, rfl⟩
  | ok message =>
    rw [Function.read] at hread
    split at hread
    · cases hread
    · cases hvalues : readRoles f.roles (before ++ arg :: after) with
      | error reason => simp [hvalues, bind, Except.bind] at hread
      | ok values =>
        have here : NoLiteralAt f.roles (before ++ arg :: after) before.length role :=
          ⟨hrole, needs, arg, by simp, none⟩
        exact absurd here (not_noLiteralAt_of_ok hvalues _ role)

/-! ## Comments in arguments -/

theorem Function.readCall_of_reads (f : Function) {s rest : List Char} {ts : List Token}
    (h : Reads s ts (')' :: rest)) (closed : nest 0 ts = some 0) :
    f.readCall s = f.read (argumentsOf (pieces 0 ts)) := by
  have first : ∃ c r, ')' :: rest = c :: r ∧ c ∉ ['\n', '?', '>', '['] := ⟨_, _, rfl, by decide⟩
  have alone : Reads (ts.flatMap Token.text ++ []) ts [] := h.replace ⟨first, by simp⟩
  have inside : closeParen? s = some (ts.flatMap Token.text, rest) :=
    closeParen?_eq_some_iff.2 ⟨ts, rfl, h, closed⟩
  have whole : tokens (ts.flatMap Token.text) = ts := by
    simpa [tokens_nil] using alone.tokens
  simp only [Function.readCall, inside, arguments_eq, whole]

theorem not_isLiteral_of_comment {s rest text : List Char} {us vs before after : List Token}
    (h : Reads s (us ++ .comment text :: vs) rest) (hbefore : before <:+ us)
    (hafter : after <+: vs) :
    Literal.parse? (unwrap ((before ++ .comment text :: after).flatMap Token.text)) = none := by
  obtain ⟨us, rfl⟩ := hbefore
  obtain ⟨vs, rfl⟩ := hafter
  have split : us ++ before ++ .comment text :: (after ++ vs) =
      us ++ ((before ++ .comment text :: after) ++ vs) := by simp
  rw [split, Reads.append_iff] at h
  obtain ⟨m, -, h⟩ := h
  obtain ⟨n, arg, -⟩ := Reads.append_iff.1 h
  rw [Option.eq_none_iff_forall_ne_some]
  intro literal hparse
  -- The argument can be read in one way only, and as a literal it is read without comments.
  obtain ⟨ts, free, reads⟩ := reads_of_parse?_unwrap hparse n
  rw [← arg.text] at reads
  rw [← arg.unique reads] at free
  exact free text (by simp)

/-- A call with a comment in it is read from the same tokens as with a blank in its place, but
for this one. -/
theorem reads_blank {s rest text : List Char} {us vs : List Token}
    (h : Reads s (us ++ .comment text :: vs) rest) :
    Reads (us.flatMap Token.text ++ ' ' :: (vs.flatMap Token.text ++ rest))
      (us ++ .char ' ' :: vs) rest := by
  obtain ⟨m, first, second⟩ := Reads.append_iff.1 h
  obtain ⟨n, here, more⟩ := Reads.cons_iff.1 second
  obtain ⟨c, r, hc, opens⟩ := exists_cons_of_comment here
  have swap : Replaces m (' ' :: (vs.flatMap Token.text ++ rest)) := by
    refine ⟨⟨c, r ++ n, ?_, ?_⟩, by simp⟩
    · rw [← text_next? here, text_comment, hc, List.cons_append]
    · rcases opens with rfl | rfl <;> decide
  refine (first.replace swap).append (.cons rfl ?_)
  rwa [← more.text]

/-! ## Calls with a comment -/

theorem callAt?_replace {s rest : List Char} {f : Function} (h : callAt? s = some (f, rest)) :
    ∃ head, s = head ++ '(' :: rest ∧
      ∀ other, callAt? (head ++ '(' :: other) = some (f, other) := by
  obtain ⟨listed, name, opens⟩ := callAt?_eq_some.1 h
  have word : isWordChar '(' = false := rfl
  have space : isSpace '(' = false := rfl
  have whole := List.takeWhile_append_dropWhile (p := isSpace) (l := s.dropWhile isWordChar)
  rw [opens] at whole
  have split := List.takeWhile_append_dropWhile (p := isWordChar) (l := s)
  rw [← whole, ← List.append_assoc] at split
  refine ⟨_, split.symm, fun other => ?_⟩
  rw [← split] at name opens
  rw [takeWhile_append_stop word] at name
  rw [dropWhile_append_stop word, dropWhile_append_stop space] at opens
  rw [callAt?_eq_some, takeWhile_append_stop word, dropWhile_append_stop word,
    dropWhile_append_stop space]
  refine ⟨listed, name, ?_⟩
  rw [List.append_left_eq_self.1 opens, List.nil_append]

/-- A call put in another text by what follows its parenthesis. -/
theorem mem_callSites_replace {s : List Char} {site : CallSite} (h : site ∈ callSites s) :
    ∃ opening, s = opening ++ site.rest ∧
      ∀ other, { site with rest := other } ∈ callSites (opening ++ other) := by
  obtain ⟨pre, suf, rfl, hoffset, hfresh, hcall⟩ := mem_callSitesFrom.1 h
  obtain ⟨head, rfl, replaced⟩ := callAt?_replace hcall
  refine ⟨pre ++ (head ++ ['(']), by simp, fun other => mem_callSitesFrom.2 ?_⟩
  exact ⟨pre, head ++ '(' :: other, by simp, hoffset, hfresh, replaced other⟩

/-- **A comment in a call counts as a blank, unless it stands within a text.** The call is still
there when a blank takes the comment's place, and if the comment stands outside of arguments it
is read as before. Texts, or the reason why there are none, stay the same wherever the argument
that is being read needs no literal. Within one that does, the comment leaves the call without a
message. -/
theorem blank_comment {s : List Char} {site : CallSite} (hsite : site ∈ callSites s)
    {us vs : List Token} {comment rest : List Char}
    (hclose : insideParens 0 [] site.rest = some (us ++ .comment comment :: vs, rest)) :
    let before := us.flatMap Token.text
    let after := vs.flatMap Token.text ++ ')' :: rest
    let blanked : CallSite := { site with rest := before ++ ' ' :: after }
    let role? := site.function.roles[(finished us).length]?
    ∃ opening,
      s = opening ++ (before ++ (comment ++ after)) ∧
      blanked ∈ callSites (opening ++ (before ++ ' ' :: after)) ∧
      (¬ Amid us vs →
        blanked.function.readCall blanked.rest = site.function.readCall site.rest) ∧
      ((∀ role ∈ role?, role.needsLiteral = false) →
        (blanked.function.readCall blanked.rest).map Message.texts =
          (site.function.readCall site.rest).map Message.texts) ∧
      (Amid us vs → (∃ role ∈ role?, role.needsLiteral = true) →
        ∃ reason, site.function.readCall site.rest = .error reason) := by
  intro before after blanked role?
  obtain ⟨ts, hts, hreads, hnest⟩ := insideParens_eq_some_iff.1 hclose
  rw [List.reverse_nil, List.nil_append] at hts
  subst hts
  have blank : (Token.char ' ').isSignificant = false := rfl
  have silent : (Token.comment comment).isSignificant = false := rfl
  have told : site.function.readCall site.rest =
      site.function.read (argumentsOf (pieces 0 (us ++ .comment comment :: vs))) :=
    site.function.readCall_of_reads hreads hnest
  have toldBlanked : blanked.function.readCall blanked.rest =
      site.function.read (argumentsOf (pieces 0 (us ++ .char ' ' :: vs))) := by
    apply site.function.readCall_of_reads (reads_blank hreads)
    rw [← hnest]
    exact nest_replace rfl rfl 0 us vs
  have outside (h : ¬ Amid us vs) :
      blanked.function.readCall blanked.rest = site.function.readCall site.rest := by
    rw [told, toldBlanked, argumentsOf_outside h blank silent]
  have place : ((finished us).map span).length = (finished us).length := List.length_map _
  obtain ⟨opening, hopening, there⟩ := mem_callSites_replace hsite
  refine ⟨opening, ?_, there _, outside, ?_, ?_⟩
  · rw [hopening, hreads.text]
    simp [before, after]
  · intro hrole
    by_cases amid : Amid us vs
    · rw [told, toldBlanked, argumentsOf_amid amid blank, argumentsOf_amid amid silent]
      exact Function.texts_replace (by rwa [place]) _ _ _
    · rw [outside amid]
  · rintro amid ⟨role, hrole, needs⟩
    obtain ⟨first, last, hfirst, hlast, hspan⟩ := exists_infix_of_amid amid (.comment comment)
    have none := not_isLiteral_of_comment hreads hfirst hlast
    rw [← hspan] at none
    rw [told, argumentsOf_amid amid silent]
    exact Function.read_error none (by rwa [place]) needs

theorem blank_comment_domain :
    let site : CallSite := ⟨0, .plain "__", "'a', f(/**/))".toList⟩
    site ∈ callSites "__('a', f(/**/))".toList ∧
      insideParens 0 [] site.rest = some ([.literal '\'' ['a'], .char ',', .char ' ', .char 'f',
        .char '('] ++ .comment "/**/".toList :: [.char ')'], []) ∧
      (site.function.readCall "'a', f( ))".toList).map Message.texts =
        (site.function.readCall site.rest).map Message.texts := by
  intro site
  have hsite : site ∈ callSites "__('a', f(/**/))".toList := by decide +kernel
  have hclose : insideParens 0 [] site.rest = some ([.literal '\'' ['a'], .char ',', .char ' ',
      .char 'f', .char '('] ++ .comment "/**/".toList :: [.char ')'], []) := by
    decide +kernel
  obtain ⟨-, -, -, -, same, -⟩ := blank_comment hsite hclose
  have domain : (Function.plain "__").roles[(finished [.literal '\'' ['a'], .char ',', .char ' ',
      .char 'f', .char '(']).length]? = some .domain := by
    decide
  refine ⟨hsite, hclose, same ?_⟩
  rintro role hrole
  obtain rfl : .domain = role := Option.some.inj (domain.symm.trans hrole)
  rfl

/-- In the parentheses around a text, a comment does not count as a blank. -/
theorem blank_comment_wrapped :
    let site : CallSite := ⟨0, .plain "__", " ( /* c */ 'a' ) );".toList⟩
    site ∈ callSites "__( ( /* c */ 'a' ) );".toList ∧
      insideParens 0 [] site.rest = some ([.char ' ', .char '(', .char ' '] ++
        .comment "/* c */".toList :: [.char ' ', .literal '\'' ['a'], .char ' ', .char ')',
          .char ' '], [';']) ∧
      extract "a" "__( ( /* c */ 'a' ) );".toList =
        ⟨[], [⟨⟨"a", 1⟩, .plain "__", .notLiteral .text⟩]⟩ ∧
      extract "a" "__( (   'a' ) );".toList =
        ⟨[⟨⟨"a", none, none, none⟩, ⟨"a", 1⟩⟩], []⟩ := by
  refine ⟨?_, ?_, ?_, ?_⟩ <;> decide +kernel

end PotExtract
