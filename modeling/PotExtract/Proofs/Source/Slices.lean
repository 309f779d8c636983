import PotExtract.Call.Record
import PotExtract.Proofs.Source.Nesting
import PotExtract.Proofs.Source.Separators

/-!
# The text between two parentheses

What stands between a parenthesis and its partner is cut out of the text and
read again, for the arguments. The cut takes away what the last tokens could
see of the text after them. They are the same all the same.

* `HasEnd`: a comment ends before the text does;
* `Passes.tokens_eq`: the tokens that the search passed are those of the cut;
* `nest_of_mem_pieces`: without brackets, each piece has its parentheses
  closed;
* `Reads.tokens_span`: an argument is read alone as it is in the list;
* `slice_reads_alone`: all that the second reading has in common with the
  first.
-/

namespace PotExtract.Source

open Checked (dropBytes_append slice slice_append)

/-- The token that is read at a byte offset. -/
def tokenAt? (offset : Nat) (s : List Char) : Option Token :=
  ((dropBytes offset s).bind next?).map Prod.fst

theorem tokenAt?_append {s rest : List Char} {t : Token} (pre : List Char)
    (h : next? s = some (t, rest)) : tokenAt? (byteSize pre) (pre ++ s) = some t := by
  rw [tokenAt?, dropBytes_append, Option.bind_some, h]
  rfl

/-! ## Comments that end -/

/-- A comment ends before the text does: a block comment with its closing mark, and any other
before something that ends the line. -/
def HasEnd (comment after : List Char) : Prop :=
  if ['/', '*'] <+: comment then ∃ body, comment = '/' :: '*' :: (body ++ ['*', '/'])
  else endsLine after = true

/-- A comment that something of its own text ends has an end without what follows. -/
theorem hasEnd_of_next? {s comment r x : List Char} (ne : r ++ x ≠ [])
    (own : endsLine (r ++ x) = true → endsLine r = true)
    (h : next? s = some (.comment comment, r ++ x)) : HasEnd comment r := by
  have line {mark m : List Char} (other : ¬ ['/', '*'] <+: comment)
      (h : lineComment mark m = (.comment comment, r ++ x)) : HasEnd comment r := by
    rw [HasEnd, if_neg other]
    simp only [lineComment, Prod.mk.injEq] at h
    have stops := stop_splitBefore (h.2 ▸ ne)
    rw [h.2] at stops
    exact own stops
  cases next?_eq_some_iff.1 h with
  | block h =>
    obtain ⟨body, rfl, -⟩ := blockComment_replace [] ne h
    rw [HasEnd, if_pos ⟨body ++ ['*', '/'], rfl⟩]
    exact ⟨body, rfl⟩
  | slashes h =>
    refine line ?_ h
    obtain rfl := Token.comment.inj (Prod.mk.inj h).1
    simp [List.cons_prefix_cons]
  | hash _ h =>
    refine line ?_ h
    obtain rfl := Token.comment.inj (Prod.mk.inj h).1
    simp [List.cons_prefix_cons]
  | @quote c m _ hq h => cases hr : closeQuote c [] m <;> simp [quoted, hr] at h

/-! ## The cut -/

/-- What a closing parenthesis begins may be missing. -/
theorem replaces_close (after : List Char) : Replaces (')' :: after) [] :=
  ⟨⟨')', after, rfl, by decide⟩, by simp⟩

namespace Passes

variable {text : List Char} {opens closes : Nat} {ts us vs : List Token} {t : Token}

theorem reads_slice (h : Passes text opens closes ts) :
    Reads (ts.flatMap Token.text) ts [] := by
  obtain ⟨_, _, after, _, _, reads, -⟩ := passes_iff.1 h
  simpa using reads.replace (replaces_close after)

/-- The tokens that a search passes are those of the text that it passes. -/
theorem tokens_eq (h : Passes text opens closes ts) : tokens (ts.flatMap Token.text) = ts := by
  rw [h.reads_slice.tokens, tokens_nil, List.append_nil]

theorem slice_eq (h : Passes text opens closes ts) :
    slice text (opens + 1) closes = .ok (ts.flatMap Token.text) := by
  obtain ⟨before, r, after, rfl, rfl, reads, -, rfl⟩ := passes_iff.1 h
  have whole : before ++ '(' :: r = (before ++ ['(']) ++ ts.flatMap Token.text ++ ')' :: after := by
    rw [reads.text]
    simp
  have cut := slice_append whole
  rwa [byteSize_append, byteSize_append, Checked.byteSize_ascii (c := '(') (by decide)] at cut

/-- Each token is read where it stands, in the text and in the cut. -/
theorem tokenAt?_eq (h : Passes text opens closes (us ++ t :: vs)) :
    tokenAt? (placeAfter opens us) text = some t ∧
      tokenAt? (byteSize (us.flatMap Token.text))
        ((us ++ t :: vs).flatMap Token.text) = some t := by
  obtain ⟨before, r, after, rfl, rfl, reads, -⟩ := passes_iff.1 h
  obtain ⟨m, first, rest⟩ := Reads.append_iff.1 reads
  obtain ⟨n, here, -⟩ := Reads.cons_iff.1 rest
  obtain ⟨k, -, alone⟩ := Reads.append_iff.1 h.reads_slice
  obtain ⟨l, here', -⟩ := Reads.cons_iff.1 alone
  constructor
  · have whole : before ++ '(' :: r = (before ++ '(' :: us.flatMap Token.text) ++ m := by
      rw [first.text]
      simp
    rw [whole, ← byteSize_placeAfter]
    exact tokenAt?_append _ here
  · have rest := alone.text
    rw [List.append_nil] at rest
    rw [List.flatMap_append, ← rest]
    exact tokenAt?_append _ here'

theorem hasEnd {comment : List Char} (h : Passes text opens closes (us ++ .comment comment :: vs)) :
    HasEnd comment (vs.flatMap Token.text) := by
  obtain ⟨_, _, after, _, _, reads, -⟩ := passes_iff.1 h
  obtain ⟨m, -, rest⟩ := Reads.append_iff.1 reads
  obtain ⟨n, here, more⟩ := Reads.cons_iff.1 rest
  rw [more.text] at here
  exact hasEnd_of_next? ((replaces_close after).ne_nil _)
    (endsLine_of_append (replaces_close after)) here

theorem readCall_eq (h : Passes text opens closes ts) :
    ∃ r, dropBytes (opens + 1) text = some r ∧
      ∀ f : Function, f.readCall r = f.read (arguments (ts.flatMap Token.text)) := by
  obtain ⟨before, r, after, rfl, rfl, reads, closed, -⟩ := passes_iff.1 h
  refine ⟨r, ?_, fun f => ?_⟩
  · have past := dropBytes_append (before ++ ['(']) r
    rwa [Checked.byteSize_ascii (by decide), List.append_assoc] at past
  · rw [Function.readCall, closeParen?_eq_some_iff.2 ⟨ts, rfl, reads, closed⟩]

end Passes

/-! ## Without brackets -/

section
variable {depth d : Nat} {t : Token} {ts us : List Token}

/-- Where parentheses alone are counted, a token changes the depth as it does where brackets
are. -/
theorem nest_step (no : t ≠ .char '[' ∧ t ≠ .char ']') (h : nest depth (t :: ts) = some d)
    (us : List Token) : nest depth (t :: us) = nest (t.depthAfter depth) us := by
  by_cases opens : t = .char '('
  · rw [opens]
    rfl
  · by_cases closes : t = .char ')'
    · rw [closes] at h ⊢
      cases depth with
      | zero => cases h
      | succ outer => rfl
    · have same : t.depthAfter depth = depth := by
        cases t with
        | comment | literal | unclosed => rfl
        | char c => simp_all [Token.depthAfter]
      rw [nest_cons (fun text unclosed => by rw [unclosed] at h; cases h) opens closes, same]

theorem foldl_depthAfter (no : ∀ t ∈ ts, t ≠ .char '[' ∧ t ≠ .char ']')
    (h : nest depth ts = some d) : ts.foldl Token.depthAfter depth = d := by
  induction ts generalizing depth with
  | nil => exact Option.some.inj h
  | cons t ts ih =>
    obtain ⟨first, others⟩ := List.forall_mem_cons.1 no
    rw [nest_step first h] at h
    exact ih others h

/-- In each piece of a list in which all parentheses are closed, they are closed. The first one
closes those that were open before it. -/
theorem nest_pieces (no : ∀ t ∈ ts, t ≠ .char '[' ∧ t ≠ .char ']')
    (h : nest depth ts = some 0) :
    ∃ p ps, pieces depth ts = p :: ps ∧ nest depth p = some 0 ∧ ∀ q ∈ ps, nest 0 q = some 0 := by
  induction ts generalizing depth with
  | nil => exact ⟨[], [], rfl, h, by simp⟩
  | cons t ts ih =>
    obtain ⟨first, others⟩ := List.forall_mem_cons.1 no
    have step := nest_step first h
    rw [step] at h
    obtain ⟨p, ps, cut, hp, hps⟩ := ih others h
    rw [pieces]
    split
    · rename_i sep
      obtain ⟨rfl, rfl⟩ := sep
      exact ⟨[], pieces 0 ts, rfl, rfl, cut ▸ List.forall_mem_cons.2 ⟨hp, hps⟩⟩
    · rw [cut]
      exact ⟨t :: p, ps, rfl, (step p).trans hp, hps⟩

theorem nest_of_mem_pieces {p : List Token} (no : ∀ t ∈ ts, t ≠ .char '[' ∧ t ≠ .char ']')
    (h : nest 0 ts = some 0) (hp : p ∈ pieces 0 ts) : nest 0 p = some 0 := by
  obtain ⟨q, qs, cut, hq, hqs⟩ := nest_pieces no h
  rw [cut] at hp
  rcases List.mem_cons.1 hp with rfl | later
  · exact hq
  · exact hqs p later

/-- Blanks and comments around tokens do not change their depth. -/
theorem nest_trim {before after : List Token} (hbefore : ∀ t ∈ before, t.isSignificant = false)
    (hafter : ∀ t ∈ after, t.isSignificant = false) (depth : Nat) :
    nest depth (before ++ (ts ++ after)) = nest depth ts := by
  have passed (inner : Nat) : nest inner after = some inner := by
    have skip := nest_flat (fun t ht => isFlat_of_not_isSignificant (hafter t ht)) inner []
    rwa [List.append_nil] at skip
  rw [nest_flat fun t ht => isFlat_of_not_isSignificant (hbefore t ht), nest_append,
    show (nest · after) = some from funext passed, Option.bind_fun_some]

end

/-! ## Arguments alone -/

theorem intercalate_pieces (depth : Nat) (ts : List Token) :
    [.char ','].intercalate (pieces depth ts) = ts := by
  induction ts generalizing depth with
  | nil => rfl
  | cons t ts ih =>
    rw [pieces]
    split
    · rename_i sep
      obtain ⟨p, ps, cut⟩ := List.exists_cons_of_ne_nil (pieces_ne_nil 0 ts)
      have here := ih 0
      rw [cut] at here ⊢
      rw [List.intercalate_cons_cons, here, sep.2]
      rfl
    · have here := ih (t.depthAfter depth)
      obtain ⟨p, ps, cut⟩ := List.exists_cons_of_ne_nil (pieces_ne_nil (t.depthAfter depth) ts)
      rw [cut] at here ⊢
      rw [List.modifyHead_cons]
      cases ps with
      | nil => simpa using here
      | cons q ps => simpa [List.intercalate_cons_cons] using here

theorem exists_of_mem_intercalate {α : Type} {x : α} {p : List α} {ps : List (List α)}
    (hp : p ∈ ps) :
    ∃ us vs, [x].intercalate ps = us ++ (p ++ vs) ∧ ∀ y ∈ vs.head?, y = x := by
  induction ps with
  | nil => cases hp
  | cons q ps ih =>
    cases ps with
    | nil =>
      obtain rfl := List.mem_singleton.1 hp
      exact ⟨[], [], by simp, by simp⟩
    | cons r ps =>
      rw [List.intercalate_cons_cons]
      rcases List.mem_cons.1 hp with rfl | later
      · exact ⟨[], [x] ++ [x].intercalate (r :: ps), by simp, by simp⟩
      · obtain ⟨us, vs, whole, head⟩ := ih later
        exact ⟨q ++ [x] ++ us, vs, by simp [whole], head⟩

theorem exists_of_mem_argumentsOf {arg : List Char} {ps : List (List Token)}
    (h : arg ∈ argumentsOf ps) : ∃ p ∈ ps, arg = span p := by
  have ne : ps ≠ [] := by
    rintro rfl
    cases h
  rw [argumentsOf_eq_ite ne] at h
  obtain ⟨p, hp, rfl⟩ := List.mem_map.1 h
  refine ⟨p, ?_, rfl⟩
  split_ifs at hp
  · exact hp
  · exact List.dropLast_subset ps hp

/-- What comes after a piece, or after what it says, goes on with none of its tokens. -/
theorem head_not_mem {t : Token} {s m : List Char} (h : next? s = some (t, m))
    (ht : t.isSignificant = false ∨ t = .char ',') : ∀ c ∈ s.head?, c ∉ ['>', '['] := by
  rw [← text_next? h]
  rcases ht with silent | rfl
  · cases t with
    | comment text =>
      obtain ⟨c, r, rfl, rfl | rfl⟩ := exists_cons_of_comment h <;> simp
    | char c =>
      have blank : isSpace c = true := by simpa [Token.isSignificant] using silent
      simpa using of_isSpace (p := fun c => decide (c ∉ ['>', '['])) (by decide) blank
    | literal | unclosed => cases silent
  · simp

/-- An argument is read alone as it is in the list. -/
theorem Reads.tokens_span {s : List Char} {ts p : List Token} {depth : Nat} (h : Reads s ts [])
    (hp : p ∈ pieces depth ts) :
    ∃ before after, p = before ++ (Source.tokens (span p) ++ after) ∧
      (∀ t ∈ before, t.isSignificant = false) ∧ (∀ t ∈ after, t.isSignificant = false) := by
  obtain ⟨us, vs, whole, next⟩ := exists_of_mem_intercalate (x := .char ',') hp
  rw [intercalate_pieces] at whole
  obtain ⟨before, said, after, rfl, hbefore, hafter, last, hspan⟩ := exists_trim p
  refine ⟨before, after, ?_, hbefore, hafter⟩
  have order : ts = us ++ before ++ (said ++ (after ++ vs)) := by
    rw [whole]
    simp only [List.append_assoc]
  rw [order] at h
  obtain ⟨m, -, more⟩ := Reads.append_iff.1 h
  obtain ⟨x, reads, rest⟩ := Reads.append_iff.1 more
  have follows : ∀ c ∈ x.head?, c ∉ ['>', '['] := by
    rcases hrest : after ++ vs with _ | ⟨t, ws⟩
    · rw [hrest, Reads.nil_iff] at rest
      simp [rest]
    · rw [hrest] at rest
      obtain ⟨n, first, -⟩ := Reads.cons_iff.1 rest
      refine head_not_mem first ?_
      cases after with
      | nil => exact .inr (next t (by rw [List.nil_append] at hrest; simp [hrest]))
      | cons u after =>
        obtain rfl := (List.cons.inj hrest).1
        exact .inl (hafter u List.mem_cons_self)
  have alone := reads.cut follows fun text mem => by cases last _ mem
  rw [hspan, alone.tokens, tokens_nil, List.append_nil]

/-! ## Both readings -/

/-- What stands between a parenthesis and its partner is read alone as the search read it: as the
same tokens at the same places. Its literals are closed and its comments end, and its arguments
are those of the call. -/
structure ReadsAlone (text : List Char) (opens closes : Nat) (inside : List Char)
    (ts : List Token) : Prop where
  passes : Passes text opens closes ts
  slice_eq : slice text (opens + 1) closes = .ok inside
  tokens_eq : tokens inside = ts
  tokenAt?_eq : ∀ us t vs, ts = us ++ t :: vs → tokenAt? (placeAfter opens us) text = some t ∧
    tokenAt? (byteSize (us.flatMap Token.text)) inside = some t
  literals_closed : ∀ literal, .unclosed literal ∉ ts
  comments_end : ∀ us comment vs, ts = us ++ .comment comment :: vs →
    HasEnd comment (vs.flatMap Token.text)
  readCall_eq : ∃ r, dropBytes (opens + 1) text = some r ∧
    ∀ f : Function, f.readCall r = f.read (arguments inside)

/-- The depth that cuts the arguments is that of the parentheses. It is zero before no parenthesis
that closes, and zero in the end, and every argument has its parentheses closed. -/
structure CountsParens (inside : List Char) (ts : List Token) : Prop where
  never_saturates : ∀ us vs, ts = us ++ .char ')' :: vs → 0 < us.foldl Token.depthAfter 0
  ends_at_zero : ts.foldl Token.depthAfter 0 = 0
  arguments_balanced : ∀ arg ∈ arguments inside, IsBalanced (tokens arg)

theorem countsParens_of_nest {ts : List Token} (alone : Reads (ts.flatMap Token.text) ts [])
    (closed : nest 0 ts = some 0) (no : ∀ t ∈ ts, t ≠ .char '[' ∧ t ≠ .char ']') :
    CountsParens (ts.flatMap Token.text) ts := by
  refine ⟨?_, foldl_depthAfter no closed, ?_⟩
  · rintro us vs rfl
    rw [nest_append, Option.bind_eq_some_iff] at closed
    obtain ⟨d, before, after⟩ := closed
    rw [foldl_depthAfter (fun t ht => no t (List.mem_append_left _ ht)) before]
    apply Nat.pos_of_ne_zero
    rintro rfl
    cases after
  · intro arg harg
    rw [arguments_eq, alone.tokens, tokens_nil, List.append_nil] at harg
    obtain ⟨p, hp, rfl⟩ := exists_of_mem_argumentsOf harg
    obtain ⟨before, after, split, hbefore, hafter⟩ := alone.tokens_span hp
    have here := nest_of_mem_pieces no closed hp
    rw [split, nest_trim hbefore hafter] at here
    exact isBalanced_of_nest here

/-- **A call's arguments are read as the search for its end read them.** What stands between a
parenthesis and its partner, cut out and read alone, has the tokens that the search passed. If
none of them is a bracket, both count one depth. -/
theorem slice_reads_alone {text : List Char} {opens closes : Nat}
    (found : matchingParen? text opens = some closes) :
    ∃ inside ts, ReadsAlone text opens closes inside ts ∧
      (.char '[' ∉ ts → .char ']' ∉ ts → CountsParens inside ts) := by
  obtain ⟨ts, h⟩ := matchingParen?_eq_some_iff.1 found
  obtain ⟨_, _, _, _, _, _, closed, _⟩ := passes_iff.1 h
  refine ⟨ts.flatMap Token.text, ts, ?_, fun noOpen noClose => ?_⟩
  · refine ⟨h, h.slice_eq, h.tokens_eq, ?_, (nest_eq_some_iff.1 closed).1, ?_, h.readCall_eq⟩
    · rintro us t vs rfl
      exact h.tokenAt?_eq
    · rintro us comment vs rfl
      exact h.hasEnd
  · exact countsParens_of_nest h.reads_slice closed fun t ht =>
      ⟨ne_of_mem_of_not_mem ht noOpen, ne_of_mem_of_not_mem ht noClose⟩

/-- A call without brackets, with a slash before its end and with marks in a literal and in
comments. -/
theorem slice_reads_alone_marks :
    let text := "f(g(')'), /* ( */ $a # ?\n, 1 /)?>".toList
    matchingParen? text 1 = some 30 ∧
      ∃ inside ts, ReadsAlone text 1 30 inside ts ∧ CountsParens inside ts := by
  intro text
  have found : matchingParen? text 1 = some 30 := by decide +kernel
  obtain ⟨inside, ts, alone, counts⟩ := slice_reads_alone found
  have cut : (slice text 2 30).toOption = some "g(')'), /* ( */ $a # ?\n, 1 /".toList := by
    decide +kernel
  rw [alone.slice_eq] at cut
  obtain rfl : inside = _ := Option.some.inj cut
  have brackets : .char '[' ∉ ts ∧ .char ']' ∉ ts := by
    rw [← alone.tokens_eq]
    decide +kernel
  exact ⟨found, _, ts, alone, counts brackets.1 brackets.2⟩

end PotExtract.Source
