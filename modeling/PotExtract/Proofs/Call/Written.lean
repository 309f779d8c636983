import PotExtract.Proofs.Call.Neighbours
import PotExtract.Proofs.Source.Written

/-!
# Calls as they are written

A call written out from its function and its arguments, with blanks and
comments wherever they may stand, is read back as it was meant.

* `WrittenCall`: a call and its text;
* `WrittenCall.Said`: a message says what was written;
* `WrittenCall.read_arguments`: the arguments give such a message;
* `extract_written`: the call gives one record, whatever is around it.
-/

namespace PotExtract

open Source

/-- An operand is of the kind that a role asks for. Past the last role it is any literal. -/
def suits : Option Role → Operand → Bool
  | some role, .quoted _ _ _ => role.needsLiteral
  | some role, .word _ _ _ => !role.needsLiteral
  | some role, .literal _ _ _ => role == .domain
  | none, .literal _ _ _ => true
  | none, _ => false

/-- A call as it is written. -/
structure WrittenCall where
  function : Function
  listed : function ∈ Function.all
  /-- What stands between the name and the parenthesis. -/
  blanks : Blanks
  arguments : ArgumentList
  enough : function.required ≤ arguments.args.length
  fits : ∀ i, (h : i < arguments.args.length) →
    suits function.roles[i]? (arguments.args[i]).operand = true

namespace WrittenCall

def text (call : WrittenCall) : List Char :=
  call.function.name.toList ++ (call.blanks.text ++ '(' :: (call.arguments.text ++ [')']))

/-- What is written for a role, if the call goes on that far. -/
def said (call : WrittenCall) (role : Role) : Option String :=
  ((call.function.roles.zip call.arguments.args).lookup role).map fun a =>
    String.ofList a.operand.value

/-- A message says what was written. -/
structure Said (call : WrittenCall) (message : Message) : Prop where
  text : call.said .text = some message.text
  plural : call.said .plural = message.plural
  context : call.said .context = message.context
  domain : call.said .domain = message.domain

end WrittenCall

/-! ## Arguments read for their roles -/

theorem parse?_word {letters : List Char} (ne : letters ≠ [])
    (bare : letters.all isBare = true) : Literal.parse? letters = none := by
  obtain ⟨c, r, rfl⟩ := List.exists_cons_of_ne_nil ne
  have plain := (WordChar.of_mem bare List.mem_cons_self).plain
  simp only [isPlain, Bool.not_eq_true', Bool.or_eq_false_iff, beq_eq_false_iff_ne] at plain
  exact parse?_plain plain.1.1 plain.1.2 plain.2 r

/-- An argument of the kind that its role asks for is read as what it says. What a count says is
of no account. -/
theorem Role.read_core {role : Role} {a : Argument} (h : suits (some role) a.operand = true) :
    ∃ value, role.read a.core = .ok value ∧
      (role ≠ .count → value = String.ofList a.operand.value) := by
  simp only [Role.read, a.unwrap_core]
  cases hx : a.operand with
  | quoted style text takes =>
    rw [hx] at h
    have parsed : Literal.parse? (Operand.quoted style text takes).text =
        some ⟨style, style.write text⟩ := parse?_literal (body_write takes)
    have decoded : Literal.decode ⟨style, style.write text⟩ = text := unescape_write takes
    cases role with
    | text | plural | context =>
      rw [parsed]
      exact ⟨_, rfl, fun _ => congrArg String.ofList decoded⟩
    | count | domain => cases h
  | word letters ne bare =>
    rw [hx] at h
    have parsed : Literal.parse? (Operand.word letters ne bare).text = none := parse?_word ne bare
    cases role with
    | text | plural | context => cases h
    | count => exact ⟨_, rfl, fun hne => absurd rfl hne⟩
    | domain =>
      rw [parsed]
      exact ⟨_, rfl, fun _ => rfl⟩
  | literal style body hbody =>
    rw [hx] at h
    have parsed : Literal.parse? (Operand.literal style body hbody).text = some ⟨style, body⟩ :=
      parse?_literal hbody
    cases role with
    | text | plural | context | count => cases h
    | domain =>
      rw [parsed]
      exact ⟨_, rfl, fun _ => rfl⟩

/-- Each role is given what its argument says. -/
theorem readRoles_core {roles : List Role} {args : List Argument}
    (fits : ∀ i, (h : i < args.length) → suits roles[i]? (args[i]).operand = true) :
    ∃ values, readRoles roles (args.map Argument.core) = .ok values ∧
      ∀ role ≠ .count, values.lookup role =
        ((roles.zip args).lookup role).map fun a => String.ofList a.operand.value := by
  induction roles generalizing args with
  | nil => exact ⟨[], rfl, fun _ _ => rfl⟩
  | cons first roles ih =>
    cases args with
    | nil => exact ⟨[], rfl, fun _ _ => rfl⟩
    | cons a args =>
      obtain ⟨value, hvalue, told⟩ := Role.read_core (fits 0 (Nat.zero_lt_succ _))
      obtain ⟨values, hvalues, rest⟩ := ih fun i h => fits (i + 1) (Nat.succ_lt_succ h)
      refine ⟨(first, value) :: values, ?_, ?_⟩
      · rw [List.getElem_cons_zero] at hvalue
        simp only [List.map_cons, readRoles, hvalue, hvalues, bind, Except.bind]
        rfl
      · intro role hrole
        by_cases here : role = first
        · subst here
          simp [told hrole]
        · have skip : (role == first) = false := by simpa using here
          simp only [List.zip_cons_cons, List.lookup_cons, skip]
          exact rest role hrole

namespace WrittenCall

theorem exists_said_text (call : WrittenCall) : ∃ text, call.said .text = some text := by
  obtain ⟨hpos, roles, hroles⟩ := Function.text_first call.listed
  obtain ⟨a, args, hargs⟩ := List.exists_cons_of_length_pos (Nat.lt_of_lt_of_le hpos call.enough)
  exact ⟨String.ofList a.operand.value, by simp [said, hroles, hargs]⟩

/-- The arguments give a message that says what was written. -/
theorem read_arguments (call : WrittenCall) :
    ∃ message, call.function.read (call.arguments.args.map Argument.core) = .ok message ∧
      call.Said message := by
  obtain ⟨values, hvalues, told⟩ := readRoles_core call.fits
  obtain ⟨text, htext⟩ := call.exists_said_text
  have found : values.lookup .text = some text := by
    rw [told .text (by decide)]
    exact htext
  have enough : ¬ (call.arguments.args.map Argument.core).length < call.function.required := by
    rw [List.length_map]
    exact Nat.not_lt.2 call.enough
  refine ⟨⟨text, values.lookup .plural, values.lookup .context, values.lookup .domain⟩, ?_, ?_⟩
  · simp only [Function.read, if_neg enough, hvalues, bind, Except.bind, found]
    rfl
  · exact ⟨htext, (told .plural (by decide)).symm, (told .context (by decide)).symm,
      (told .domain (by decide)).symm⟩

theorem readCall_text (call : WrittenCall) (suf : List Char) :
    call.function.readCall (call.arguments.text ++ ')' :: suf) =
      call.function.read (call.arguments.args.map Argument.core) := by
  rw [Function.readCall, call.arguments.closeParen?_text, ← call.arguments.arguments_text]

end WrittenCall

/-! ## The call in a text -/

theorem isWordChar_of_mem_name {f : Function} (h : f ∈ Function.all) {c : Char}
    (hc : c ∈ f.name.toList) : isWordChar c = true := by
  have each : ∀ f ∈ Function.all, f.name.toList.all isWordChar = true := by decide
  exact List.all_eq_true.1 (each f h) c hc

theorem not_isWordChar_of_isSpace {c : Char} (hc : isSpace c = true) : isWordChar c = false := by
  have all := of_isSpace (p := fun c => !isWordChar c) (by decide) hc
  simpa using all

namespace WrittenCall

/-- A written call is recognized. -/
theorem callAt?_text (call : WrittenCall) (suf : List Char) :
    callAt? (call.text ++ suf) =
      some (call.function, call.arguments.text ++ ')' :: suf) := by
  have shape : call.text ++ suf = (call.function.name.toList ++ call.blanks.text) ++
      '(' :: (call.arguments.text ++ ')' :: suf) := by
    simp [text]
  have stop : isWordChar '(' = false := rfl
  have name : ∀ c ∈ call.function.name.toList, isWordChar c = true :=
    fun c hc => isWordChar_of_mem_name call.listed hc
  have run : call.blanks.text.takeWhile isWordChar = [] := by
    cases hb : call.blanks.text with
    | nil => rfl
    | cons b bs =>
      have hspace : isSpace b = true := call.blanks.isSpace (by rw [hb]; exact List.mem_cons_self)
      simp [not_isWordChar_of_isSpace hspace]
  have drop : call.blanks.text.dropWhile isWordChar = call.blanks.text := by
    have whole := List.takeWhile_append_dropWhile (p := isWordChar) (l := call.blanks.text)
    rwa [run, List.nil_append] at whole
  rw [callAt?_eq_some, shape, takeWhile_append_stop stop, dropWhile_append_stop stop,
    List.takeWhile_append_of_pos name, List.dropWhile_append_of_pos name, run, drop]
  refine ⟨call.listed, List.append_nil _, ?_⟩
  rw [List.dropWhile_append_of_pos fun _ hc => call.blanks.isSpace hc]
  rfl

end WrittenCall

/-- **Extraction undoes writing a call.** A written call gives one record, with what was written
in it and the line of its name, whatever comes before and after it, as long as a name may begin
where it stands. -/
theorem extract_written (path : String) (call : WrittenCall) (pre suf : List Char)
    (fresh : ∀ c ∈ pre.getLast?, endsWord c = true) {s : List Char}
    (hs : s = pre ++ (call.text ++ suf)) :
    ∃ message before after,
      call.Said message ∧
      callSites s =
        before ++ ⟨byteSize pre, call.function, call.arguments.text ++ ')' :: suf⟩ :: after ∧
      (∀ site ∈ before, site.offset < byteSize pre) ∧
      (∀ site ∈ after, byteSize pre < site.offset) ∧
      (extract path s).records =
        before.filterMap (fun site => site.record? (site.place path s)) ++
          { message with location := ⟨path, 1 + pre.count '\n'⟩ } ::
            after.filterMap (fun site => site.record? (site.place path s)) ∧
      (extract path s).skipped =
        before.filterMap (fun site => site.skipped? (site.place path s)) ++
          after.filterMap (fun site => site.skipped? (site.place path s)) := by
  subst hs
  obtain ⟨message, hread, hsaid⟩ := call.read_arguments
  have mem : ⟨byteSize pre, call.function, call.arguments.text ++ ')' :: suf⟩ ∈
      callSites (pre ++ (call.text ++ suf)) := by
    rw [callSites, mem_callSitesFrom]
    refine ⟨pre, call.text ++ suf, rfl, (Nat.zero_add _).symm, ?_, call.callAt?_text suf⟩
    cases hlast : pre.getLast? with
    | none => simp [freshAfter, hlast]
    | some c => simpa [freshAfter, hlast] using fresh c hlast
  obtain ⟨before, after, hsites⟩ := List.append_of_mem mem
  have order := pairwise_callSites (pre ++ (call.text ++ suf))
  rw [hsites, List.pairwise_append] at order
  have outcome := (call.readCall_text suf).trans hread
  refine ⟨message, before, after, hsaid, hsites, ?_, ?_, ?_, ?_⟩
  · exact fun site hsite => order.2.2 site hsite _ List.mem_cons_self
  · exact fun site hsite => (List.pairwise_cons.1 order.2.1).1 site hsite
  · rw [records_extract, hsites, List.filterMap_append]
    congr 1
    apply List.filterMap_cons_some
    rw [place_append path pre _ rfl]
    simp [CallSite.record?, outcome]
  · rw [skipped_extract, hsites, List.filterMap_append]
    congr 1
    apply List.filterMap_cons_none
    simp [CallSite.skipped?, outcome]

/-- A call with everything that may stand in one. -/
def menuCall : WrittenCall where
  function := ⟨"_nx", [.text, .plural, .count, .context, .domain]⟩
  listed := by decide
  blanks := ⟨[' '], by decide⟩
  arguments := {
    init := [
      ⟨[], .quoted .single "it's \\ (one, \"two\"".toList nofun, none, []⟩,
      ⟨[.block ",)".toList (by decide)],
        .quoted .double "50% \"off\"".toList (fun _ => by decide), none, [.blank '\t' rfl]⟩,
      ⟨[], .word "$n".toList (by decide) (by decide), none, []⟩,
      ⟨[], .quoted .single "menu".toList nofun, some (⟨[' '], by decide⟩, ⟨[], by decide⟩), []⟩,
      ⟨[.slashes ")'".toList ⟨by decide, by decide⟩],
        .literal .double ['a', '\\', '"'] (.plain (by decide) (by decide) (.pair .nil)), none, []⟩]
    last := ⟨[], .literal .single [] .nil, none, []⟩
    trailing := some [.hash "')".toList ⟨by decide, by decide⟩ (by decide)] }
  enough := by decide
  fits := by decide

theorem extract_written_menu :
    { text := "it's \\ (one, \"two\"", plural := some "50% \"off\"", context := some "menu",
      domain := some "a\\\"", location := ⟨"menu", 2⟩ } ∈
        (extract "menu" (['(', '\n'] ++ (menuCall.text ++ ['\'']))).records := by
  obtain ⟨message, before, after, said, -, -, -, hrecords, -⟩ :=
    extract_written "menu" menuCall ['(', '\n'] ['\''] (by rintro c ⟨⟩; rfl) rfl
  obtain ⟨htext, hplural, hcontext, hdomain⟩ := said
  have told : message = ⟨"it's \\ (one, \"two\"", some "50% \"off\"", some "menu",
      some "a\\\""⟩ := by
    cases message
    simp only [Message.mk.injEq]
    exact ⟨Option.some.inj htext.symm, hplural.symm, hcontext.symm, hdomain.symm⟩
  rw [hrecords, told]
  exact List.mem_append_right _ List.mem_cons_self

end PotExtract
