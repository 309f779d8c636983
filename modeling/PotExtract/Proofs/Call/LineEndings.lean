import PotExtract.Proofs.Call.Sites
import PotExtract.Proofs.Source.LineEndings
import Mathlib.Data.List.Forall2

/-!
# Calls in a text with carriage returns

A carriage return before each line feed changes no line number, makes and
breaks no call, and is otherwise just a character of what the calls say.

* `readCall_crlf`: a call is read the same, or skipped for the same reason;
* `MovedTo`, `movedTo_callSitesFrom`: the calls of the two texts, pair by pair;
* `extract_crlf`: what the two texts yield.
-/

namespace PotExtract

open Source

/-- What is said, with a carriage return before each line feed. -/
def withReturns (s : String) : String :=
  String.ofList (crlf s.toList)

@[simp] theorem withReturns_ofList (s : List Char) :
    withReturns (String.ofList s) = String.ofList (crlf s) := by
  simp [withReturns]

/-- Each text of a message, with a carriage return before each line feed. -/
def Message.crlf (m : Message) : Message where
  text := withReturns m.text
  plural := m.plural.map withReturns
  context := m.context.map withReturns
  domain := m.domain.map withReturns

/-- The call stays where it is; only what it says changes. -/
def Record.crlf (r : Record) : Record :=
  { r.toMessage.crlf with location := r.location }

/-! ## What a call says -/

theorem read_role_crlf (role : Role) (arg : List Char) :
    role.read (crlf arg) = (role.read arg).map withReturns := by
  unfold Role.read
  rw [unwrap_crlf, parse?_crlf]
  cases role <;> cases Literal.parse? (unwrap arg) <;>
    simp [Except.map, Literal.crlf, Literal.decode, unescape_crlf]

theorem readRoles_crlf (roles : List Role) (args : List (List Char)) :
    readRoles roles (args.map crlf) =
      (readRoles roles args).map (List.map fun (role, value) => (role, withReturns value)) := by
  induction roles generalizing args with
  | nil => rfl
  | cons role roles ih =>
    cases args with
    | nil => rfl
    | cons arg args =>
      simp only [List.map_cons, readRoles, read_role_crlf, ih]
      cases role.read arg with
      | error reason => rfl
      | ok value => cases readRoles roles args <;> rfl

theorem lookup_map_snd {α β γ : Type} [BEq α] (f : β → γ) (l : List (α × β)) (a : α) :
    (l.map fun (k, v) => (k, f v)).lookup a = (l.lookup a).map f := by
  induction l with
  | nil => rfl
  | cons p l ih =>
    obtain ⟨k, v⟩ := p
    simp only [List.map_cons, List.lookup_cons, ih]
    split <;> rfl

theorem read_crlf (f : Function) (args : List (List Char)) :
    f.read (args.map crlf) = (f.read args).map Message.crlf := by
  simp only [Function.read, List.length_map, readRoles_crlf]
  split
  · rfl
  · cases readRoles f.roles args with
    | error reason => rfl
    | ok values =>
      simp only [Except.map, bind, Except.bind, lookup_map_snd]
      cases values.lookup .text <;> rfl

/-- A call is read the same, or skipped for the same reason. -/
theorem readCall_crlf (f : Function) (s : List Char) :
    f.readCall (crlf s) = (f.readCall s).map Message.crlf := by
  simp only [Function.readCall, closeParen?_crlf]
  cases closeParen? s with
  | none => rfl
  | some p => simp only [Option.map_some, arguments_crlf, read_crlf]

/-! ## Where calls stand -/

theorem count_crlf (s : List Char) : (crlf s).count '\n' = s.count '\n' := by
  induction s with
  | nil => rfl
  | cons c r ih =>
    by_cases hc : c = '\n'
    · subst hc
      simp [ih]
    · simp [crlf_cons hc, ih, hc]

theorem callAt?_crlf (s : List Char) :
    callAt? (crlf s) = (callAt? s).map fun (f, rest) => (f, crlf rest) := by
  have spaces : (((crlf s).dropWhile isWordChar).dropWhile isSpace) =
      crlf ((s.dropWhile isWordChar).dropWhile isSpace) := by
    rw [dropWhile_crlf rfl, dropWhile_crlf rfl]
  rw [callAt?, callAt?, takeWhile_crlf rfl rfl, spaces]
  cases Function.named? (String.ofList (s.takeWhile isWordChar)) with
  | none => rfl
  | some f =>
    cases (s.dropWhile isWordChar).dropWhile isSpace with
    | nil => rfl
    | cons c r =>
      by_cases hc : c = '('
      · simp [hc, crlf_cons]
      · by_cases hfeed : c = '\n'
        · simp [hfeed]
        · simp [crlf_cons hfeed, hc]

/-- A call of a text and the same call in the text with carriage returns. -/
structure MovedTo (s : List Char) (a b : CallSite) : Prop where
  function : b.function = a.function
  rest : b.rest = crlf a.rest
  place : ∀ path, b.place path (crlf s) = a.place path s

theorem movedTo_siteAt? (pre s : List Char) (fresh : Bool) :
    List.Forall₂ (MovedTo (pre ++ s)) (siteAt? (byteSize pre) fresh s).toList
      (siteAt? (byteSize (crlf pre)) fresh (crlf s)).toList := by
  cases fresh with
  | false => exact .nil
  | true =>
    simp only [siteAt?, ↓reduceIte, callAt?_crlf]
    cases callAt? s with
    | none => exact .nil
    | some found =>
      refine .cons ⟨rfl, rfl, fun path => ?_⟩ .nil
      rw [place_append path pre s rfl, crlf_append, place_append path (crlf pre) (crlf s) rfl,
        count_crlf]

/-- The calls of the two texts, pair by pair. -/
theorem movedTo_callSitesFrom (pre s : List Char) (fresh : Bool) :
    List.Forall₂ (MovedTo (pre ++ s)) (callSitesFrom [] (byteSize pre) fresh s)
      (callSitesFrom [] (byteSize (crlf pre)) fresh (crlf s)) := by
  induction s generalizing pre fresh with
  | nil => exact .nil
  | cons c r ih =>
    have more := ih (pre ++ [c]) (endsWord c)
    simp only [List.append_assoc, List.singleton_append, byteSize_append, byteSize_cons,
      byteSize_nil, Nat.add_zero, crlf_append] at more
    by_cases hc : c = '\n'
    · subst hc
      -- Neither character of a line ending begins a call, and a name may begin after both.
      have none (d : Char) (hd : isWordStart d = false) := siteAt?_of_not_isWordStart hd
      rw [crlf_feed, callSitesFrom_cons, callSitesFrom_cons, callSitesFrom_cons, none _ rfl,
        none _ rfl, none _ rfl]
      exact more
    · rw [crlf_cons hc] at more ⊢
      have first := movedTo_siteAt? pre (c :: r) fresh
      rw [crlf_cons hc] at first
      rw [callSitesFrom_cons, callSitesFrom_cons]
      exact List.rel_append first more

/-! ## What a text yields -/

theorem filterMap_forall₂ {α β γ δ : Type} {R : α → β → Prop} {f : α → Option γ} {g : β → Option δ}
    {h : γ → δ} (look : ∀ a b, R a b → g b = (f a).map h) {l : List α} {m : List β}
    (hlm : List.Forall₂ R l m) : m.filterMap g = (l.filterMap f).map h := by
  induction hlm with
  | nil => rfl
  | @cons a b l m hab _ ih =>
    rw [List.filterMap_cons, List.filterMap_cons, look a b hab, ih]
    cases f a <;> rfl

/-- **Line endings do not matter.** A text with carriage returns has the same calls on the same
lines, and skips the same ones for the same reasons; what it says has the carriage returns. -/
theorem extract_crlf (path : String) (s : List Char) :
    extract path (crlf s) =
      { records := (extract path s).records.map Record.crlf
        skipped := (extract path s).skipped } := by
  have pairs : List.Forall₂ (MovedTo s) (callSites s) (callSites (crlf s)) :=
    movedTo_callSitesFrom [] s true
  have records : (extract path (crlf s)).records = (extract path s).records.map Record.crlf := by
    rw [records_extract, records_extract]
    apply filterMap_forall₂ _ pairs
    intro a b moved
    rw [CallSite.record?, CallSite.record?, moved.function, moved.rest, moved.place, readCall_crlf]
    cases a.function.readCall a.rest <;> rfl
  have skipped : (extract path (crlf s)).skipped = (extract path s).skipped := by
    rw [skipped_extract, skipped_extract]
    rw [filterMap_forall₂ (h := id) _ pairs, List.map_id]
    intro a b moved
    rw [CallSite.skipped?, CallSite.skipped?, moved.function, moved.rest, moved.place,
      readCall_crlf]
    cases a.function.readCall a.rest <;> rfl
  rw [← records, ← skipped]

end PotExtract
