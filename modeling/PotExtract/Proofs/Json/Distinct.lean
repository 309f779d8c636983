import PotExtract.Json.Read
import Mathlib.Data.List.Nodup

/-!
# Distinct names

A member put into an object takes the place of the one of its name, so no
object that is read has two members of one name.

* `putMember_of_mem`, `putMember_of_not_mem`: a member put into an object;
* `nodup_putMember`: names stay distinct;
* `Json.Distinct`: in every object within a value, names are distinct;
* `Reader.Distinct.step`, `Reader.Distinct.run`: a token, and a run of tokens,
  keeps the names of all open objects distinct;
* `distinct_of_read?`: the value of a text has distinct names.
-/

namespace PotExtract

/-! ## Members put into an object -/

section
variable {α : Type} {name : String} {value : α} {members : List (String × α)}

theorem putMember_of_not_mem (h : name ∉ members.map Prod.fst) :
    putMember name value members = members ++ [(name, value)] := by
  induction members with
  | nil => rfl
  | cons m members ih =>
    obtain ⟨here, later⟩ := not_or.1 (mt List.mem_cons.2 h)
    rw [putMember, if_neg (Ne.symm here), ih later, List.cons_append]

/-- In an object, the member of a name takes the new value where it stands. -/
theorem putMember_of_mem (distinct : (members.map Prod.fst).Nodup)
    (h : name ∈ members.map Prod.fst) :
    putMember name value members =
      members.map fun m => (m.1, if m.1 = name then value else m.2) := by
  induction members with
  | nil => cases h
  | cons m members ih =>
    obtain ⟨alone, distinct⟩ := List.nodup_cons.1 distinct
    rw [putMember, List.map_cons]
    split
    · rename_i here
      have others : ∀ m ∈ members, (m.1, if m.1 = name then value else m.2) = id m := by
        intro other hother
        have ne : other.1 ≠ name := by
          rintro rfl
          exact alone (here ▸ List.mem_map_of_mem hother)
        rw [if_neg ne]
        rfl
      rw [List.map_congr_left others, List.map_id]
    · rename_i ne
      rw [ih distinct ((List.mem_cons.1 h).resolve_left (Ne.symm ne))]

theorem nodup_putMember (distinct : (members.map Prod.fst).Nodup) :
    ((putMember name value members).map Prod.fst).Nodup := by
  by_cases h : name ∈ members.map Prod.fst
  · rw [putMember_of_mem distinct h, List.map_map]
    exact distinct
  · rw [putMember_of_not_mem h, List.map_append, List.map_singleton, ← List.concat_eq_append]
    exact distinct.concat h

theorem mem_of_mem_putMember {m : String × α} (h : m ∈ putMember name value members) :
    m.2 = value ∨ m ∈ members := by
  induction members with
  | nil => exact .inl (congrArg Prod.snd (List.mem_singleton.1 h))
  | cons first members ih =>
    rw [putMember] at h
    split at h
    · rcases List.mem_cons.1 h with rfl | later
      · exact .inl rfl
      · exact .inr (List.mem_cons_of_mem _ later)
    · rcases List.mem_cons.1 h with rfl | later
      · exact .inr List.mem_cons_self
      · exact (ih later).imp_right (List.mem_cons_of_mem _)

end

namespace Json

/-- In every object within a value, names are distinct. -/
inductive Distinct : Json → Prop where
  | null : Distinct .null
  | bool (b : Bool) : Distinct (.bool b)
  | number (n : Number) : Distinct (.number n)
  | string (s : String) : Distinct (.string s)
  | array {items : List Json} (each : ∀ v ∈ items, Distinct v) : Distinct (.array items)
  | object {members : List (String × Json)} (names : (members.map Prod.fst).Nodup)
      (each : ∀ m ∈ members, Distinct m.2) : Distinct (.object members)

/-- The values of a token have distinct names. -/
def Token.Distinct : Token → Prop
  | .mark _ => True
  | .scalar v => v.Distinct

/-- What is read of an array or object has distinct names. -/
def Frame.Distinct : Frame → Prop
  | .array items => ∀ v ∈ items, v.Distinct
  | .object members _ => (members.map Prod.fst).Nodup ∧ ∀ m ∈ members, m.2.Distinct

/-- All that is read has distinct names. -/
structure Reader.Distinct (r : Reader) : Prop where
  stack : ∀ frame ∈ r.stack, frame.Distinct
  result : ∀ v ∈ r.result, v.Distinct

/-! ## Tokens -/

theorem distinct_of_scalar? {run : List Char} {v : Json} (h : scalar? run = some v) :
    v.Distinct := by
  unfold scalar? at h
  split at h
  · cases h
    exact .null
  · cases h
    exact .bool true
  · cases h
    exact .bool false
  · obtain ⟨n, -, hn⟩ := Option.bind_eq_some_iff.1 h
    obtain ⟨number, -, rfl⟩ := Option.map_eq_some_iff.1 hn
    exact .number number

theorem distinct_of_next? {s rest : List Char} {t : Token} (h : next? s = some (t, rest)) :
    t.Distinct := by
  cases s with
  | nil => cases h
  | cons c r =>
    rw [next?] at h
    split at h
    · cases h
      trivial
    · split at h
      · obtain ⟨⟨body, after⟩, -, hp⟩ := Option.map_eq_some_iff.1 h
        cases hp
        exact .string _
      · obtain ⟨v, hv, hp⟩ := Option.map_eq_some_iff.1 h
        cases hp
        exact distinct_of_scalar? hv

theorem distinct_of_mem_tokens? {s : List Char} {ts : List Token} (h : tokens? s = some ts)
    {t : Token} (ht : t ∈ ts) : t.Distinct := by
  fun_induction tokens? s generalizing ts with
  | case1 => simp_all
  | case2 => simp_all
  | case3 s blank first rest hnext ih =>
    obtain ⟨more, hmore, rfl⟩ := Option.map_eq_some_iff.1 h
    rcases List.mem_cons.1 ht with rfl | later
    · exact distinct_of_next? hnext
    · exact ih hmore later

/-! ## Reading -/

theorem distinct_put {stack : List Frame} (opened : ∀ frame ∈ stack, frame.Distinct) {v : Json}
    (hv : v.Distinct) : (Reader.put stack v).Distinct := by
  cases stack with
  | nil => exact ⟨nofun, by rintro _ ⟨⟩; exact hv⟩
  | cons frame outer =>
    obtain ⟨inner, around⟩ := List.forall_mem_cons.1 opened
    cases frame with
    | array items =>
      refine ⟨List.forall_mem_cons.2 ⟨?_, around⟩, nofun⟩
      exact List.forall_mem_cons.2 ⟨hv, inner⟩
    | object members name =>
      refine ⟨List.forall_mem_cons.2 ⟨⟨nodup_putMember inner.1, fun m hm => ?_⟩, around⟩, nofun⟩
      rcases mem_of_mem_putMember hm with rfl | hm
      · exact hv
      · exact inner.2 m hm

theorem Reader.Distinct.push {r r' : Reader} (h : r.Distinct) (frame : Frame)
    (hframe : frame.Distinct) {expected : Expected} (hpush : r.push frame expected = some r') :
    r'.Distinct := by
  obtain ⟨-, opened⟩ := Option.ite_none_right_eq_some.1 hpush
  cases opened
  exact ⟨List.forall_mem_cons.2 ⟨hframe, h.stack⟩, h.result⟩

theorem Reader.Distinct.readValue {r r' : Reader} (h : r.Distinct) {t : Token} (ht : t.Distinct)
    (hread : r.readValue t = some r') : r'.Distinct := by
  fun_cases Reader.readValue r t with
  | case1 v =>
    cases hread
    exact distinct_put h.stack ht
  | case2 => exact h.push (.array []) nofun hread
  | case3 => exact h.push (.object [] "") ⟨List.nodup_nil, nofun⟩ hread
  | case4 => simp_all [Reader.readValue]

/-- What is innermost of all that is open, and what is around it. -/
theorem Reader.Distinct.outer {r : Reader} (h : r.Distinct) {frame : Frame} {outer : List Frame}
    (hstack : r.stack = frame :: outer) : frame.Distinct ∧ ∀ f ∈ outer, f.Distinct :=
  List.forall_mem_cons.1 (hstack ▸ h.stack)

theorem Reader.Distinct.readName {r r' : Reader} (h : r.Distinct) {t : Token}
    (hread : r.readName t = some r') : r'.Distinct := by
  fun_cases Reader.readName r t with
  | case1 name members old outer hstack =>
    simp only [Reader.readName, hstack, Option.some.injEq] at hread
    subst hread
    obtain ⟨inner, outer⟩ := h.outer hstack
    exact ⟨List.forall_mem_cons.2 ⟨inner, outer⟩, h.result⟩
  | case2 | case3 => simp_all [Reader.readName]

/-- One token keeps the names of all that is open distinct. -/
theorem Reader.Distinct.step {r r' : Reader} (h : r.Distinct) {t : Token} (ht : t.Distinct)
    (hstep : r.step t = some r') : r'.Distinct := by
  unfold Reader.step at hstep
  split at hstep
  -- an array ends before it has an item
  case h_1 hstack =>
    cases hstep
    exact distinct_put (h.outer hstack).2 (.array nofun)
  case h_2 | h_3 => exact h.readValue ht hstep
  -- an object ends before it has a member
  case h_4 hstack =>
    cases hstep
    exact distinct_put (h.outer hstack).2 (.object List.nodup_nil nofun)
  case h_5 | h_6 => exact h.readName hstep
  case h_7 | h_9 | h_10 =>
    cases hstep
    exact ⟨h.stack, h.result⟩
  case h_8 | h_13 => cases hstep
  case h_11 hstack =>
    cases hstep
    obtain ⟨inner, outer⟩ := h.outer hstack
    exact distinct_put outer (.array fun v hv => inner v (List.mem_reverse.1 hv))
  case h_12 hstack =>
    cases hstep
    obtain ⟨inner, outer⟩ := h.outer hstack
    exact distinct_put outer (.object inner.1 inner.2)

/-- A run of tokens keeps the names of all that is open distinct. -/
theorem Reader.Distinct.run {ts : List Token} (hts : ∀ t ∈ ts, t.Distinct) {r r' : Reader}
    (h : r.Distinct) (hrun : ts.foldlM Reader.step r = some r') : r'.Distinct := by
  induction ts generalizing r with
  | nil =>
    cases hrun
    exact h
  | cons t ts ih =>
    obtain ⟨ht, hts⟩ := List.forall_mem_cons.1 hts
    rw [List.foldlM_cons] at hrun
    obtain ⟨next, hstep, hrun⟩ := Option.bind_eq_some_iff.1 hrun
    exact ih hts (h.step ht hstep) hrun

/-- The names of every object are distinct once a text is read. -/
theorem distinct_of_read? {text : String} {v : Json} (h : read? text = some v) : v.Distinct := by
  obtain ⟨ts, htokens, h⟩ := Option.bind_eq_some_iff.1 h
  obtain ⟨reader, hrun, h⟩ := Option.bind_eq_some_iff.1 h
  have start : Reader.start.Distinct := ⟨nofun, nofun⟩
  have done := start.run (fun t ht => distinct_of_mem_tokens? htokens ht) hrun
  obtain ⟨-, hv⟩ := Option.ite_none_right_eq_some.1 h
  exact done.result v hv

end Json

end PotExtract
