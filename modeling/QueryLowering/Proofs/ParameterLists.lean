import QueryLowering.Proofs.Closing
import QueryLowering.Proofs.Written

/-!
# The parameters listed with a statement

A statement is written with a list of its parameters, one of each name. A name is listed if and only if the text has a
placeholder of that name. Where placeholders are numbers, they are the places of the list: each place has a placeholder,
and placeholders of one name have one number.

The parts of a statement are not always met in the order of the text, and some parts are never written. The numbers come
out right because every part that was met is written and the other way round.

## Main definitions

* `Fragment.NumberedBy`: the placeholders of a text are the places of a list of parameters.

## Main results

* `nodup_names_firstOfName`, `mem_parameterNames_firstOfName`: one parameter of each name is listed.
* `render_lists_placeholders`: the list of a statement and its placeholders.
-/

namespace QueryLowering

open Sql List

/-- The names of some parameters. -/
def parameterNames (parameters : List (String × Value)) : List String := parameters.map (·.1)

variable {parameters : List (String × Value)} {name : String}

@[simp]
theorem parameterNames_cons (p : String × Value) (rest : List (String × Value)) :
    parameterNames (p :: rest) = p.1 :: parameterNames rest := rfl

/-! ## One parameter of each name -/

theorem parameterNames_filter (other : String) (parameters : List (String × Value)) :
    parameterNames (parameters.filter (·.1 != other)) = (parameterNames parameters).filter (· != other) := by
  rw [parameterNames, parameterNames, filter_map]
  rfl

/-- Every name that occurs is listed, and no other. -/
theorem mem_parameterNames_firstOfName :
    name ∈ parameterNames (firstOfName parameters) ↔ name ∈ parameterNames parameters := by
  induction parameters with
  | nil => rfl
  | cons p rest ih =>
    rw [firstOfName, parameterNames_cons, parameterNames_cons, parameterNames_filter, mem_cons, mem_cons,
      mem_filter, ih, bne_iff_ne]
    by_cases hname : name = p.1
    · simp [hname]
    · simp [hname]

/-- No name is listed twice. -/
theorem nodup_names_firstOfName (parameters : List (String × Value)) :
    (parameterNames (firstOfName parameters)).Nodup := by
  induction parameters with
  | nil => exact nodup_nil
  | cons p rest ih =>
    rw [firstOfName, parameterNames_cons, parameterNames_filter]
    exact nodup_cons.2 ⟨by simp, ih.filter _⟩

/-! ## Numbers -/

theorem parameterNumber_eq (parameters : List (String × Value)) (name : String) :
    parameterNumber parameters name = (parameterNames parameters).idxOf name + 1 := by
  rw [parameterNumber, parameterNames, List.idxOf, findIdx_map]
  rfl

/-- The placeholders of a text are the places of a list of parameters. -/
structure Fragment.NumberedBy (f : Fragment) (parameters : List (String × Value)) : Prop where
  /-- A placeholder is the place of its name. -/
  place : ∀ p ∈ f.placeholders, ∃ i, (parameterNames parameters)[i]? = some p.1 ∧
    (Token.parameter p.1 p.2).text .postgres parameters = "$" ++ toString (i + 1)
  /-- Every place has a placeholder. -/
  used : ∀ i < parameters.length, ∃ p ∈ f.placeholders,
    (Token.parameter p.1 p.2).text .postgres parameters = "$" ++ toString (i + 1)
  /-- Placeholders are the same exactly if they have the same name. -/
  same : ∀ p ∈ f.placeholders, ∀ q ∈ f.placeholders,
    (Token.parameter p.1 p.2).text .postgres parameters = (Token.parameter q.1 q.2).text .postgres parameters ↔ p.1 = q.1

theorem text_parameter_postgres (parameters : List (String × Value)) (name : String) (value : Value) :
    (Token.parameter name value).text .postgres parameters =
      "$" ++ toString ((parameterNames parameters).idxOf name + 1) := by
  rw [Token.text, Dialect.placeholder, parameterNumber_eq]

theorem dollar_inj {i k : Nat} : "$" ++ toString i = "$" ++ toString k ↔ i = k := by
  rw [String.append_right_inj]
  exact ⟨eq_of_toString_eq, congrArg _⟩

/-- Placeholders are numbered by a list without repetition that has their names and no others. -/
theorem Fragment.numberedBy_of_names {f : Fragment} (hnodup : (parameterNames parameters).Nodup)
    (hnames : ∀ name, name ∈ parameterNames parameters ↔ name ∈ parameterNames f.placeholders) :
    f.NumberedBy parameters := by
  have hlisted : ∀ p ∈ f.placeholders, p.1 ∈ parameterNames parameters := fun p hp =>
    (hnames p.1).2 (mem_map_of_mem hp)
  refine ⟨fun p hp => ⟨_, getElem?_idxOf (hlisted p hp), text_parameter_postgres ..⟩, fun i hi => ?_,
    fun p hp q hq => ?_⟩
  · have hi' : i < (parameterNames parameters).length := by simpa [parameterNames] using hi
    obtain ⟨p, hp, hname⟩ := mem_map.1 ((hnames _).1 (getElem_mem hi'))
    refine ⟨p, hp, ?_⟩
    rw [text_parameter_postgres, hname, hnodup.idxOf_getElem]
  · rw [text_parameter_postgres, text_parameter_postgres, dollar_inj, Nat.add_right_cancel_iff]
    exact idxOf_inj (hlisted p hp)

/-! ## Statements -/

theorem Fragment.mem_names_placeholders {f : Fragment} :
    name ∈ parameterNames f.placeholders ↔ ∃ value, Token.parameter name value ∈ f.tokens := by
  simp only [parameterNames, placeholders, mem_map, mem_filterMap, Prod.exists, exists_and_right,
    exists_eq_right]
  refine exists_congr fun value => ⟨?_, fun h => ⟨_, h, rfl⟩⟩
  rintro ⟨token, htoken, hparameter⟩
  cases token with
  | parameter name' value' =>
    obtain ⟨rfl, rfl⟩ := Prod.mk.inj (Option.some.inj hparameter)
    exact htoken
  | _ => cases hparameter

/-- **The parameters of a statement and its placeholders.** The text of a statement that can be written consists of the
texts of some tokens. The names of the listed parameters are distinct, and a name is listed if and only if one of the
tokens is a placeholder of that name. All placeholders come from parameter nodes of the statement. They are written as
names in one dialect. In the other they are numbers, which are exactly the places of the list, and placeholders of the
same name have the same number. -/
theorem render_lists_placeholders (d : Dialect) (s : Statement) (r : Rendered) (h : s.render d = .ok r) :
    ∃ f, s.fragment d = .ok f ∧ r.sql = String.join (f.tokens.map (Token.text d r.parameters)) ∧
      f.placeholders ⊆ s.parameterNodes ∧ (parameterNames r.parameters).Nodup ∧
      (∀ name, name ∈ parameterNames r.parameters ↔ ∃ value, Token.parameter name value ∈ f.tokens) ∧
      (d = .sqlServer → ∀ p ∈ f.placeholders, (Token.parameter p.1 p.2).text d r.parameters = "@" ++ p.1) ∧
      (d = .postgres → f.NumberedBy r.parameters) := by
  simp only [Statement.render, Result.bind_eq_ok, Result.pure_eq_ok] at h
  obtain ⟨f, hf, rfl⟩ := h
  have hwritten := s.fragment_writtenFrom d hf
  have hmet : ∀ name, name ∈ parameterNames f.parameters ↔ name ∈ parameterNames f.placeholders := fun name =>
    ⟨fun hname => map_subset _ (fun p hp => (hwritten.met p).2 hp) hname,
      fun hname => map_subset _ (fun p hp => (hwritten.met p).1 hp) hname⟩
  have hnames : ∀ name, name ∈ parameterNames (firstOfName f.parameters) ↔ name ∈ parameterNames f.placeholders :=
    fun name => mem_parameterNames_firstOfName.trans (hmet name)
  have hnodup := nodup_names_firstOfName f.parameters
  exact ⟨f, hf, rfl, hwritten.origin, hnodup, fun name => (hnames name).trans Fragment.mem_names_placeholders,
    fun hd p _ => by rw [hd, Token.text, Dialect.placeholder], fun _ => Fragment.numberedBy_of_names hnodup hnames⟩

namespace Sample

/-- Grades from a captured one on become a bonus above that one. The condition is met first and written last. -/
def raise : Statement :=
  let low : Node := .parameter "low" (.int 3)
  { ctes := []
    body := .update
      { target := ⟨1⟩
        select := { Select.empty with
          sources := [⟨⟨1⟩, .table ⟨"Enrollment", ⟨none, "Enrollment"⟩⟩, none, none⟩]
          filter := some (.binary .gtEq (.column ⟨1⟩ "Grade") low) }
        assignments := [("Grade", .binary .plus (.parameter "bonus" (.int 1)) low)] } }

/-- The condition comes first in the list of parameters, and the assignment in the text. -/
theorem raise_lists_placeholders : ∃ r f, raise.render .postgres = .ok r ∧ raise.fragment .postgres = .ok f ∧
    r.sql = "UPDATE \"Enrollment\" AS a1 SET \"Grade\" = $2 + $1 WHERE a1.\"Grade\" >= $1" ∧
    parameterNames f.placeholders = ["bonus", "low", "low"] ∧ parameterNames r.parameters = ["low", "bonus"] ∧
    f.NumberedBy r.parameters := by
  obtain ⟨f, hf, hplaceholders⟩ : ∃ f, raise.fragment .postgres = .ok f ∧
      parameterNames f.placeholders = ["bonus", "low", "low"] := Result.exists_ok (by decide +kernel)
  obtain ⟨r, hr, hsql, hparameters⟩ : ∃ r, raise.render .postgres = .ok r ∧
      r.sql = "UPDATE \"Enrollment\" AS a1 SET \"Grade\" = $2 + $1 WHERE a1.\"Grade\" >= $1" ∧
      parameterNames r.parameters = ["low", "bonus"] := Result.exists_ok (by decide +kernel)
  obtain ⟨f', hf', -, -, -, -, -, hnumbered⟩ := render_lists_placeholders _ _ _ hr
  obtain rfl : f = f' := Except.ok.inj (hf.symm.trans hf')
  exact ⟨r, f, hr, hf, hsql, hplaceholders, hparameters, hnumbered rfl⟩

end Sample

end QueryLowering
