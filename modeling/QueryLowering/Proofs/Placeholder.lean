import QueryLowering.Proofs.Written

/-!
# Placeholders and the parameters that they stand for

A statement lists each parameter name once, with the value of the first parameter node of that name
that was met. So a placeholder stands for the value of its own node unless another node has the same
name and another value. Such nodes exist: the pattern of a text search keeps the name of the text that
it is made from.

## Main results

* `standsFor_firstOfName`: a placeholder stands for the value that was met first.
* `placeholders_standFor_iff`: all placeholders of a compiled query stand for the values of their
  nodes if and only if no two of these nodes share a name but not the value.
-/

namespace QueryLowering

open Sql

variable {parameters : List (String × Value)}

/-! ## Numbers -/

/-- A list of parameters gives a name, and the number of that name, a value. -/
structure StandsFor (parameters : List (String × Value)) (name : String) (value : Value) : Prop where
  named : parameters.lookup name = some value
  numbered : parameters[parameterNumber parameters name - 1]? = some (name, value)

theorem standsFor_iff_lookup {name : String} {value : Value} :
    StandsFor parameters name value ↔ parameters.lookup name = some value := by
  refine ⟨StandsFor.named, fun h => ⟨h, ?_⟩⟩
  rw [parameterNumber, Nat.add_sub_cancel]
  induction parameters with
  | nil => simp at h
  | cons p rest ih =>
    obtain ⟨other, v⟩ := p
    by_cases hother : name = other
    · subst hother
      rw [List.lookup_cons_self, Option.some.injEq] at h
      simp [List.findIdx_cons, h]
    · have hne : (other == name) = false := beq_eq_false_iff_ne.2 (Ne.symm hother)
      rw [List.lookup_cons, beq_eq_false_iff_ne.2 hother] at h
      simpa [List.findIdx_cons, hne] using ih h

/-- A list that keeps the first parameter of each name gives every name the same value. -/
theorem lookup_firstOfName (parameters : List (String × Value)) (name : String) :
    (firstOfName parameters).lookup name = parameters.lookup name := by
  have others : ∀ (ps : List (String × Value)) {other : String}, name ≠ other →
      (ps.filter (·.1 != other)).lookup name = ps.lookup name := by
    intro ps other hother
    induction ps with
    | nil => rfl
    | cons p rest ih =>
      obtain ⟨n, v⟩ := p
      by_cases hn : n = other
      · subst hn
        simpa [List.lookup_cons, beq_eq_false_iff_ne.2 hother] using ih
      · simp [List.lookup_cons, hn, ih]
  induction parameters with
  | nil => rfl
  | cons p rest ih =>
    obtain ⟨other, v⟩ := p
    rw [firstOfName, List.lookup_cons, List.lookup_cons]
    by_cases hother : name = other
    · simp [hother]
    · simp only [beq_eq_false_iff_ne.2 hother, others _ hother, ih]

/-- A placeholder stands for the value of the first parameter of its name that was met. -/
theorem standsFor_firstOfName {name : String} {value : Value} :
    StandsFor (firstOfName parameters) name value ↔ parameters.lookup name = some value := by
  rw [standsFor_iff_lookup, lookup_firstOfName]

/-- All parameters stand for their values in the list that keeps the first of each name if and only
if equal names come with equal values. -/
theorem forall_standsFor_firstOfName_iff : (∀ p ∈ parameters, StandsFor (firstOfName parameters) p.1 p.2) ↔
      ∀ p ∈ parameters, ∀ q ∈ parameters, p.1 = q.1 → p.2 = q.2 := by
  simp only [standsFor_firstOfName]
  constructor
  · intro h p hp q hq hname
    have hvalue : some p.2 = some q.2 := by rw [← h p hp, ← h q hq, hname]
    exact Option.some.inj hvalue
  · intro h p hp
    obtain ⟨value, hvalue⟩ := exists_lookup hp
    rw [hvalue, h p hp _ (mem_of_lookup hvalue) rfl]

/-- The placeholders of a compiled query and the parameters listed with it. The text is that of a
fragment whose placeholders come from parameter nodes of the statement. Each placeholder, by its name
as by its number, stands for the value of the first node of its name that was met, so that all stand
for the values of their own nodes exactly if nodes of one name have one value. -/
theorem placeholders_standFor_iff (c : Compiler) (e : Expr) (r : Rendered) (h : c.compile e = .ok r) :
    ∃ (s : Statement) (f : Fragment), c.statement e = .ok s ∧ s.fragment c.options.dialect = .ok f ∧
      r.sql = f.text c.options.dialect r.parameters ∧ f.placeholders ⊆ s.parameterNodes ∧
      (∀ p ∈ f.placeholders, ∃ value, f.parameters.lookup p.1 = some value ∧ StandsFor r.parameters p.1 value) ∧
      ((∀ p ∈ f.placeholders, StandsFor r.parameters p.1 p.2) ↔
        ∀ p ∈ f.placeholders, ∀ q ∈ f.placeholders, p.1 = q.1 → p.2 = q.2) := by
  simp only [Compiler.compile, Statement.render, Result.bind_eq_ok, Result.pure_eq_ok] at h
  obtain ⟨s, hs, f, hf, rfl⟩ := h
  have hwritten := s.fragment_writtenFrom c.options.dialect hf
  refine ⟨s, f, hs, hf, rfl, hwritten.origin, fun p hp => ?_, ?_⟩
  · obtain ⟨value, hvalue⟩ := exists_lookup ((hwritten.met p).1 hp)
    exact ⟨value, hvalue, standsFor_firstOfName.2 hvalue⟩
  · simp only [hwritten.met]
    exact forall_standsFor_firstOfName_iff

/-! ## Nodes that share a name -/

namespace Sample

/-- A compiler that knows students only. -/
def studentCompiler : Compiler := { schema := ⟨[student.toEntity]⟩, options := {} }

/-- The students whose name is a captured text and contains that text. -/
def namedExactly : Expr :=
  ((Query.ofEntity "Student").filter "x" fun x =>
    let name := x.memberOf "Name" .string
    let text := Expr.capturedOf "s" (.string "ab")
    .binaryOf .andAlso (.binaryOf .equal name text)
      (.instanceCall "String" "Contains" name [text] .bool)).expr

/-- A parameter with its value, as far as that is a text. -/
def textOf (p : String × Value) : String × Option String :=
  (p.1, match p.2 with | .string text => some text | _ => none)

/-- The test for equality and the search for a part have placeholders of one name, but the second is
for a pattern. -/
theorem exists_placeholders_namedExactly : ∃ s f, studentCompiler.statement namedExactly = .ok s ∧
    s.fragment studentCompiler.options.dialect = .ok f ∧
    f.placeholders.map textOf = [("s", some "ab"), ("s", some "%ab%")] := by
  have h : (do let s ← studentCompiler.statement namedExactly
               let f ← s.fragment studentCompiler.options.dialect
               pure (f.placeholders.map textOf) : Result _)
      = .ok [("s", some "ab"), ("s", some "%ab%")] := by
    decide +kernel
  simpa only [Result.bind_eq_ok, Result.pure_eq_ok, ← exists_and_left] using h

/-- One of the placeholders for the students of a name does not stand for the value of its node. -/
theorem namedExactly_placeholders : ∃ r s f, studentCompiler.compile namedExactly = .ok r ∧
    studentCompiler.statement namedExactly = .ok s ∧ s.fragment studentCompiler.options.dialect = .ok f ∧
    ¬ ∀ p ∈ f.placeholders, StandsFor r.parameters p.1 p.2 := by
  obtain ⟨s, f, hs, hf, htexts⟩ := exists_placeholders_namedExactly
  have hcompile : studentCompiler.compile namedExactly = .ok
      ⟨f.text studentCompiler.options.dialect (firstOfName f.parameters), firstOfName f.parameters⟩ := by
    simp [Compiler.compile, Statement.render, hs, hf]
  obtain ⟨s', f', hs', hf', -, -, -, hiff⟩ := placeholders_standFor_iff _ _ _ hcompile
  obtain rfl : s = s' := Except.ok.inj (hs.symm.trans hs')
  obtain rfl : f = f' := Except.ok.inj (hf.symm.trans hf')
  refine ⟨_, s, f, hcompile, hs, hf, ?_⟩
  rw [hiff]
  intro hsame
  have mem : ∀ text ∈ [("s", some "ab"), ("s", some "%ab%")], ∃ p ∈ f.placeholders, textOf p = text := by
    intro text htext
    rw [← htexts] at htext
    exact List.mem_map.1 htext
  obtain ⟨p, hp, hptext⟩ := mem ("s", some "ab") (by simp)
  obtain ⟨q, hq, hqtext⟩ := mem ("s", some "%ab%") (by simp)
  have hname : p.1 = q.1 := (congrArg Prod.fst hptext).trans (congrArg Prod.fst hqtext).symm
  have hpq : p = q := Prod.ext hname (hsame p hp q hq hname)
  rw [hpq, hqtext] at hptext
  exact absurd hptext (by decide)

end Sample

end QueryLowering
