import QueryLowering.Proofs.Bodies

/-!
# Expressions that have a value

In every context of a scope, constants, captured variables and what is computed from them and from the parameters of
the scope have a value, and lowering them leaves the context as it is. Other than `Lowers`, which says what a value is
if there is one, `Evaluates` says that there is one.

## Main results

* `evaluates_of_isPure`: the value of a node from the values of its parts.
* `evaluates_leaf`: the value of a node that has no parts.
-/

namespace QueryLowering

open Sql Lower

variable {ns : List Node}

/-- In all contexts of a scope, wherever it stands, an expression has a value and leaves the context as it is. -/
def Evaluates (schema : Schema) (sc : Scope) (e : Expr) (n : Node) : Prop :=
  ∀ chained index cx, cx.scope = sc → Yields schema (e.visit Recognizer.standard chained index) cx n cx

variable {schema : Schema} {sc : Scope} {r : Rule} {e : Expr} {n : Node} {cx : Context}

/-- A value is the same with no parameters bound. -/
theorem Evaluates.withParameters_nil (h : Evaluates schema sc e n) (hcx : cx.scope = sc) (chained : Bool)
    (index : Option Nat) : Yields schema (withParameters [] (e.run chained index)) cx n cx := by
  refine yields_withParameters.2 ⟨cx, ?_, ?_⟩
  · rw [Scope.bind_nil]
    exact h chained index cx hcx
  · rw [Scope.unbindTo, List.take_length]

/-- A node has the value that its rule makes of the parts. -/
theorem evaluates_of_parts (hrule : e.rule? = some r)
    (hquery : r.producesQuery = false) (hparts : ∀ cx, cx.scope = sc → Yields schema
      (lowerParts r {} 0 (e.children.zip (e.children.map Expr.run))) cx ({}, ns) cx)
    (hfinish : ∀ cx, cx.scope = sc → Yields schema (r.finish e {} ns) cx n cx) : Evaluates schema sc e n := by
  intro chained index cx hcx
  refine (yields_visit_iff hrule).2 ⟨{ cx with frames := ⟨r.name, e.kindName, index⟩ :: cx.frames }, ?_, rfl⟩
  simp only [lowerBy, hquery, Bool.false_and, Bool.false_eq_true, ↓reduceIte, yields_bind, yields_pure]
  exact ⟨_, _, hparts _ hcx, n, _, hfinish _ hcx, rfl, rfl⟩

/-- Parts that have values and leave all else as it is, by induction over them. -/
theorem yields_lowerParts {p : Progress} {index : Nat} {es : List Expr} (hes : List.Forall₂ (fun e n => ∀ i, index ≤ i →
      Yields schema (lowerPart r p i e (e.run)) cx (p, n) cx) es ns) :
    Yields schema (lowerParts r p index (es.zip (es.map Expr.run))) cx (p, ns) cx := by
  induction es generalizing index ns with
  | nil =>
    cases hes
    exact yields_pure.2 ⟨rfl, rfl⟩
  | cons e es ih =>
    obtain _ | ⟨he, hes⟩ := hes
    rw [List.map_cons, List.zip_cons_cons]
    simp only [lowerParts, yields_bind, yields_pure]
    exact ⟨_, _, he index (Nat.le_refl index), _, _, ih (hes.imp fun e n h i hi => h i (Nat.le_of_succ_le hi)), rfl, rfl⟩

theorem yields_lowerPart_of_isPure (hr : r.isPure = true) (he : Evaluates schema sc e n) (p : Progress) (index : Nat)
    (hcx : cx.scope = sc) : Yields schema (lowerPart r p index e (e.run)) cx (p, n) cx := by
  simp only [lowerPart, Rule.skipsParts_of_isPure hr, Rule.chains_of_isPure hr, Bool.false_and, Bool.false_eq_true,
    ↓reduceIte, Rule.bindings_of_isPure hr, Rule.receive_of_isPure hr, yields_bind, yields_pure]
  exact ⟨_, _, ⟨rfl, rfl⟩, n, cx, he.withParameters_nil hcx _ _, _, _, ⟨rfl, rfl⟩, rfl, rfl⟩

/-- The value of a node that is lowered by a pure rule is made from the values of its parts. -/
theorem evaluates_of_isPure (hrule : e.rule? = some r) (hr : r.isPure = true)
    (hes : List.Forall₂ (Evaluates schema sc) e.children ns)
    (hfinish : ∀ cx, cx.scope = sc → Yields schema (r.finish e {} ns) cx n cx) : Evaluates schema sc e n :=
  evaluates_of_parts hrule (Rule.producesQuery_of_isPure hr)
    (fun _ hcx => yields_lowerParts (hes.imp fun _ _ he i _ => yields_lowerPart_of_isPure hr he {} i hcx)) hfinish

/-- The value of a node without parts. -/
theorem evaluates_leaf (hrule : e.rule? = some r) (hquery : r.producesQuery = false) (hchildren : e.children = [])
    (hfinish : ∀ cx, cx.scope = sc → Yields schema (r.finish e {} []) cx n cx) : Evaluates schema sc e n :=
  evaluates_of_parts hrule hquery (fun _ _ => hchildren ▸ yields_pure.2 ⟨rfl, rfl⟩) hfinish

theorem evaluates_constant {v : Value} (ty : Ty) (hv : Node.ofValue v = .ok n) :
    Evaluates schema sc (.constant v ty) n := by
  refine evaluates_leaf (r := .constant) rfl rfl rfl fun cx _ => ?_
  have hconstant : Lower.constant v = ofResult (Node.ofValue v) := by
    cases v with
    | table entity => cases hv
    | _ => rfl
  rw [Rule.finish, hconstant, hv]
  exact yields_ofResult.2 ⟨rfl, rfl⟩

theorem evaluates_captured (name : String) (v : Value) (ty : Ty) (hv : ∀ entity, v ≠ .table entity) :
    Evaluates schema sc (.captured name v ty) (.ofCaptured name v) := by
  refine evaluates_leaf (r := .captured) rfl rfl rfl fun cx _ => ?_
  have hvalue : (Expr.captured name v ty).evaluate = .ok v := rfl
  simp only [Rule.finish, Lower.captured, hvalue, yields_bind, yields_ofResult]
  refine ⟨v, cx, ⟨rfl, rfl⟩, ?_⟩
  split
  · exact absurd rfl (hv _)
  · exact yields_pure.2 ⟨rfl, rfl⟩

theorem evaluates_parameter {x : Param} (hx : sc.lookup? x.name = some n) : Evaluates schema sc (.parameter x) n := by
  refine evaluates_leaf (r := .parameter) rfl rfl rfl fun cx hcx => ?_
  simp only [Rule.finish, Lower.parameter, yields_bind, yields_scope, yields_orThrow]
  exact ⟨sc, cx, ⟨hcx, rfl⟩, hx, rfl⟩

end QueryLowering
