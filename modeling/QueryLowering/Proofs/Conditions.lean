import QueryLowering.Proofs.Evaluation
import QueryLowering.Proofs.Rows

/-!
# Conditions

A condition is built from truth values of a row, comparisons, null tests and membership tests by conjunction,
disjunction and negation. Every condition has a value in SQL, in which negations of tests and double negations are
folded, truth values are compared with true where a condition is due, and a test for membership among no values is a
comparison of two numbers. Its truth, which may be unknown, is that of the condition.

## Main results

* `Sql.Node.truth_condition`, `Sql.Node.truth_negation`: what is folded keeps its truth.
* `condition_truth`: conditions are lowered, and their truth is kept.
-/

namespace QueryLowering

open Sql Lower

variable {op : BinaryOp} {sqlOp : BinaryOperator} {method : Method} {l n r : Node} {ty : Ty} {m : Scalars}
variable {v w : Literal} {schema : Schema} {sc : Scope} {e item values : Expr} {ws : List Literal} {name : String}
variable {i j : Nat} {negated : Bool}

/-! ## Truth in SQL -/

namespace Sql

/-- Values for the columns of data sources. -/
abbrev Assignment : Type := Alias → String → Literal

/-- Whether a value is among others: the disjunction of the equalities, of which some may be unknown. -/
def Scalars.among (m : Scalars) (v : Literal) (ws : List Literal) : Option Bool :=
  ws.foldr (fun w found => disjoin (m.truth (.compared m.same v w)) found) (some false)

/-- Whether the equality of a database tells whole numbers apart. -/
def Scalars.TellsIntegers (m : Scalars) : Prop := ∀ a b, m.same (.int a) (.int b) = (a == b)

/-- The truth of a test or of its negation. -/
def signed (negated : Bool) (t : Option Bool) : Option Bool := if negated then t.map not else t

theorem signed_not (negated : Bool) (t : Option Bool) : signed (!negated) t = (signed negated t).map not := by
  cases negated <;> cases t <;> simp [signed]

namespace Node

/-- The literal that a node is. -/
def literal? : Node → Option Literal
  | literal l => some l
  | _ => none

/-- The value of an expression for given values of the columns. -/
def valueIn? (m : Scalars) (ρ : Assignment) : Node → Option Literal
  | .literal l => some l
  | .column a name => some (ρ a name)
  | .binary op left right => do m.binary op (← left.valueIn? m ρ) (← right.valueIn? m ρ)
  | .unary .not e => (e.valueIn? m ρ).map m.negation
  | .isNull e negated => (e.valueIn? m ρ).map fun v => .bool (v.isNull != negated)
  | .inValues e vs negated => do
    return .ofTruth (signed negated (m.among (← e.valueIn? m ρ) (← vs.mapM literal?)))
  | _ => none

variable {ρ : Assignment} {left right : Node}

theorem valueIn?_binary {op : BinaryOperator} (hleft : left.valueIn? m ρ = some v)
    (hright : right.valueIn? m ρ = some w) : (binary op left right).valueIn? m ρ = m.binary op v w := by
  change ((left.valueIn? m ρ).bind fun v => (right.valueIn? m ρ).bind (m.binary op v)) = _
  rw [hleft, hright]
  rfl

/-- A value in the place of a condition keeps its truth. -/
theorem truth_condition (hv : n.valueIn? m ρ = some v) :
    ∃ w, n.condition.valueIn? m ρ = some w ∧ m.truth w = m.truth v := by
  unfold condition
  split
  · exact ⟨v, hv, rfl⟩
  · refine ⟨_, valueIn?_binary hv rfl, ?_⟩
    rw [Scalars.compared_true, Scalars.truth_ofTruth]

/-- The negation of a condition, in whichever form it is written, has the opposite truth. -/
theorem truth_negation (hv : n.valueIn? m ρ = some v) :
    ∃ w, n.negation.valueIn? m ρ = some w ∧ m.truth w = (m.truth v).map not := by
  unfold negation
  split
  · next e negated =>
    obtain ⟨x, hx, rfl⟩ := Option.map_eq_some_iff.1 hv
    refine ⟨.bool (x.isNull != !negated), by simp [valueIn?, hx], ?_⟩
    have htruth : ∀ b, m.truth (.bool b) = some b := fun b => m.truth_ofTruth (some b)
    rw [htruth, htruth]
    simp
  · next e vs negated =>
    simp only [valueIn?, Option.bind_eq_bind, Option.bind_eq_some_iff, Option.pure_def, Option.some.injEq] at hv ⊢
    obtain ⟨x, hx, ws, hws, rfl⟩ := hv
    refine ⟨_, ⟨x, hx, ws, hws, rfl⟩, ?_⟩
    rw [Scalars.truth_ofTruth, Scalars.truth_ofTruth, signed_not]
  · next e =>
    -- two negations cancel
    obtain ⟨x, hx, rfl⟩ := Option.map_eq_some_iff.1 hv
    refine ⟨x, hx, ?_⟩
    rw [Scalars.negation, Scalars.truth_ofTruth]
    cases m.truth x <;> simp
  · obtain ⟨w, hw, htruth⟩ := truth_condition hv
    refine ⟨m.negation w, by simp [valueIn?, hw], ?_⟩
    rw [Scalars.negation, Scalars.truth_ofTruth, htruth]

/-- Whether a node is a single value of a row, and stays one if negations are removed. -/
def isTest : Node → Bool
  | .literal _ | .column .. | .binary .. | .isNull .. | .inValues .. => true
  | .unary .not e => e.isTest
  | _ => false

theorem asScalar_of_isTest (hn : n.isTest = true) : n.asScalar = n := by
  cases n with
  | derived => cases hn
  | _ => rfl

theorem isMultiColumn_of_isTest (hn : n.isTest = true) : n.isMultiColumn = false := by
  cases n with
  | composite | source => cases hn
  | _ => rfl

theorem isTest_condition (hn : n.isTest = true) : n.condition.isTest = true := by
  unfold condition
  split
  · exact hn
  · rfl

theorem isTest_negation (hn : n.isTest = true) : n.negation.isTest = true := by
  unfold negation
  split
  · rfl
  · rfl
  · exact hn
  · exact isTest_condition hn

end Node

end Sql

/-! ## Conditions of expressions -/

/-- Whether a value is a single one. -/
def Value.isSingle : Value → Bool
  | .list _ | .record _ | .table _ => false
  | _ => true

namespace Expr

/-- The value of an operand, for given values of the members of rows. -/
def operandValue (row : String → String → Literal) : Expr → Literal
  | member (some (parameter x)) name _ => row x.name name
  | constant v _ => .ofValue v
  | _ => .null

/-- The values of a list of constants. -/
def listedValues : Expr → List Literal
  | constant (.list vs) _ => vs.map .ofValue
  | array _ items => items.map (operandValue fun _ _ => .null)
  | _ => []

/-- The truth of a comparison. An equality or inequality with the null constant is a null test of the other side. -/
def comparisonTruth (m : Scalars) (row : String → String → Literal) (op : BinaryOp) (left right : Expr) : Option Bool :=
  let v := left.operandValue row
  let w := right.operandValue row
  if isEqualityTest op && right.isNullConstant then some (v.isNull != (op == .notEqual))
  else if isEqualityTest op && left.isNullConstant then some (w.isNull != (op == .notEqual))
  else m.truth (m.operate op v w)

/-- The truth of a condition, for given values of the members of rows. -/
def truth (m : Scalars) (row : String → String → Literal) : Expr → Option Bool
  | binary .andAlso left right _ => conjoin (left.truth m row) (right.truth m row)
  | binary .orElse left right _ => disjoin (left.truth m row) (right.truth m row)
  | binary op left right _ => comparisonTruth m row op left right
  | unary .not e _ => (e.truth m row).map not
  | inValues item values negated => signed negated (m.among (item.operandValue row) values.listedValues)
  | call _ none [values, item] _ => m.among (item.operandValue row) values.listedValues
  | call _ (some values) [item] _ => m.among (item.operandValue row) values.listedValues
  | e => m.truth (e.operandValue row)

/-- The operands: members of rows that are known, and constants. -/
inductive IsOperand (known : String → String → Prop) : Expr → Prop
  | member {x : Param} {name : String} (ty : Ty) (hty : x.ty.isRecord = true) (hname : known x.name name) :
      IsOperand known (member (some (parameter x)) name ty)
  | constant {v : Value} (ty : Ty) (hv : v.isSingle = true) : IsOperand known (constant v ty)

/-- The lists of constants. -/
inductive IsListing : Expr → Prop
  | constant {vs : List Value} (ty : Ty) (hvs : ∀ v ∈ vs, v.isSingle = true) : IsListing (constant (.list vs) ty)
  | array {items : List Expr} (element : Ty) (hitems : ∀ e ∈ items, ∃ v ty, e = .constant v ty ∧ v.isSingle = true) :
      IsListing (array element items)

/-- The conditions: truth values of rows, comparisons, null tests and membership tests, their conjunctions, disjunctions
and negations. -/
inductive IsCondition (known : String → String → Prop) : Expr → Prop
  | member {x : Param} {name : String} (ty : Ty) (hty : x.ty.isRecord = true) (hname : known x.name name) :
      IsCondition known (member (some (parameter x)) name ty)
  | comparison {op : BinaryOp} {left right : Expr} (ty : Ty) (hop : op.isComparison = true)
      (hleft : left.IsOperand known) (hright : right.IsOperand known) : IsCondition known (binary op left right ty)
  | conjunction {left right : Expr} (ty : Ty) (hleft : IsCondition known left) (hright : IsCondition known right) :
      IsCondition known (binary .andAlso left right ty)
  | disjunction {left right : Expr} (ty : Ty) (hleft : IsCondition known left) (hright : IsCondition known right) :
      IsCondition known (binary .orElse left right ty)
  | negation {e : Expr} (ty : Ty) (he : IsCondition known e) : IsCondition known (unary .not e ty)
  | inValues {item values : Expr} (negated : Bool) (hitem : item.IsOperand known) (hvalues : values.IsListing) :
      IsCondition known (inValues item values negated)
  | contains {method : Method} {item values : Expr} (ty : Ty) (hmethod : Operator.ofMethod? method = some .contains)
      (hitem : item.IsOperand known) (hvalues : values.IsListing) :
      IsCondition known (call method none [values, item] ty)
  | containsOf {method : Method} {item values : Expr} (ty : Ty) (hname : method.name = "Contains")
      (htype : method.declaringType ≠ "String") (hitem : item.IsOperand known) (hvalues : values.IsListing) :
      IsCondition known (call method (some values) [item] ty)

end Expr

/-- The column that a member of the row a parameter is bound to is. -/
def Scope.column? (schema : Schema) (sc : Scope) (x name : String) : Option (Alias × String) :=
  (sc.lookup? x).bind fun n =>
    match sc.resolveMember schema n name with
    | .ok (.column a column) => some (a, column)
    | _ => none

/-- The values of the members of rows, for given values of the columns. -/
def Scope.memberValues (schema : Schema) (sc : Scope) (ρ : Assignment) (x name : String) : Literal :=
  match sc.column? schema x name with
  | some (a, column) => ρ a column
  | none => .null

variable {left right : Expr}

/-! ## Operands and lists -/

theorem Scope.column?_eq_some {x : String} {a : Alias} {column : String}
    (h : sc.column? schema x name = some (a, column)) :
    ∃ n, sc.lookup? x = some n ∧ sc.resolveMember schema n name = .ok (.column a column) := by
  obtain ⟨n, hn, h⟩ := Option.bind_eq_some_iff.1 h
  refine ⟨n, hn, ?_⟩
  split at h
  · next hcolumn =>
    cases h
    exact hcolumn
  · cases h

/-- A member of a row has the value that it resolves to. -/
theorem evaluates_member {x : Param} {target : Node} (ty : Ty) (hty : x.ty.isRecord = true)
    (hx : sc.lookup? x.name = some target) (hn : sc.resolveMember schema target name = .ok n) :
    Evaluates schema sc (.member (some (.parameter x)) name ty) n := by
  refine evaluates_of_isPure (Expr.rule_member rfl name ty) rfl (.cons (evaluates_parameter hx) .nil) fun cx hcx => ?_
  have hinterval : intervalMember? target name = none := by
    cases target with
    | dateDiff => cases hn
    | _ => rfl
  simp only [Rule.finish, yields_bind, yields_part]
  refine ⟨target, cx, ⟨rfl, rfl⟩, ?_⟩
  rw [Expr.ty, Lower.member, typedMember?_eq_none hty, hinterval]
  exact yields_look.2 ⟨by rw [hcx]; exact hn, rfl⟩

theorem Value.ofValue_of_isSingle {v : Value} (hv : v.isSingle = true) :
    Node.ofValue v = .ok (.literal (.ofValue v)) := by
  cases v with
  | list | record | table => cases hv
  | _ => rfl

theorem Value.ofValues_of_isSingle {vs : List Value} (hvs : ∀ v ∈ vs, v.isSingle = true) :
    Node.ofValues vs = .ok ((vs.map Literal.ofValue).map .literal) := by
  induction vs with
  | nil => rfl
  | cons v vs ih =>
    rw [List.forall_mem_cons] at hvs
    rw [Node.ofValues, ofValue_of_isSingle hvs.1, ih hvs.2]
    rfl

/-- An operand has a value, which is null as a literal only if the operand is the null constant. -/
theorem Expr.IsOperand.evaluates (he : e.IsOperand fun x name => (sc.column? schema x name).isSome) :
    ∃ n, Evaluates schema sc e n ∧ n.isTest = true ∧ n.isNullLiteral = e.isNullConstant ∧
      ∀ m ρ, n.valueIn? m ρ = some (e.operandValue (sc.memberValues schema ρ)) := by
  cases he with
  | @member x name ty hty hname =>
    obtain ⟨⟨a, column⟩, hcolumn⟩ := Option.isSome_iff_exists.1 hname
    obtain ⟨target, hx, hn⟩ := Scope.column?_eq_some hcolumn
    refine ⟨.column a column, evaluates_member ty hty hx hn, rfl, rfl, fun m ρ => ?_⟩
    rw [Expr.operandValue, Scope.memberValues, hcolumn]
    rfl
  | @constant v ty hv =>
    refine ⟨_, evaluates_constant ty (Value.ofValue_of_isSingle hv), rfl, ?_, fun m ρ => rfl⟩
    cases v with
    | list | record | table => cases hv
    | _ => rfl

/-- A list of constants has the list of their literals as its value. -/
theorem Expr.IsListing.evaluates (he : e.IsListing) : Evaluates schema sc e (.list (e.listedValues.map .literal)) := by
  cases he with
  | @constant vs ty hvs =>
    refine evaluates_constant ty ?_
    rw [Node.ofValue, Value.ofValues_of_isSingle hvs]
    rfl
  | @array items element hitems =>
    have hparts : List.Forall₂ (Evaluates schema sc) items
        ((items.map (Expr.operandValue fun _ _ => .null)).map .literal) := by
      rw [List.map_map, List.forall₂_map_right_iff, List.forall₂_same]
      intro item hitem
      obtain ⟨v, ty, rfl, hv⟩ := hitems item hitem
      exact evaluates_constant ty (Value.ofValue_of_isSingle hv)
    refine evaluates_of_isPure (r := .construct) rfl rfl hparts fun cx _ => ?_
    rw [Rule.finish, List.map_map]
    exact yields_pure.2 ⟨rfl, rfl⟩

/-! ## Membership tests -/

/-- A membership test has the truth of the disjunction of the equalities, or its negation. -/
theorem Sql.Node.truth_membership (hm : m.TellsIntegers) {ρ : Assignment}
    (hv : n.valueIn? m ρ = some v) (ws : List Literal) (negated : Bool) :
    ∃ w, (Node.membership n (ws.map .literal) negated).valueIn? m ρ = some w ∧
      m.truth w = signed negated (m.among v ws) := by
  cases ws with
  | nil =>
    refine ⟨_, rfl, ?_⟩
    have htruth : m.truth (.compared m.same (.int 1) (.int (if negated then 1 else 0))) =
        some (m.same (.int 1) (.int (if negated then 1 else 0))) := m.truth_ofTruth (some _)
    rw [htruth, hm]
    cases negated <;> rfl
  | cons w ws =>
    have hliterals : ∀ ws : List Literal, (ws.map Node.literal).mapM Node.literal? = some ws := by
      intro ws
      induction ws with
      | nil => rfl
      | cons w ws ih => rw [List.map_cons, List.mapM_cons, ih]; rfl
    refine ⟨.ofTruth (signed negated (m.among v (w :: ws))), ?_, m.truth_ofTruth _⟩
    change ((n.valueIn? m ρ).bind fun v => (((w :: ws).map Node.literal).mapM Node.literal?).bind fun ws =>
      some (Literal.ofTruth (signed negated (m.among v ws)))) = _
    rw [hv, hliterals]
    rfl

theorem Expr.IsListing.isValueCollection (h : values.IsListing) : isValueCollection values = true := by
  cases h <;> rfl

/-- A call that is a membership test is lowered as one, unless it is an operator on a group. -/
theorem rule_membership {receiver : Option Expr} {args : List Expr} {r : Rule}
    (hgroup : groupRule? (.call method receiver args ty) = none)
    (hmember : membershipRule? (.call method receiver args ty) = some r) :
    Expr.rule? (.call method receiver args ty) = some r := by
  unfold Expr.rule? Recognizer.standard
  simp only [List.findSome?_cons, hgroup, hmember]
  rfl

theorem rule_contains (hmethod : Operator.ofMethod? method = some .contains) (hvalues : values.IsListing) :
    Expr.rule? (.call method none [values, item] ty) = some (.membership 1 0 false) :=
  rule_membership (groupRule?_eq_none hmethod rfl fun h => absurd h (by decide))
    (if_pos ⟨hmethod, hvalues.isValueCollection⟩)

theorem rule_containsOf (hname : method.name = "Contains")
    (htype : method.declaringType ≠ "String") (hvalues : values.IsListing) :
    Expr.rule? (.call method (some values) [item] ty) = some (.membership 1 0 false) :=
  rule_membership rfl (if_pos ⟨hname, htype, hvalues.isValueCollection⟩)

/-- A membership test among constants has a value, by whichever rule it is recognized. -/
theorem evaluates_membership {ns : List Node} (hrule : e.rule? = some (.membership i j negated))
    (hparts : List.Forall₂ (Evaluates schema sc) e.children ns) (hi : ns[i]? = some n)
    (hj : ns[j]? = some (.list (ws.map .literal))) :
    Evaluates schema sc e (.membership n.asScalar (ws.map .literal) negated) := by
  refine evaluates_of_isPure hrule rfl hparts fun cx _ => ?_
  simp only [Rule.finish, yields_bind, yields_part, yields_ofResult]
  exact ⟨n, cx, ⟨hi, rfl⟩, _, cx, ⟨hj, rfl⟩, rfl, rfl⟩

/-! ## Comparisons and connectives -/

/-- A comparison of single values is the operation on their values. -/
theorem evaluates_comparison (ty : Ty) (hop : op.isComparison = true)
    (hleft : Evaluates schema sc left l) (hright : Evaluates schema sc right r) (hl : l.isTest = true)
    (hr : r.isTest = true) : ∃ sqlOp, plainOperator? op = some sqlOp ∧
      Evaluates schema sc (.binary op left right ty) (.operation sqlOp l r) := by
  obtain ⟨sqlOp, hsql, hplain⟩ : ∃ sqlOp, plainOperator? op = some sqlOp ∧ sqlOp ≠ .and ∧ sqlOp ≠ .or ∧
      op ≠ .coalesce ∧ op ≠ .subtract ∧ sqlOperator? op ty left.ty right.ty = some sqlOp := by
    cases op with
    | equal | notEqual | lessThan | lessThanOrEqual | greaterThan | greaterThanOrEqual =>
      exact ⟨_, rfl, by decide, by decide, by decide, by decide, rfl⟩
    | _ => cases hop
  obtain ⟨hand, hor, hcoalesce, hsubtract, hoperator⟩ := hplain
  refine ⟨sqlOp, hsql, evaluates_of_isPure (r := .binary) rfl rfl (.cons hleft (.cons hright .nil)) fun cx _ => ?_⟩
  simp only [Rule.finish, yields_bind, yields_part]
  refine ⟨l, cx, ⟨rfl, rfl⟩, r, cx, ⟨rfl, rfl⟩, ?_⟩
  simp only [Lower.binary, Node.asScalar_of_isTest hl, Node.asScalar_of_isTest hr,
    Node.isMultiColumn_of_isTest hl, Node.isMultiColumn_of_isTest hr, Bool.or_self, Bool.and_false,
    Bool.false_eq_true, ↓reduceIte, hcoalesce, hsubtract, false_and, hoperator, connected, hand, hor, or_self, yields_pure,
    and_self]

/-- A conjunction or disjunction is the one of its sides in the place of conditions. -/
theorem evaluates_connective (ty : Ty)
    (hop : op = .andAlso ∧ sqlOp = .and ∨ op = .orElse ∧ sqlOp = .or) (hleft : Evaluates schema sc left l)
    (hright : Evaluates schema sc right r) (hl : l.isTest = true) (hr : r.isTest = true) :
    Evaluates schema sc (.binary op left right ty) (.binary sqlOp l.condition r.condition) := by
  refine evaluates_of_isPure (r := .binary) rfl rfl (.cons hleft (.cons hright .nil)) fun cx _ => ?_
  simp only [Rule.finish, yields_bind, yields_part]
  refine ⟨l, cx, ⟨rfl, rfl⟩, r, cx, ⟨rfl, rfl⟩, ?_⟩
  obtain ⟨rfl, rfl⟩ | ⟨rfl, rfl⟩ := hop <;>
    simp [Lower.binary, Node.asScalar_of_isTest hl, Node.asScalar_of_isTest hr, isEqualityTest, sqlOperator?,
      plainOperator?, connected, Node.operation, Node.isEquality]

theorem evaluates_not (ty : Ty) (he : Evaluates schema sc e n) (hn : n.isTest = true) :
    Evaluates schema sc (.unary .not e ty) n.negation := by
  refine evaluates_of_isPure (r := .unary) rfl rfl (.cons he .nil) fun cx _ => ?_
  simp only [Rule.finish, yields_bind, yields_part, yields_pure, Lower.unary]
  exact ⟨n, cx, ⟨rfl, rfl⟩, by rw [Node.asScalar_of_isTest hn], rfl⟩

/-- A comparison in SQL has the truth of the comparison, be it one with the null constant or not. -/
theorem truth_operation {ρ : Assignment} {row : String → String → Literal} (hop : op.isComparison = true)
    (hsql : plainOperator? op = some sqlOp)
    (hl : l.isNullLiteral = left.isNullConstant) (hr : r.isNullLiteral = right.isNullConstant)
    (hv : l.valueIn? m ρ = some (left.operandValue row)) (hw : r.valueIn? m ρ = some (right.operandValue row)) :
    ∃ x, (Node.operation sqlOp l r).valueIn? m ρ = some x ∧ m.truth x = Expr.comparisonTruth m row op left right := by
  have hequality : Node.isEquality sqlOp = isEqualityTest op ∧ (sqlOp == .notEq) = (op == .notEqual) ∧
      m.binary sqlOp (left.operandValue row) (right.operandValue row) =
        some (m.operate op (left.operandValue row) (right.operandValue row)) := by
    cases op with
    | equal | notEqual | lessThan | lessThanOrEqual | greaterThan | greaterThanOrEqual =>
      cases hsql
      exact ⟨rfl, rfl, rfl⟩
    | _ => cases hop
  obtain ⟨htest, hnotEqual, hbinary⟩ := hequality
  have htruth : ∀ b, m.truth (.bool b) = some b := fun b => m.truth_ofTruth (some b)
  simp only [Node.operation, Expr.comparisonTruth, htest, hnotEqual, hl, hr]
  split
  · exact ⟨_, by rw [Node.valueIn?, hv]; rfl, htruth _⟩
  · split
    · exact ⟨_, by rw [Node.valueIn?, hw]; rfl, htruth _⟩
    · exact ⟨_, (Node.valueIn?_binary hv hw).trans hbinary, rfl⟩

/-- A node is the value of a condition and has its truth. -/
structure Tells (schema : Schema) (sc : Scope) (e : Expr) (n : Node) : Prop where
  evaluates : Evaluates schema sc e n
  isTest : n.isTest = true
  truth : ∀ m : Scalars, m.TellsIntegers → ∀ ρ,
    ∃ v, n.valueIn? m ρ = some v ∧ m.truth v = e.truth m (sc.memberValues schema ρ)

theorem tells_comparison (ty : Ty) (hop : op.isComparison = true)
    (hleft : left.IsOperand fun x name => (sc.column? schema x name).isSome)
    (hright : right.IsOperand fun x name => (sc.column? schema x name).isSome) :
    ∃ n, Tells schema sc (.binary op left right ty) n := by
  obtain ⟨l, hl, hlsingle, hlnull, hlvalue⟩ := hleft.evaluates
  obtain ⟨r, hr, hrsingle, hrnull, hrvalue⟩ := hright.evaluates
  obtain ⟨sqlOp, hsql, hn⟩ := evaluates_comparison ty hop hl hr hlsingle hrsingle
  refine ⟨_, hn, ?_, fun m _ ρ => ?_⟩
  · unfold Node.operation
    split
    · rfl
    · split <;> rfl
  · have htruth : (Expr.binary op left right ty).truth m (sc.memberValues schema ρ) =
        Expr.comparisonTruth m (sc.memberValues schema ρ) op left right := by
      cases op with
      | andAlso | orElse => cases hop
      | _ => rfl
    rw [htruth]
    exact truth_operation hop hsql hlnull hrnull (hlvalue m ρ) (hrvalue m ρ)

theorem tells_connective (ty : Ty)
    (hop : op = .andAlso ∧ sqlOp = .and ∨ op = .orElse ∧ sqlOp = .or) (hleft : Tells schema sc left l)
    (hright : Tells schema sc right r) :
    Tells schema sc (.binary op left right ty) (.binary sqlOp l.condition r.condition) := by
  refine ⟨evaluates_connective ty hop hleft.evaluates hright.evaluates hleft.isTest hright.isTest, rfl, fun m hm ρ => ?_⟩
  obtain ⟨v, hv, hvtruth⟩ := hleft.truth m hm ρ
  obtain ⟨w, hw, hwtruth⟩ := hright.truth m hm ρ
  obtain ⟨v', hv', hvcondition⟩ := Node.truth_condition hv
  obtain ⟨w', hw', hwcondition⟩ := Node.truth_condition hw
  obtain ⟨rfl, rfl⟩ | ⟨rfl, rfl⟩ := hop
  · refine ⟨_, Node.valueIn?_binary hv' hw', ?_⟩
    rw [Scalars.both, Scalars.truth_ofTruth, hvcondition, hwcondition, hvtruth, hwtruth, Expr.truth]
  · refine ⟨_, Node.valueIn?_binary hv' hw', ?_⟩
    rw [Scalars.either, Scalars.truth_ofTruth, hvcondition, hwcondition, hvtruth, hwtruth, Expr.truth]

theorem tells_not (ty : Ty) (he : Tells schema sc e n) : Tells schema sc (.unary .not e ty) n.negation := by
  refine ⟨evaluates_not ty he.evaluates he.isTest, Node.isTest_negation he.isTest, fun m hm ρ => ?_⟩
  obtain ⟨v, hv, htruth⟩ := he.truth m hm ρ
  obtain ⟨w, hw, hnegation⟩ := Node.truth_negation hv
  exact ⟨w, hw, by rw [hnegation, htruth, Expr.truth]⟩

/-- The membership tests differ in the places of the item and of the values. -/
theorem tells_membership (hrule : e.rule? = some (.membership i j negated))
    (hchildren : e.children = [item, values] ∧ i = 0 ∧ j = 1 ∨ e.children = [values, item] ∧ i = 1 ∧ j = 0)
    (hitem : item.IsOperand fun x name => (sc.column? schema x name).isSome) (hvalues : values.IsListing)
    (htruth : ∀ m row, e.truth m row = signed negated (m.among (item.operandValue row) values.listedValues)) :
    ∃ n, Tells schema sc e n := by
  obtain ⟨n, hn, hsingle, -, hvalue⟩ := hitem.evaluates
  have heval : Evaluates schema sc e (.membership n.asScalar (values.listedValues.map .literal) negated) := by
    obtain ⟨hchildren, rfl, rfl⟩ | ⟨hchildren, rfl, rfl⟩ := hchildren
    · have hparts : List.Forall₂ (Evaluates schema sc) e.children [n, .list (values.listedValues.map .literal)] :=
        hchildren ▸ .cons hn (.cons hvalues.evaluates .nil)
      exact evaluates_membership hrule hparts rfl rfl
    · have hparts : List.Forall₂ (Evaluates schema sc) e.children [.list (values.listedValues.map .literal), n] :=
        hchildren ▸ .cons hvalues.evaluates (.cons hn .nil)
      exact evaluates_membership hrule hparts rfl rfl
  rw [Node.asScalar_of_isTest hsingle] at heval
  refine ⟨_, heval, ?_, fun m hm ρ => ?_⟩
  · unfold Node.membership
    split <;> rfl
  · rw [htruth]
    exact Node.truth_membership hm (hvalue m ρ) _ _

/-- The value of a condition, by induction over it. -/
theorem Expr.IsCondition.tells (he : e.IsCondition fun x name => (sc.column? schema x name).isSome) :
    ∃ n, Tells schema sc e n := by
  induction he with
  | member ty hty hname =>
    obtain ⟨n, hn, hsingle, -, hvalue⟩ := (IsOperand.member ty hty hname).evaluates
    exact ⟨n, hn, hsingle, fun m _ ρ => ⟨_, hvalue m ρ, rfl⟩⟩
  | comparison ty hop hleft hright => exact tells_comparison ty hop hleft hright
  | conjunction ty _ _ ihl ihr =>
    obtain ⟨l, hl⟩ := ihl
    obtain ⟨r, hr⟩ := ihr
    exact ⟨_, tells_connective ty (.inl ⟨rfl, rfl⟩) hl hr⟩
  | disjunction ty _ _ ihl ihr =>
    obtain ⟨l, hl⟩ := ihl
    obtain ⟨r, hr⟩ := ihr
    exact ⟨_, tells_connective ty (.inr ⟨rfl, rfl⟩) hl hr⟩
  | negation ty _ ih =>
    obtain ⟨n, hn⟩ := ih
    exact ⟨_, tells_not ty hn⟩
  | inValues negated hitem hvalues =>
    exact tells_membership rfl (.inl ⟨rfl, rfl, rfl⟩) hitem hvalues fun _ _ => rfl
  | contains ty hmethod hitem hvalues =>
    exact tells_membership (rule_contains hmethod hvalues) (.inr ⟨rfl, rfl, rfl⟩) hitem hvalues fun _ _ => rfl
  | containsOf ty hname htype hitem hvalues =>
    exact tells_membership (rule_containsOf hname htype hvalues) (.inr ⟨rfl, rfl, rfl⟩) hitem hvalues fun _ _ => rfl

/-- **Conditions keep their truth.** In a scope in which the members that it reads are columns, every condition is
lowered, wherever it stands, and lowering it leaves the context as it is. Whatever the columns hold, its value has the
truth of the condition in the place of one, which may be unknown. -/
theorem condition_truth (he : e.IsCondition fun x name => (sc.column? schema x name).isSome) :
    ∃ n, (∀ chained index cx, cx.scope = sc → Yields schema (e.visit Recognizer.standard chained index) cx n cx) ∧
      ∀ m : Scalars, m.TellsIntegers → ∀ ρ,
        (n.condition.valueIn? m ρ).map m.truth = some (e.truth m (sc.memberValues schema ρ)) := by
  obtain ⟨n, hn⟩ := he.tells
  refine ⟨n, hn.evaluates, fun m hm ρ => ?_⟩
  obtain ⟨v, hv, htruth⟩ := hn.truth m hm ρ
  obtain ⟨w, hw, hcondition⟩ := Node.truth_condition hv
  rw [hw, Option.map_some, hcondition, htruth]

namespace Sample

/-- A scope in which `x` is a student. -/
def studentScope : Scope := ⟨[("x", .source ⟨1⟩)], [(⟨1⟩, .entity "Student")], ⟨1⟩⟩

/-- Whether a student is active and takes none of two courses. -/
def elsewhere : Expr :=
  let x : Expr := .parameter ⟨"x", .entity "Student"⟩
  .binaryOf .andAlso (x.memberOf "IsActive" .bool)
    (.notOf (.containsOf (.constantOf (.list [.int 1, .int 2])) (x.memberOf "CourseId" .int)))

/-- An active student who takes a course. -/
def enrolledIn (course : Literal) : Assignment := fun _ column => if column = "CourseId" then course else .bool true

theorem isCondition_elsewhere :
    elsewhere.IsCondition fun x name => (studentScope.column? studentSchema x name).isSome :=
  .conjunction _ (.member _ rfl rfl) (.negation _ (.contains _ rfl (.member _ rfl rfl) (.constant _ fun v hv => by
      rcases List.mem_cons.1 hv with rfl | hv
      · rfl
      · rw [List.mem_singleton.1 hv]
        rfl)))

/-- Of a student of the third course it is true that the student takes none of the first two, and of one of whom no
course is known it is unknown. -/
theorem elsewhere_truth : ∃ n, (∀ chained index cx, cx.scope = studentScope →
      Yields studentSchema (elsewhere.visit Recognizer.standard chained index) cx n cx) ∧
    (n.condition.valueIn? integers (enrolledIn (.int 3))).map integers.truth = some (some true) ∧
    (n.condition.valueIn? integers (enrolledIn .null)).map integers.truth = some none := by
  obtain ⟨n, hn, htruth⟩ := condition_truth isCondition_elsewhere
  have hintegers : integers.TellsIntegers := fun a b => rfl
  refine ⟨n, hn, ?_, ?_⟩
  · rw [htruth integers hintegers]
    decide +kernel
  · rw [htruth integers hintegers]
    decide +kernel

end Sample

end QueryLowering
