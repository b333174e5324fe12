import QueryLowering.Lower.Scalar
import QueryLowering.Proofs.Elements
import QueryLowering.Proofs.Result

/-!
# What nodes stand for

Each row of a data source stands for an element of a list. Then a node stands for a function of that
element: a scalar node has its value on the row, a value of several columns flattens to the columns of
its value, and the members that are found in it stand for the members of its value.

## Main results

* `Sql.Node.value?_condition`, `Sql.Node.value?_negation`: conditions have the truth of their values.
* `Denotes.columns`: what a node flattens to has the single values of what it stands for.
* `Denotes.bind_iff`: what a node stands for does not depend on the parameters in scope.
-/

namespace QueryLowering

open Sql

variable {m : Scalars} {a : Alias} {row : Row} {n left right : Node} {v w : Literal} {schema : Schema} {sc : Scope}

/-! ## Truth values -/

namespace Sql

@[simp]
theorem Scalars.truth_ofTruth (t : Option Bool) : m.truth (.ofTruth t) = t := by
  cases t with
  | none => rfl
  | some b =>
    have h : m.truth (.bool b) = some (m.same (.bool b) (.bool true)) := rfl
    rw [Literal.ofTruth, h, m.same_bool]
    cases b <;> rfl

theorem Scalars.negation_ofTruth (t : Option Bool) : m.negation (.ofTruth t) = .ofTruth (t.map not) := by
  rw [negation, truth_ofTruth]

/-- Whether a value equals true is its truth. -/
theorem Scalars.compared_true (v : Literal) : Literal.compared m.same v (.bool true) = .ofTruth (m.truth v) := by
  cases v <;> rfl

theorem Literal.exists_compared_eq (f : Literal → Literal → Bool) (v w : Literal) :
    ∃ t, Literal.compared f v w = .ofTruth t := by
  unfold compared strict
  split
  · exact ⟨none, rfl⟩
  · exact ⟨some (f v w), rfl⟩

namespace Node

/-! ## Scalar nodes -/

/-- A node that is a single value: a literal, a column, or an operator between such nodes. A negation
is one of a condition. -/
def isScalar : Node → Bool
  | .literal l => !l.isNull
  | .column .. => true
  | .binary _ left right => left.isScalar && right.isScalar
  | .unary .not e => e.isPredicate && e.isScalar
  | .unary .minus e => e.isScalar
  | .isNull e _ => e.isScalar
  | _ => false

theorem asScalar_of_isScalar (hn : n.isScalar = true) : n.asScalar = n := by
  cases n with
  | derived => cases hn
  | _ => rfl

theorem isMultiColumn_of_isScalar (hn : n.isScalar = true) : n.isMultiColumn = false := by
  cases n with
  | composite | source => cases hn
  | _ => rfl

theorem isNullLiteral_of_isScalar (hn : n.isScalar = true) : n.isNullLiteral = false := by
  cases n with
  | literal l =>
    cases l with
    | null => cases hn
    | _ => rfl
  | _ => rfl

theorem isScalar_condition (hn : n.isScalar = true) : n.condition.isScalar = true := by
  unfold condition
  split
  · exact hn
  · exact Bool.and_eq_true_iff.2 ⟨hn, rfl⟩

theorem isScalar_negation (hn : n.isScalar = true) : n.negation.isScalar = true := by
  unfold negation
  split
  · exact hn
  · cases hn
  · exact (Bool.and_eq_true_iff.1 hn).2
  · exact Bool.and_eq_true_iff.2 ⟨isPredicate_condition n, isScalar_condition hn⟩

theorem operation_eq_binary (op : BinaryOperator) (hleft : left.isScalar = true)
    (hright : right.isScalar = true) : operation op left right = binary op left right := by
  unfold operation
  rw [isNullLiteral_of_isScalar hleft, isNullLiteral_of_isScalar hright, Bool.and_false]
  rfl

theorem value?_binary {op : BinaryOperator} (hleft : left.value? m a row = some v)
    (hright : right.value? m a row = some w) : (binary op left right).value? m a row = m.binary op v w := by
  change ((left.value? m a row).bind fun v => (right.value? m a row).bind (m.binary op v)) = _
  rw [hleft, hright]
  rfl

/-- The value of a condition is a truth value. -/
theorem exists_truth_of_isPredicate (hn : n.isPredicate = true) (hv : n.value? m a row = some v) :
    ∃ t, v = .ofTruth t := by
  cases n with
  | binary op left right =>
    obtain ⟨x, -, hv⟩ := Option.bind_eq_some_iff.1 hv
    obtain ⟨y, -, hv⟩ := Option.bind_eq_some_iff.1 hv
    cases op with
    | eq | notEq | lt | ltEq | gt | gtEq =>
      obtain rfl := Option.some.inj hv
      exact Literal.exists_compared_eq ..
    | and | or =>
      obtain rfl := Option.some.inj hv
      exact ⟨_, rfl⟩
    | like => cases hv
    | plus | minus | multiply | divide | modulo | concat => cases hn
  | unary op e =>
    cases op with
    | not =>
      obtain ⟨x, -, rfl⟩ := Option.map_eq_some_iff.1 hv
      exact ⟨_, rfl⟩
    | minus => cases hn
  | isNull e negated =>
    obtain ⟨x, -, rfl⟩ := Option.map_eq_some_iff.1 hv
    exact ⟨some _, rfl⟩
  | inValues | existence => cases hv
  | _ => cases hn

/-- A value in the place of a condition keeps its truth. -/
theorem value?_condition (hv : n.value? m a row = some v) :
    n.condition.value? m a row = some (.ofTruth (m.truth v)) := by
  unfold condition
  split
  · next hn =>
    obtain ⟨t, rfl⟩ := exists_truth_of_isPredicate hn hv
    rw [hv, Scalars.truth_ofTruth]
  · rw [value?_binary hv (w := .bool true) rfl]
    exact congrArg some (m.compared_true v)

/-- The negation of a condition, in whichever form it is written, has the opposite truth. -/
theorem value?_negation (hn : n.isScalar = true) (hv : n.value? m a row = some v) :
    n.negation.value? m a row = some (m.negation v) := by
  unfold negation
  split
  · next e negated =>
    obtain ⟨x, hx, rfl⟩ := Option.map_eq_some_iff.1 hv
    have hflip : m.negation (.bool (x.isNull != negated)) = .bool (!(x.isNull != negated)) :=
      m.negation_ofTruth (some (x.isNull != negated))
    change ((e.value? m a row).map fun v => Literal.bool (v.isNull != !negated)) = _
    rw [hx, hflip]
    simp
  · cases hn
  · next e =>
    -- the two negations cancel because the operand is a condition
    obtain ⟨x, hx, rfl⟩ := Option.map_eq_some_iff.1 hv
    obtain ⟨t, rfl⟩ := exists_truth_of_isPredicate (Bool.and_eq_true_iff.1 hn).1 hx
    rw [hx, Scalars.negation_ofTruth, Scalars.negation_ofTruth]
    cases t <;> simp
  · change (n.condition.value? m a row).map m.negation = _
    rw [value?_condition hv]
    exact congrArg some (m.negation_ofTruth (m.truth v))

end Node

/-- A node without queries inside: a scalar, a whole row, or a value of several columns made of such
nodes below paths that are not empty. -/
inductive Node.IsValue : Node → Prop
  | scalar {n : Node} (hn : n.isScalar = true) : IsValue n
  | source (a : Alias) : IsValue (.source a)
  | composite {entries : List (Path × Node)} (hpaths : ∀ entry ∈ entries, entry.1 ≠ [])
      (hentries : ∀ entry ∈ entries, IsValue entry.2) : IsValue (.composite entries)

theorem Node.IsValue.asScalar_eq (hn : n.IsValue) : n.asScalar = n := by
  cases hn with
  | scalar hn => exact asScalar_of_isScalar hn
  | source a => rfl
  | composite hpaths hentries => rfl

end Sql

/-! ## Shapes and single values -/

namespace Shape

mutual

/-- The paths of the single values of elements of a shape, below a given path. -/
def paths (base : Path) : Shape → List Path
  | scalar => [base]
  | record members => memberPaths base members

/-- The paths of the single values of named members. -/
def memberPaths (base : Path) : List (String × Shape) → List Path
  | [] => []
  | (name, σ) :: rest => paths (base ++ [name]) σ ++ memberPaths base rest

end

/-- Of two members of one name in a record neither is a record, as it may be in the rows of a table. -/
inductive Wf : Shape → Prop
  | scalar : Wf scalar
  | record {members : List (String × Shape)}
      (hnames : members.Pairwise fun p q => p.1 = q.1 → p.2 = .scalar ∧ q.2 = .scalar)
      (hmembers : ∀ p ∈ members, Wf p.2) : Wf (record members)

end Shape

namespace Element

mutual

theorem map_fst_leaves (base : Path) (e : Element) : (e.leaves base).map (·.1) = e.shape.paths base := by
  cases e with
  | scalar v => rfl
  | record members => exact map_fst_memberLeaves base members

theorem map_fst_memberLeaves (base : Path) (members : List (String × Element)) :
    (memberLeaves base members).map (·.1) = Shape.memberPaths base (memberShapes members) := by
  cases members with
  | nil => rfl
  | cons p rest =>
    obtain ⟨name, e⟩ := p
    rw [memberLeaves, memberShapes, Shape.memberPaths, List.map_append, map_fst_leaves, map_fst_memberLeaves]

end

mutual

/-- The single values of an element without their paths. -/
def values : Element → List Literal
  | scalar v => [v]
  | record members => memberValues members

/-- The single values of named members without their paths. -/
def memberValues : List (String × Element) → List Literal
  | [] => []
  | (_, e) :: rest => values e ++ memberValues rest

end

mutual

theorem map_snd_leaves (base : Path) (e : Element) : (e.leaves base).map (·.2) = e.values := by
  cases e with
  | scalar v => rfl
  | record members => exact map_snd_memberLeaves base members

theorem map_snd_memberLeaves (base : Path) (members : List (String × Element)) :
    (memberLeaves base members).map (·.2) = memberValues members := by
  cases members with
  | nil => rfl
  | cons p rest =>
    obtain ⟨name, e⟩ := p
    rw [memberLeaves, memberValues, List.map_append, map_snd_leaves, map_snd_memberLeaves]

end

end Element

namespace Shape

mutual

theorem paths_append (p base : Path) (σ : Shape) : σ.paths (p ++ base) = (σ.paths base).map (p ++ ·) := by
  cases σ with
  | scalar => rfl
  | record members => exact memberPaths_append p base members

theorem memberPaths_append (p base : Path) (members : List (String × Shape)) :
    memberPaths (p ++ base) members = (memberPaths base members).map (p ++ ·) := by
  cases members with
  | nil => rfl
  | cons q rest =>
    obtain ⟨name, σ⟩ := q
    rw [memberPaths, memberPaths, List.map_append, List.append_assoc, paths_append, memberPaths_append]

end

end Shape

/-! ## Flattening scalars -/

namespace Scope

theorem flatten_of_isScalar (base : Path) (hn : n.isScalar = true) : sc.flatten schema base n = .ok [(base, n)] := by
  cases n with
  | literal | column | binary | unary | isNull => rfl
  | _ => cases hn

mutual

theorem flatten_bind (params : List (String × Node)) (base : Path) (n : Node) :
    (sc.bind params).flatten schema base n = sc.flatten schema base n := by
  cases n with
  | composite entries => exact flattenEntries_bind params base entries
  | grouping key element => exact flatten_bind params base key
  | _ => rfl

theorem flattenEntries_bind (params : List (String × Node)) (base : Path) (entries : List (Path × Node)) :
    (sc.bind params).flattenEntries schema base entries = sc.flattenEntries schema base entries := by
  cases entries with
  | nil => rfl
  | cons entry rest =>
    obtain ⟨p, n⟩ := entry
    rw [flattenEntries, flattenEntries, flatten_bind, flattenEntries_bind]

end

end Scope

/-! ## What nodes stand for -/

/-- Which rows of a data source stand for which elements. -/
abbrev Standing : Type := Scalars → Row → Element → Prop

/-- A function of elements that depends on what the operators between scalars mean. -/
abbrev View : Type := Scalars → Element → Element

/-- Scalar nodes at the paths of a shape have the single values of what a function gives. -/
structure Columns (a : Alias) (S : Standing) (base : Path) (leaves : List (Path × Node)) (σ : Shape)
    (f : View) : Prop where
  paths : leaves.map (·.1) = σ.paths base
  scalar : ∀ leaf ∈ leaves, leaf.2.isScalar = true
  values : ∀ m row e, S m row e → leaves.map (·.2.value? m a row) = (f m e).values.map some

/-- A node stands for a function of the elements that rows stand for, whose values have a shape. -/
inductive Denotes (schema : Schema) (sc : Scope) (a : Alias) (S : Standing) : Node → Shape → View → Prop
  | scalar {n : Node} {f : View} (hn : n.isScalar = true)
      (hvalue : ∀ m row e, S m row e → ∃ v, f m e = .scalar v ∧ n.value? m a row = some v) :
      Denotes schema sc a S n .scalar f
  | record {n : Node} {shapes : List (String × Shape)} {f : View} (hn : n.IsValue) (hmulti : n.isMultiColumn = true)
      (hshape : ∀ m row e, S m row e → (f m e).shape = .record shapes)
      (hleaves : ∀ base leaves, sc.flatten schema base n = .ok leaves → Columns a S base leaves (.record shapes) f)
      (hknown : ∀ name n', sc.resolveMember schema n name = .ok n' → ∃ τ, shapes.lookup name = some τ)
      (hmembers : ∀ name n' τ, sc.resolveMember schema n name = .ok n' → shapes.lookup name = some τ →
        Denotes schema sc a S n' τ fun m e => (f m e).member name) : Denotes schema sc a S n (.record shapes) f

namespace Denotes

variable {S : Standing} {σ : Shape} {f : View}

theorem isValue (h : Denotes schema sc a S n σ f) : n.IsValue := by
  cases h with
  | scalar hn => exact .scalar hn
  | record hn => exact hn

theorem isScalar (h : Denotes schema sc a S n .scalar f) : n.isScalar = true := by
  cases h with
  | scalar hn => exact hn

theorem shape_eq (h : Denotes schema sc a S n σ f) {e : Element} (he : S m row e) : (f m e).shape = σ := by
  cases h with
  | scalar hn hvalue =>
    obtain ⟨v, hv, -⟩ := hvalue m row e he
    rw [hv, Element.shape]
  | record hn hmulti hshape => exact hshape m row e he

theorem columns (h : Denotes schema sc a S n σ f) {base : Path} {leaves : List (Path × Node)}
    (hleaves : sc.flatten schema base n = .ok leaves) : Columns a S base leaves σ f := by
  cases h with
  | scalar hn hvalue =>
    rw [Scope.flatten_of_isScalar base hn] at hleaves
    obtain rfl := Except.ok.inj hleaves
    refine ⟨rfl, List.forall_mem_singleton.2 hn, fun m row e he => ?_⟩
    obtain ⟨v, hv, hvalue⟩ := hvalue m row e he
    rw [hv, List.map_singleton, hvalue]
    rfl
  | record hn hmulti hshape hflat => exact hflat base leaves hleaves

/-- The parameters in scope do not matter. -/
theorem bind_iff {params : List (String × Node)} :
    Denotes schema (sc.bind params) a S n σ f ↔ Denotes schema sc a S n σ f := by
  constructor
  · intro h
    induction h with
    | scalar hn hvalue => exact .scalar hn hvalue
    | record hn hmulti hshape hleaves hknown _ ih =>
      exact .record hn hmulti hshape
        (fun base leaves h => hleaves base leaves ((Scope.flatten_bind ..).trans h)) hknown ih
  · intro h
    induction h with
    | scalar hn hvalue => exact .scalar hn hvalue
    | record hn hmulti hshape hleaves hknown _ ih =>
      exact .record hn hmulti hshape
        (fun base leaves h => hleaves base leaves ((Scope.flatten_bind ..).symm.trans h)) hknown ih

end Denotes

end QueryLowering
