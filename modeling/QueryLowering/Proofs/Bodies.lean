import QueryLowering.Proofs.Balance
import QueryLowering.Proofs.Members
import QueryLowering.Proofs.Run

/-!
# The bodies of lambdas

Lowering the body of a lambda leaves the context as it is. If the value of the parameter stands for
the elements that rows stand for, then the value of the body stands for the meaning of the body.

## Main results

* `lowers_of_isPure`: the value of a node comes from the values of its parts.
* `denotes_binary`, `denotes_nullTest`: the values of operators.
* `Expr.Admits.lowers`: the value of the body of a lambda.
-/

namespace QueryLowering

open Sql Lower Result List Node

variable {n operand left right : Node} {target e body : Expr} {op : BinaryOp} {sqlOp : BinaryOperator}
variable {members : List (String × Expr)} {ns : List Node} {P R : Node → Prop} {ty leftTy rightTy : Ty}
variable {schema : Schema} {sc : Scope} {r : Rule} {p q : Progress} {index : Nat} {cx cx' : Context} {x : String}
variable {σ τ : Shape} {m : Scalars} {a : Alias} {v w : Literal} {S : Standing} {f g : View}

/-! ## Values in a scope -/

/-- The rules that make the value of a node from the values of its parts and do nothing else. -/
def Rule.isPure : Rule → Bool
  | constant | parameter | passthrough _ | membership .. | construct | member | binary | unary => true
  | _ => false

/-- In contexts of a scope, an expression has a value. -/
def Sees (schema : Schema) (sc : Scope) (e : Expr) (n : Node) : Prop :=
  ∃ index cx cx', cx.scope = sc ∧ Yields schema (e.visit Recognizer.standard false index) cx n cx'

/-- In contexts of a scope, lowering an expression leaves the context as it is. -/
def Steady (schema : Schema) (sc : Scope) (e : Expr) : Prop :=
  ∀ index cx cx' n, cx.scope = sc → Yields schema (e.visit Recognizer.standard false index) cx n cx' → cx' = cx

theorem Rule.bindings_of_isPure (hr : r.isPure = true) (part : Expr) : r.bindings p index part = pure (p, []) := by
  unfold bindings
  split
  · rfl
  · cases r with
    | constant | parameter | passthrough | membership | construct | member | binary | unary => rfl
    | _ => cases hr

theorem Rule.receive_of_isPure (hr : r.isPure = true) (part : Expr) (n : Node) : r.receive p index part n = pure p := by
  cases r with
  | constant | parameter | passthrough | membership | construct | member | binary | unary => rfl
  | _ => cases hr

theorem Scope.unbindTo_bind (sc : Scope) (params : List (String × Node)) :
    (sc.bind params).unbindTo sc.params.length = sc := by
  rw [unbindTo, bind, take_left]

/-- A step that leaves the context as it is does so with parameters bound. -/
theorem yields_withParameters_steady {α : Type} {bound : List (String × Node)} {x : Lower α} {a : α}
    (hx : ∀ cx cx', cx.scope = sc.bind bound → Yields schema x cx a cx' → cx' = cx) (hcx : cx.scope = sc)
    (hy : Yields schema (withParameters bound x) cx a cx') :
    cx' = cx ∧ ∃ mid mid', mid.scope = sc.bind bound ∧ Yields schema x mid a mid' := by
  obtain ⟨after, hafter, rfl⟩ := yields_withParameters.1 hy
  have hbound : ({ cx with scope := cx.scope.bind bound } : Context).scope = sc.bind bound := by
    rw [← hcx]
  obtain rfl := hx _ _ hbound hafter
  refine ⟨?_, _, _, hbound, hafter⟩
  simp only [Scope.unbindTo_bind]

theorem Rule.chains_of_isPure (hr : r.isPure = true) : r.chains = false := by
  cases r with
  | step | recursiveUnion => cases hr
  | _ => rfl

theorem Rule.skipsParts_of_isPure (hr : r.isPure = true) : r.skipsParts = false := by
  cases r with
  | captured | dataSet => cases hr
  | _ => rfl

theorem Rule.producesQuery_of_isPure (hr : r.isPure = true) : r.producesQuery = false := by
  cases r with
  | step | recursiveUnion => cases hr
  | _ => rfl

theorem lowerPart_of_isPure (hr : r.isPure = true) (he : Steady schema sc e) (hcx : cx.scope = sc)
    (hy : Yields schema (lowerPart r p index e (e.run)) cx (q, n) cx') : q = p ∧ cx' = cx ∧ Sees schema sc e n := by
  simp only [lowerPart, Rule.skipsParts_of_isPure hr, Rule.chains_of_isPure hr, Bool.false_and,
    Bool.false_eq_true, ↓reduceIte, Rule.bindings_of_isPure hr, Rule.receive_of_isPure hr, yields_bind,
    yields_pure, Prod.mk.injEq] at hy
  obtain ⟨_, mid, ⟨rfl, rfl⟩, m, mid', hm, p', after, ⟨rfl, rfl⟩, ⟨rfl, rfl⟩, rfl⟩ := hy
  obtain ⟨rfl, mid, mid', hmid, hm⟩ := yields_withParameters_steady
    (fun mid mid' hmid => he _ mid mid' _ (by rw [hmid, Scope.bind_nil])) hcx hm
  rw [Scope.bind_nil] at hmid
  exact ⟨rfl, rfl, _, mid, mid', hmid, hm⟩

/-- The parts of a node that is lowered by a pure rule, by induction over them. -/
theorem lowerParts_of_isPure (hr : r.isPure = true) {es : List Expr} (hes : ∀ e ∈ es, Steady schema sc e)
    (hy : Yields schema (lowerParts r p index (es.zip (es.map Expr.run))) cx (q, ns) cx')
    (hcx : cx.scope = sc) : q = p ∧ cx' = cx ∧ List.Forall₂ (Sees schema sc) es ns := by
  induction es generalizing cx index ns with
  | nil =>
    obtain ⟨hpair, rfl⟩ := yields_pure.1 hy
    obtain ⟨rfl, rfl⟩ := Prod.mk.inj hpair
    exact ⟨rfl, rfl, .nil⟩
  | cons e rest ih =>
    rw [forall_mem_cons] at hes
    rw [map_cons, zip_cons_cons] at hy
    simp only [lowerParts, yields_bind, yields_pure, Prod.mk.injEq] at hy
    obtain ⟨⟨p', n⟩, mid, hpart, ⟨p'', ns'⟩, after, hrest, ⟨rfl, rfl⟩, rfl⟩ := hy
    obtain ⟨rfl, rfl, hn⟩ := lowerPart_of_isPure hr hes.1 hcx hpart
    obtain ⟨rfl, rfl, hns⟩ := ih hes.2 hrest hcx
    exact ⟨rfl, rfl, .cons hn hns⟩

/-- Lowering an expression in contexts of a scope leaves the context as it is, and its value satisfies
a condition. -/
def Lowers (schema : Schema) (sc : Scope) (e : Expr) (P : Node → Prop) : Prop :=
  Steady schema sc e ∧ ∀ n, Sees schema sc e n → P n

/-- A node is lowered by its rule, within a frame of the rule. -/
theorem yields_visit_iff {rs : List Recognizer} (hrule : rs.findSome? (·.rule? e) = some r) {chained : Bool}
    {index : Option Nat} : Yields schema (e.visit rs chained index) cx n cx' ↔
      ∃ after, Yields schema (lowerBy r e (e.children.map (Expr.visit rs)) chained)
        { cx with frames := ⟨r.name, e.kindName, index⟩ :: cx.frames } n after ∧
        { after with frames := cx.frames } = cx' := by
  have hvisit : e.visit rs chained index = withFrame ⟨r.name, e.kindName, index⟩
      (lowerBy r e (e.children.map (Expr.visit rs)) chained) := by
    rw [Expr.visit_eq]
    unfold lowerNode
    rw [hrule]
  rw [hvisit, yields_withFrame]
  refine exists_congr fun after => and_congr_right fun hby => ?_
  -- The frames are those from before, so that leaving them is as if they were put back.
  have hy := yields_withFrame.2 ⟨after, hby, rfl⟩
  have hframes := (e.visit_balanced rs schema cx chained index).1
  rw [hvisit, hy] at hframes
  have hleft : { after with frames := cx.frames } = after.leaveTo cx.frames.length := by
    nth_rewrite 1 [← hframes]
    rfl
  rw [hleft]

/-- The value of a node that is lowered by a pure rule is made from values of its parts. -/
theorem lowers_of_isPure (hrule : e.rule? = some r) (hr : r.isPure = true) (hes : ∀ c ∈ e.children, Steady schema sc c)
    (hfinish : ∀ ns cx cx' n, List.Forall₂ (Sees schema sc) e.children ns →
      Yields schema (r.finish e {} ns) cx n cx' → cx.scope = sc → cx' = cx ∧ P n) : Lowers schema sc e P := by
  have hvisit : ∀ index cx cx' n, cx.scope = sc → Yields schema (e.run false index) cx n cx' → cx' = cx ∧ P n := by
    intro index cx cx' n hcx hy
    obtain ⟨after, hby, rfl⟩ := (yields_visit_iff hrule).1 hy
    simp only [lowerBy, Rule.producesQuery_of_isPure hr, Bool.false_and, Bool.false_eq_true, ↓reduceIte,
      yields_bind, yields_pure] at hby
    obtain ⟨⟨q, ns⟩, mid, hparts, n', mid', hn, rfl, rfl⟩ := hby
    obtain ⟨rfl, rfl, hns⟩ := lowerParts_of_isPure hr hes hparts hcx
    obtain ⟨rfl, hP⟩ := hfinish ns _ _ n' hns hn hcx
    exact ⟨rfl, hP⟩
  refine ⟨fun index cx cx' n hcx hy => (hvisit index cx cx' n hcx hy).1, ?_⟩
  rintro n ⟨index, cx, cx', hcx, hy⟩
  exact (hvisit index cx cx' n hcx hy).2

/-! ## Which rule -/

namespace Expr

theorem isCaptured_member (target : Expr) (name : String) (ty : Ty) :
    (member (some target) name ty).isCaptured = target.isCaptured := by
  rw [isCaptured, fold_eq]
  change ([target].map isCaptured).all id = target.isCaptured
  rw [map_singleton, all_cons, all_nil, Bool.and_true]
  rfl

theorem Admits.isCaptured_eq_false (h : body.Admits x σ τ) : body.isCaptured = false := by
  induction h with
  | member ty _ _ _ ih => rw [isCaptured_member, ih]
  | _ => rfl

theorem Admits.isNullConstant_eq_false (h : body.Admits x σ τ) : body.isNullConstant = false := by
  cases h with
  | @constant v ty hv =>
    cases v with
    | null => cases hv
    | _ => rfl
  | _ => rfl

theorem rule_member (h : target.isCaptured = false) (name : String) (ty : Ty) :
    Expr.rule? (.member (some target) name ty) = some .member := by
  unfold Expr.rule? Recognizer.standard
  rw [findSome?_cons]
  simp only [Recognizer.ofKind, isCaptured_member, h]
  rfl

theorem meaning_construct (m : Scalars) (row : Element) (ty : Ty) (members : List (String × Expr)) :
    (construct ty members).meaning m row = .record (members.map fun p => (p.1, p.2.meaning m row)) := by
  have h : (construct ty members).meaning m row =
      .record ((members.map (·.1)).zip ((members.map (·.2)).map (meaning m row))) := by
    rw [meaning, fold_eq]
    rfl
  rw [h, map_map, zip_map']
  rfl

end Expr

/-! ## The operators -/

namespace Lower

theorem constant_eq {v : Value} (hv : (Literal.ofValue v).isNull = false) :
    constant v = ofResult (pure (.literal (.ofValue v))) := by
  cases v with
  | null | list | record | table => cases hv
  | _ => rfl

theorem typedMember?_eq_none (hty : ty.isRecord = true) (n : Node) (name : String) : typedMember? ty n name = none := by
  cases ty with
  | unknown | entity | anonymous | object => rfl
  | _ => cases hty

theorem intervalMember?_eq_none (hn : n.IsValue) (name : String) : intervalMember? n name = none := by
  cases n with
  | dateDiff part start stop =>
    cases hn with
    | scalar hn => cases hn
  | _ => rfl

theorem member_eq (hty : ty.isRecord = true) (hn : n.IsValue) (name : String) :
    member ty n name = look fun schema sc => sc.resolveMember schema n name := by
  unfold member
  rw [typedMember?_eq_none hty, intervalMember?_eq_none hn]
  rfl

@[simp]
theorem yields_part {parts : List Node} {context : String} :
    Yields schema (part parts index context) cx n cx' ↔ parts[index]? = some n ∧ cx = cx' := yields_orThrow

/-- The SQL operator of an operator between single values means the same. -/
theorem binary_of_sqlOperator {left right : Ty} (hop : op.isComparison || op.isConnective || op.isArithmetic left right)
    (hsql : sqlOperator? op ty left right = some sqlOp) (m : Scalars) (v w : Literal) :
    m.binary sqlOp v w = some (m.operate op v w) := by
  cases op with
  | and | or =>
    rw [sqlOperator?] at hsql
    split at hsql
    · obtain rfl := Option.some.inj hsql
      rfl
    · cases hsql
  | add =>
    have hadd : ¬ (left.underlying = .string ∨ right.underlying = .string) := by
      simpa [BinaryOp.isComparison, BinaryOp.isConnective, BinaryOp.isArithmetic] using hop
    rw [sqlOperator?, if_neg hadd] at hsql
    obtain rfl := Option.some.inj hsql
    rfl
  | exclusiveOr => cases hsql
  | coalesce => cases hop
  | _ =>
    obtain rfl := Option.some.inj hsql
    rfl

section

variable {row : Row}

theorem isScalar_connected (op : BinaryOperator) (hleft : left.isScalar = true)
    (hright : right.isScalar = true) : (connected op left right).isScalar = true := by
  unfold connected
  split
  · have hl := isScalar_condition hleft
    have hr := isScalar_condition hright
    rw [operation_eq_binary op hl hr]
    exact Bool.and_eq_true_iff.2 ⟨hl, hr⟩
  · rw [operation_eq_binary op hleft hright]
    exact Bool.and_eq_true_iff.2 ⟨hleft, hright⟩

theorem value?_connected (op : BinaryOperator) (hleft : left.isScalar = true)
    (hright : right.isScalar = true) (hv : left.value? m a row = some v)
    (hw : right.value? m a row = some w) : (connected op left right).value? m a row = m.binary op v w := by
  unfold connected
  split
  · next hop =>
    rw [operation_eq_binary op (isScalar_condition hleft) (isScalar_condition hright),
      value?_binary (value?_condition hv) (value?_condition hw)]
    rcases hop with rfl | rfl
    · simp only [Scalars.binary, Scalars.both, Scalars.truth_ofTruth]
    · simp only [Scalars.binary, Scalars.either, Scalars.truth_ofTruth]
  · rw [operation_eq_binary op hleft hright, value?_binary hv hw]

end

end Lower

variable {row : Node}

/-- The single value that a scalar node stands for. -/
theorem Denotes.value_eq (h : Denotes schema sc a S n .scalar f) {r : Row} {e : Element}
    (he : S m r e) : n.value? m a r = some (f m e).value := by
  cases h with
  | scalar hn hvalue =>
    obtain ⟨v, hv, hnode⟩ := hvalue m r e he
    rw [hv, hnode, Element.value]

theorem Denotes.of_value {k : Scalars → Element → Literal} (hn : n.isScalar = true)
    (h : ∀ m r e, S m r e → n.value? m a r = some (k m e)) :
    Denotes schema sc a S n .scalar fun m e => .scalar (k m e) := .scalar hn fun m r e he => ⟨k m e, rfl, h m r e he⟩

/-- An operator between single columns, neither of which are dates, has the value of its SQL operator. -/
theorem yields_binary (hcoalesce : op ≠ .coalesce)
    (hdates : ¬ (op = .subtract ∧ leftTy.underlying = .dateTime ∧ rightTy.underlying = .dateTime))
    (hleft : left.asScalar = left ∧ left.isMultiColumn = false)
    (hright : right.asScalar = right ∧ right.isMultiColumn = false)
    (hy : Yields schema (Lower.binary op ty leftTy rightTy left right) cx n cx') :
    cx' = cx ∧ ∃ sqlOp, sqlOperator? op ty leftTy rightTy = some sqlOp ∧ n = connected sqlOp left right := by
  simp only [Lower.binary, hleft, hright, Bool.or_self, Bool.and_false, Bool.false_eq_true, ↓reduceIte,
    hcoalesce, hdates] at hy
  split at hy
  · next sqlOp hsql =>
    obtain ⟨rfl, rfl⟩ := yields_pure.1 hy
    exact ⟨rfl, sqlOp, hsql, rfl⟩
  · cases not_yields_throw hy

theorem Denotes.single (h : Denotes schema sc a S n .scalar f) : n.asScalar = n ∧ n.isMultiColumn = false :=
  ⟨asScalar_of_isScalar h.isScalar, isMultiColumn_of_isScalar h.isScalar⟩

theorem denotes_binary (hop : op.isComparison || op.isConnective || op.isArithmetic leftTy rightTy)
    (hleft : Denotes schema sc a S left .scalar f) (hright : Denotes schema sc a S right .scalar g)
    (hy : Yields schema (Lower.binary op ty leftTy rightTy left right) cx n cx') :
    cx' = cx ∧ Denotes schema sc a S n .scalar fun m e => .scalar (m.operate op (f m e).value (g m e).value) := by
  have hcoalesce : op ≠ .coalesce := by
    rintro rfl
    cases hop
  have hdates : ¬ (op = .subtract ∧ leftTy.underlying = .dateTime ∧ rightTy.underlying = .dateTime) := by
    rintro ⟨rfl, h, h'⟩
    simp [BinaryOp.isComparison, BinaryOp.isConnective, BinaryOp.isArithmetic, h, h'] at hop
  obtain ⟨rfl, sqlOp, hsql, rfl⟩ := yields_binary hcoalesce hdates hleft.single hright.single hy
  refine ⟨rfl, .of_value (isScalar_connected sqlOp hleft.isScalar hright.isScalar) fun m r e he => ?_⟩
  rw [value?_connected sqlOp hleft.isScalar hright.isScalar (hleft.value_eq he) (hright.value_eq he),
    binary_of_sqlOperator hop hsql]

theorem connected_eq_isNull (hop : op = .equal ∨ op = .notEqual) (hoperand : operand.isNullLiteral = false)
    (hsides : (left = operand ∧ right = .literal .null) ∨ (left = .literal .null ∧ right = operand))
    (hsql : sqlOperator? op ty leftTy rightTy = some sqlOp) :
    connected sqlOp left right = .isNull operand (op == .notEqual) := by
  rcases hop with rfl | rfl
  all_goals
    obtain rfl := Option.some.inj hsql
    rcases hsides with ⟨rfl, rfl⟩ | ⟨rfl, rfl⟩
    · rfl
    · change Node.operation _ _ _ = _
      rw [Node.operation, hoperand]
      rfl

/-- A comparison of a single value with null, on either side, is a null test. -/
theorem denotes_nullTest (hop : op = .equal ∨ op = .notEqual) (hoperand : Denotes schema sc a S operand .scalar f)
    (hsides : (left = operand ∧ right = .literal .null) ∨ (left = .literal .null ∧ right = operand))
    (hy : Yields schema (Lower.binary op ty leftTy rightTy left right) cx n cx') :
    cx' = cx ∧ Denotes schema sc a S n .scalar fun m e => .scalar (.nullTest op (f m e).value) := by
  have hcoalesce : op ≠ .coalesce := by rcases hop with rfl | rfl <;> simp
  have hdates : ¬ (op = .subtract ∧ leftTy.underlying = .dateTime ∧ rightTy.underlying = .dateTime) := by
    rcases hop with rfl | rfl <;> simp
  have hsingle : ∀ k, k = operand ∨ k = .literal .null → k.asScalar = k ∧ k.isMultiColumn = false := by
    rintro k (rfl | rfl)
    · exact hoperand.single
    · exact ⟨rfl, rfl⟩
  have hleft := hsingle left (hsides.imp And.left And.left)
  have hright := hsingle right (hsides.symm.imp And.right And.right)
  obtain ⟨rfl, sqlOp, hsql, rfl⟩ := yields_binary hcoalesce hdates hleft hright hy
  rw [connected_eq_isNull hop (isNullLiteral_of_isScalar hoperand.isScalar) hsides hsql]
  refine ⟨rfl, .of_value hoperand.isScalar fun m r e he => ?_⟩
  change (operand.value? m a r).map _ = _
  rw [hoperand.value_eq he]
  rfl

/-! ## Nodes -/

theorem Expr.meaning_binary (m : Scalars) (e : Element) (op : BinaryOp) (left right : Expr) (ty : Ty) :
    (Expr.binary op left right ty).meaning m e = .scalar
      (if right.isNullConstant then .nullTest op (left.meaning m e).value
      else if left.isNullConstant then .nullTest op (right.meaning m e).value
      else m.operate op (left.meaning m e).value (right.meaning m e).value) := rfl

theorem lowers_literal {v : Value} {l : Literal} (hv : Lower.constant v = ofResult (pure (.literal l)))
    (ty : Ty) : Lowers schema sc (.constant v ty) (· = .literal l) := by
  refine lowers_of_isPure (r := .constant) rfl rfl (forall_mem_nil _) fun ns cx cx' n _ hy _ => ?_
  have hy : Yields schema (Lower.constant v) cx n cx' := hy
  rw [hv] at hy
  obtain ⟨hn, rfl⟩ := yields_ofResult.1 hy
  exact ⟨rfl, (pure_eq_ok.1 hn).symm⟩

theorem memberValues_eq {values : List (String × Node)}
    (hns : ∀ n ∈ ns, n.IsValue) (h : memberValues members ns = .ok values) : values = (members.map (·.1)).zip ns := by
  induction members generalizing ns values with
  | nil => exact (pure_eq_ok.1 h).symm
  | cons p rest ih =>
    obtain ⟨name, e⟩ := p
    cases ns with
    | nil => exact (pure_eq_ok.1 h).symm
    | cons n ns =>
      rw [forall_mem_cons] at hns
      simp only [memberValues, bind_eq_ok, pure_eq_ok] at h
      obtain ⟨value, hvalue, others, hothers, rfl⟩ := h
      have hn : value = n := by
        unfold memberValue at hvalue
        split at hvalue
        · split at hvalue
          · cases hns.1 with
            | scalar hn => cases hn
          · cases hns.1 with
            | scalar hn => cases hn
          · cases throw_ne_ok hvalue
        · rw [← pure_eq_ok.1 hvalue, hns.1.asScalar_eq]
      rw [hn, ih hns.2 hothers]
      rfl

/-- The value of an object is made of the values of its members. -/
theorem lowers_construct {α : Type} {shapes : List α} (hlength : members.length ≤ shapes.length)
    (hsteady : ∀ pair ∈ members.zip shapes, Steady schema sc pair.1.2)
    (h : ∀ ns, List.Forall₂ (Sees schema sc) (members.map (·.2)) ns →
      (∀ n ∈ ns, n.IsValue) ∧ P (.ofMembers ((members.map (·.1)).zip ns))) (ty : Ty) :
    Lowers schema sc (.construct ty members) P := by
  have hparts : ∀ c ∈ members.map (·.2), Steady schema sc c := by
    intro c hc
    obtain ⟨p, hp, rfl⟩ := mem_map.1 hc
    rw [← map_fst_zip hlength] at hp
    obtain ⟨pair, hpair, rfl⟩ := mem_map.1 hp
    exact hsteady pair hpair
  refine lowers_of_isPure (r := .construct) rfl rfl hparts fun ns cx cx' n hns hy _ => ?_
  obtain ⟨hn, rfl⟩ := yields_ofResult.1 hy
  obtain ⟨values, hvalues, hn⟩ := bind_eq_ok.1 hn
  obtain rfl := pure_eq_ok.1 hn
  obtain ⟨hisValue, hP⟩ := h ns hns
  rw [memberValues_eq hisValue hvalues]
  exact ⟨rfl, hP⟩

/-- The members of an object with their shapes and values. -/
theorem exists_fields {shapes : List (String × Shape)}
    (hnames : members.map (·.1) = shapes.map (·.1)) (h : ∀ pair ∈ members.zip shapes, ∀ n, Sees schema sc pair.1.2 n →
      Denotes schema sc a S n pair.2.2 fun m e => pair.1.2.meaning m e)
    (hns : List.Forall₂ (Sees schema sc) (members.map (·.2)) ns) :
    ∃ fields : List Field, (∀ t ∈ fields, Denotes schema sc a S t.node t.shape t.view) ∧
      members.map (·.1) = fields.map (·.name) ∧ ns = fields.map (·.node) ∧
      (fields.map fun t => (t.name, t.shape)) = shapes ∧
      ∀ m e, (fields.map fun t => (t.name, t.view m e)) = members.map fun p => (p.1, p.2.meaning m e) := by
  induction members generalizing shapes ns with
  | nil =>
    obtain rfl : shapes = [] := map_eq_nil_iff.1 hnames.symm
    cases hns
    exact ⟨[], forall_mem_nil _, rfl, rfl, rfl, fun _ _ => rfl⟩
  | cons p rest ih =>
    obtain ⟨⟨name, τ⟩, shapes, rfl, hname, hrest⟩ := map_eq_cons_iff.1 hnames.symm
    obtain rfl : name = p.1 := hname
    rw [map_cons] at hns
    obtain ⟨n, others, hn, hothers, rfl⟩ := forall₂_cons_left_iff.1 hns
    rw [zip_cons_cons, forall_mem_cons] at h
    obtain ⟨fields, hfields, hnames, hnodes, hshapes, hviews⟩ := ih hrest.symm h.2 hothers
    refine ⟨⟨p.1, n, τ, fun m e => p.2.meaning m e⟩ :: fields,
      forall_mem_cons.2 ⟨h.1 n hn, hfields⟩, ?_, ?_, ?_, fun m e => ?_⟩
    · rw [map_cons, map_cons, hnames]
    · rw [map_cons, ← hnodes]
    · rw [map_cons, hshapes]
    · rw [map_cons, map_cons, hviews m e]

theorem sees_one (h : List.Forall₂ (Sees schema sc) [e] ns) : ∃ n, Sees schema sc e n ∧ ns = [n] := by
  obtain ⟨n, rest, hn, hrest, rfl⟩ := forall₂_cons_left_iff.1 h
  exact ⟨n, hn, congrArg (n :: ·) (forall₂_nil_left_iff.1 hrest)⟩

theorem sees_two {e' : Expr} (h : List.Forall₂ (Sees schema sc) [e, e'] ns) :
    ∃ n n', Sees schema sc e n ∧ Sees schema sc e' n' ∧ ns = [n, n'] := by
  obtain ⟨n, rest, hn, hrest, rfl⟩ := forall₂_cons_left_iff.1 h
  obtain ⟨n', hn', rfl⟩ := sees_one hrest
  exact ⟨n, n', hn, hn', rfl⟩

theorem lowers_binary {left right : Expr} {Q : Node → Prop}
    (hleft : Lowers schema sc left P) (hright : Lowers schema sc right Q)
    (h : ∀ l r cx cx' n, P l → Q r → Yields schema (Lower.binary op ty left.ty right.ty l r) cx n cx' →
      cx' = cx ∧ R n) : Lowers schema sc (.binary op left right ty) R := by
  refine lowers_of_isPure (r := .binary) rfl rfl
    (forall_mem_cons.2 ⟨hleft.1, forall_mem_singleton.2 hright.1⟩) fun ns cx cx' n hns hy _ => ?_
  obtain ⟨l, r, hl, hr, rfl⟩ := sees_two hns
  simp only [Rule.finish, yields_bind, yields_part, getElem?_cons_zero, getElem?_cons_succ,
    Option.some.injEq] at hy
  obtain ⟨_, _, ⟨rfl, rfl⟩, _, _, ⟨rfl, rfl⟩, hy⟩ := hy
  exact h l r _ _ n (hleft.2 l hl) (hright.2 r hr) hy

theorem lowers_unary {op : UnaryOp} (hop : op ≠ .quote) {operand : Expr} (hoperand : Lowers schema sc operand P)
    (h : ∀ k, P k → R (Lower.unary op operand.ty ty k)) : Lowers schema sc (.unary op operand ty) R := by
  have hrule : Expr.rule? (.unary op operand ty) = some .unary := by
    cases op with
    | quote => exact absurd rfl hop
    | _ => rfl
  refine lowers_of_isPure hrule rfl (forall_mem_singleton.2 hoperand.1) fun ns cx cx' n hns hy _ => ?_
  obtain ⟨k, hk, rfl⟩ := sees_one hns
  simp only [Rule.finish, yields_bind, yields_part, yields_pure, getElem?_cons_zero, Option.some.injEq] at hy
  obtain ⟨_, _, ⟨rfl, rfl⟩, rfl, rfl⟩ := hy
  exact ⟨rfl, h k (hoperand.2 k hk)⟩

theorem lowers_parameter {p : Param} (hrow : sc.lookup? p.name = some row) :
    Lowers schema sc (.parameter p) (· = row) := by
  refine lowers_of_isPure (r := .parameter) rfl rfl (forall_mem_nil _) fun ns cx cx' n _ hy hcx => ?_
  have hy : Yields schema (Lower.parameter p.name) cx n cx' := hy
  simp only [Lower.parameter, yields_bind, yields_scope, yields_orThrow] at hy
  obtain ⟨sc', mid, ⟨rfl, rfl⟩, hn, rfl⟩ := hy
  rw [hcx, hrow] at hn
  exact ⟨rfl, (Option.some.inj hn).symm⟩

theorem lowers_member {name : String}
    (hcaptured : target.isCaptured = false) (hty : target.ty.isRecord = true) (htarget : Lowers schema sc target P)
    (hvalue : ∀ t, P t → t.IsValue) (h : ∀ t n, P t → sc.resolveMember schema t name = .ok n → R n) :
    Lowers schema sc (.member (some target) name ty) R := by
  refine lowers_of_isPure (r := .member) (Expr.rule_member hcaptured name ty) rfl
    (forall_mem_singleton.2 htarget.1) fun ns cx cx' n hns hy hcx => ?_
  obtain ⟨t, ht, rfl⟩ := sees_one hns
  simp only [Rule.finish, yields_bind, yields_part, getElem?_cons_zero, Option.some.injEq] at hy
  obtain ⟨_, _, ⟨rfl, rfl⟩, hy⟩ := hy
  rw [member_eq hty (hvalue t (htarget.2 t ht))] at hy
  obtain ⟨hn, rfl⟩ := yields_look.1 hy
  exact ⟨rfl, h t n (htarget.2 t ht) (hcx ▸ hn)⟩

/-- The value of the body of a lambda stands for the meaning of the body, if the value of the
parameter stands for the elements.

**Proof sketch.** Induction on the body. Members are found where the value of the target has them,
operators have the values of their SQL operators, and objects are put together member by member. -/
theorem Expr.Admits.lowers (h : body.Admits x σ τ) (hrow : sc.lookup? x = some row)
    (hdenotes : Denotes schema sc a S row σ fun _ e => e) :
    Lowers schema sc body fun n => Denotes schema sc a S n τ fun m e => body.meaning m e := by
  induction h with
  | parameter ty =>
    have hparameter : Lowers schema sc (.parameter ⟨x, ty⟩) (· = row) := lowers_parameter hrow
    exact ⟨hparameter.1, fun n hn => hparameter.2 n hn ▸ hdenotes⟩
  | @member target members name τ ty htarget hty hname ih =>
    refine lowers_member htarget.isCaptured_eq_false hty ih (fun t ht => ht.isValue) fun t n ht hn => ?_
    cases ht with
    | record _ _ _ _ _ hmembers => exact hmembers name n τ hn hname
  | @constant v ty hv =>
    obtain ⟨hsteady, hliteral⟩ := lowers_literal (constant_eq hv) ty
    refine ⟨hsteady, fun n hn => ?_⟩
    obtain rfl := hliteral n hn
    refine .of_value ?_ fun m r e he => rfl
    rw [Node.isScalar, hv]
    rfl
  | @operation op left right ty hop hleft hright ihleft ihright =>
    refine lowers_binary ihleft ihright fun l r cx cx' n hl hr hy => ?_
    obtain ⟨rfl, hn⟩ := denotes_binary hop hl hr hy
    refine ⟨rfl, ?_⟩
    have hmeaning : ∀ m e, (Expr.binary op left right ty).meaning m e =
        .scalar (m.operate op (left.meaning m e).value (right.meaning m e).value) := by
      intro m e
      rw [meaning_binary, hleft.isNullConstant_eq_false, hright.isNullConstant_eq_false]
      rfl
    simpa only [hmeaning] using hn
  | @nullTest op left ty nullTy hop hleft ih =>
    refine lowers_binary ih (lowers_literal rfl nullTy) fun l r cx cx' n hl hr hy => ?_
    exact denotes_nullTest hop hl (.inl ⟨rfl, hr⟩) hy
  | @nullTestOf op right ty nullTy hop hright ih =>
    refine lowers_binary (lowers_literal rfl nullTy) ih fun l r cx cx' n hl hr hy => ?_
    obtain ⟨rfl, hn⟩ := denotes_nullTest hop hr (.inr ⟨hl, rfl⟩) hy
    refine ⟨rfl, ?_⟩
    have hmeaning : ∀ m e, (Expr.binary op (.constant .null nullTy) right ty).meaning m e =
        .scalar (.nullTest op (right.meaning m e).value) := by
      intro m e
      rw [meaning_binary, hright.isNullConstant_eq_false]
      rfl
    simpa only [hmeaning] using hn
  | @not e ty he ih =>
    refine lowers_unary (by simp) ih fun k hk => ?_
    change Denotes schema sc a S k.asScalar.negation .scalar _
    rw [hk.single.1]
    exact .of_value (isScalar_negation hk.isScalar) fun m r e he =>
      value?_negation hk.isScalar (hk.value_eq he)
  | @negate e ty he ih =>
    refine lowers_unary (by simp) ih fun k hk => ?_
    change Denotes schema sc a S (.unary .minus k.asScalar) .scalar _
    rw [hk.single.1]
    refine .of_value hk.isScalar fun m r e he => ?_
    change (k.value? m a r).map _ = _
    rw [hk.value_eq he]
    rfl
  | @construct members shapes ty hnames hdistinct hmembers ih =>
    have hlength : members.length ≤ shapes.length := by
      have h := congrArg List.length hnames
      rw [length_map, length_map] at h
      omega
    refine lowers_construct hlength (fun pair hpair => (ih pair hpair).1) (fun ns hns => ?_) ty
    obtain ⟨fields, hfields, hfieldNames, rfl, rfl, hviews⟩ :=
      exists_fields hnames (fun pair hpair => (ih pair hpair).2) hns
    have hnodes : ∀ k ∈ fields.map (·.node), k.IsValue := by
      intro k hk
      obtain ⟨t, ht, rfl⟩ := mem_map.1 hk
      exact (hfields t ht).isValue
    rw [hfieldNames, zip_map']
    have hobject := Denotes.ofFields fields hfields (hfieldNames ▸ hdistinct)
    simp only [hviews, ← meaning_construct _ _ ty] at hobject
    exact ⟨hnodes, hobject⟩

/-- The value of a lambda is the value of its body, below any number of quotes. -/
theorem lowers_lambda {arg : Expr} {params : List Param}
    (harg : arg.asLambda? = some (params, body)) (h : Lowers schema sc body P) : Lowers schema sc arg P := by
  have hpass : ∀ {e inner : Expr} {name : String}, e.rule? = some (.passthrough name) → e.children = [inner] →
        Lowers schema sc inner P → Lowers schema sc e P := by
    intro e inner name hrule hchildren hinner
    refine lowers_of_isPure hrule rfl (hchildren ▸ forall_mem_singleton.2 hinner.1) fun ns cx cx' n hns hy _ => ?_
    rw [hchildren] at hns
    obtain ⟨k, hk, rfl⟩ := sees_one hns
    obtain ⟨hn, rfl⟩ := yields_part.1 hy
    obtain rfl := Option.some.inj hn
    exact ⟨rfl, hinner.2 k hk⟩
  fun_induction Expr.asLambda? arg with
  | case1 params' body' =>
    obtain ⟨rfl, rfl⟩ := Prod.mk.inj (Option.some.inj harg)
    exact hpass rfl rfl h
  | case2 operand ty ih => exact hpass rfl rfl (ih harg)
  | case3 => cases harg

end QueryLowering
