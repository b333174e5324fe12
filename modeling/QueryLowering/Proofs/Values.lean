import QueryLowering.Proofs.Causes
import QueryLowering.Proofs.ColumnNames
import QueryLowering.Proofs.Marks

set_option linter.unusedSectionVars false

/-!
# Values made from values

The functions that make values of the lowering put given values together. A condition on nodes is
compositional if it holds of what is put together from nodes that satisfy it, and of the parts that
can be taken out again. Such a condition holds of every value that is made from values that satisfy it,
and that a value cannot be made has nothing to do with the lent selects. That every mark satisfies a
condition is an example.

## Main results

* `holds_lowerMethod`, `Lower.holds_groupValue`, `Lower.holds_construct`: methods, operators on groups
  and objects.
* `Scope.holds_resolveMember`, `Scope.holds_flatten`, `Scope.holds_equality`: members, columns and
  comparisons.
* `Sql.Select.Clauses.currentShape`: the value of a row of a select.
-/

namespace QueryLowering

open Sql Result List
open Option (mem_some_iff map_eq_some_iff)

variable {op : BinaryOperator} {negated onReceiver : Bool} {member name : String} {members : List (String × Expr)}
variable {ns parts operands : List Node} {method : Operator} {element key predicate target n l r left right : Node}
variable {operandTy ty : Ty} {lambda : Option Node} {path : Path} {after sc : Scope} {replacements : List (Node × Node)}
variable {expansions : List (Alias × Node)} {m : Method} {schema : Schema} {a : Alias} {s t : Select} {A : Mark → Prop}

namespace Sql

/-! ## Conditions on nodes -/

/-- The functions that values are made with. -/
def functionNames : List String :=
  ["LEN", "SUBSTRING", "ROUND", "COALESCE", "UPPER", "LOWER", "TRIM", "LTRIM", "RTRIM", "ABS", "FLOOR",
    "CEILING", "SIGN", "CURRENT_TIMESTAMP", "CURRENT_UTC_TIMESTAMP", "CURRENT_DATE"]

/-- A condition that holds of the nodes that are put together from nodes that satisfy it. Only a
condition has to be negated, and only some functions have to be called. The equivalences are those of
nodes that are taken apart again. -/
class Compositional (P : Node → Prop) : Prop where
  placeholder : P .placeholder
  table : ∀ {t : Table}, P (.table t)
  literal : ∀ {l : Literal}, P (.literal l)
  parameter : ∀ {name : String} {v : Value}, P (.parameter name v)
  column : ∀ {a : Alias} {name : String}, P (.source a) → P (.column a name)
  composite : ∀ {entries : List (Path × Node)}, P (.composite entries) ↔ ∀ entry ∈ entries, P entry.2
  grouping : ∀ {key element : Node}, P (.grouping key element) ↔ P key ∧ P element
  list : ∀ {items : List Node}, P (.list items) ↔ ∀ n ∈ items, P n
  binary : ∀ {op : BinaryOperator} {l r : Node}, P l → P r → P (.binary op l r)
  not : ∀ {e : Node}, e.isPredicate → P e → P (.unary .not e)
  of_not : ∀ {e : Node}, P (.unary .not e) → P e
  minus : ∀ {e : Node}, P e → P (.unary .minus e)
  isNull : ∀ {e : Node} {negated : Bool}, P (.isNull e negated) ↔ P e
  choice : ∀ {t a b : Node}, P t → P a → P b → P (.choice t a b)
  function : ∀ {name : String} {args : List Node}, name ∈ functionNames → (∀ n ∈ args, P n) → P (.function name args)
  aggregate : ∀ {f : AggregateFunction} {arg : Option Node}, (∀ n ∈ arg, P n) → P (.aggregate f arg)
  cast : ∀ {e : Node} {type : DataType}, P e → P (.cast e type)
  datePart : ∀ {part : DatePart} {e : Node}, P e → P (.datePart part e)
  dateAdd : ∀ {part : DatePart} {a e : Node}, P a → P e → P (.dateAdd part a e)
  dateDiff : ∀ {part : DatePart} {a b : Node}, P (.dateDiff part a b) ↔ P a ∧ P b
  inValues : ∀ {e : Node} {values : List Node} {negated : Bool},
    P (.inValues e values negated) ↔ P e ∧ ∀ n ∈ values, P n
  rows : ∀ {d : Derived}, P (.rows d) ↔ P (.derived d)
  subquery : ∀ {d : Derived}, P (.derived d) → P (.subquery d)

instance {A : Mark → Prop} : Compositional (Node.Every A) where
  placeholder := Node.every_placeholder
  table := Node.every_table
  literal := Node.every_literal
  parameter := Node.every_parameter
  column h := h
  composite := Node.every_composite
  grouping := Node.every_grouping
  list := Node.every_list
  binary hl hr := Node.every_binary.2 ⟨hl, hr⟩
  not _ h := h
  of_not h := h
  minus h := h
  isNull := Node.every_isNull
  choice ht ha hb := Node.every_choice.2 ⟨⟨ht, ha⟩, hb⟩
  function _ := Node.every_function.2
  aggregate := Node.every_aggregate.2
  cast h := h
  datePart h := h
  dateAdd ha he := Node.every_dateAdd.2 ⟨ha, he⟩
  dateDiff := Node.every_dateDiff
  inValues := Node.every_inValues
  rows := Iff.rfl
  subquery h := h

instance : Compositional fun _ => True := by
  constructor <;> simp

end Sql

variable {P : Node → Prop} [Compositional P]

namespace Sql

/-! ## Nodes -/

namespace Node

theorem holds_asScalar (h : P n) : P n.asScalar := by
  cases n with
  | derived d => exact Compositional.subquery h
  | _ => exact h

theorem holds_operation (hl : P l) (hr : P r) : P (operation op l r) := by
  unfold operation
  split
  · exact Compositional.isNull.2 hl
  · split
    · exact Compositional.isNull.2 hr
    · exact Compositional.binary hl hr

theorem holds_condition (h : P n) : P n.condition := by
  unfold condition
  split
  · exact h
  · exact Compositional.binary h Compositional.literal

theorem holds_negation (h : P n) : P n.negation := by
  unfold negation
  split
  · exact Compositional.isNull.2 (Compositional.isNull.1 h)
  · exact Compositional.inValues.2 (Compositional.inValues.1 h)
  · exact Compositional.of_not h
  · exact Compositional.not (isPredicate_condition n) (holds_condition h)

theorem holds_choose {test : Node} (ht : P test) (hl : P l) (hr : P r) : P (choose test l r) :=
  Compositional.choice (holds_condition ht) hl hr

theorem holds_castTo (h : P n) (t : Ty) : ∀ m ∈ n.castTo? t, P m := by
  intro m hm
  rw [castTo?, Option.mem_def, map_eq_some_iff] at hm
  obtain ⟨type, -, rfl⟩ := hm
  exact Compositional.cast h

theorem holds_membership {values : List Node} (h : P n)
    (hvalues : ∀ v ∈ values, P v) : P (membership n values negated) := by
  unfold membership
  split
  · exact Compositional.binary Compositional.literal Compositional.literal
  · exact Compositional.inValues.2 ⟨h, hvalues⟩

theorem holds_memberEntries (h : P n) : ∀ entry ∈ memberEntries member n, P entry.2 := by
  unfold memberEntries
  split
  · next entries =>
    intro entry hentry
    obtain ⟨⟨p, m⟩, hm, rfl⟩ := mem_map.1 hentry
    exact Compositional.composite.1 h (p, m) hm
  · exact forall_mem_singleton.2 h

theorem holds_ofMembers {members : List (String × Node)} (h : ∀ m ∈ members, P m.2) : P (ofMembers members) := by
  refine Compositional.composite.2 fun entry hentry => ?_
  obtain ⟨m, hm, hentry⟩ := mem_flatMap.1 hentry
  exact holds_memberEntries (h m hm) entry hentry

theorem holds_memberOf {entries : List (Path × Node)} (h : ∀ entry ∈ entries, P entry.2) :
    ∀ m ∈ memberOf? entries member, P m := by
  intro m hm
  rw [memberOf?, Option.mem_def] at hm
  split at hm
  · next p m' hfind =>
    obtain rfl := Option.some.inj hm
    exact h _ (mem_of_find?_eq_some hfind)
  · split at hm
    · cases hm
    · obtain rfl := Option.some.inj hm
      refine Compositional.composite.2 fun entry hentry => ?_
      obtain ⟨⟨p, m⟩, hm, hafter⟩ := mem_filterMap.1 hentry
      obtain ⟨q, -, rfl⟩ := map_eq_some_iff.1 hafter
      exact h (p, m) hm

mutual

theorem holds_ofValue (v : Value) : OrPlain P (ofValue v) := by
  match v with
  | .null | .bool _ | .int _ | .float _ | .string _ | .dateTime _ => exact ensures_pure Compositional.literal
  | .list items =>
    rw [ofValue]
    exact (holds_ofValues items).andThen fun _ => Compositional.list.2
  | .record _ | .table _ => exact ensures_throw (by simp)

theorem holds_ofValues (vs : List Value) : OrPlain (fun ms => ∀ m ∈ ms, P m) (ofValues vs) := by
  match vs with
  | [] => exact ensures_pure (forall_mem_nil _)
  | v :: rest =>
    rw [ofValues]
    exact (holds_ofValue v).bind fun m hm => (holds_ofValues rest).andThen fun ms hms =>
      forall_mem_cons.2 ⟨hm, hms⟩

end

mutual

theorem holds_ofCaptured (name : String) (v : Value) : P (ofCaptured name v) := by
  match v with
  | .null | .bool _ | .int _ | .float _ | .string _ | .dateTime _ | .record _ | .table _ =>
    exact Compositional.parameter
  | .list items => exact Compositional.list.2 (holds_ofCapturedItems name 0 items)

theorem holds_ofCapturedItems (name : String) (k : Nat) (vs : List Value) : ∀ m ∈ ofCapturedItems name k vs, P m := by
  match vs with
  | [] => simp [ofCapturedItems]
  | v :: rest =>
    rw [ofCapturedItems, forall_mem_cons]
    exact ⟨holds_ofCaptured _ v, holds_ofCapturedItems name (k + 1) rest⟩

end

theorem holds_foldl_operation (h : P n) (hns : ∀ m ∈ ns, P m) : P (ns.foldl (operation op) n) := by
  induction ns generalizing n with
  | nil => exact h
  | cons m rest ih =>
    rw [forall_mem_cons] at hns
    exact ih (holds_operation h hns.1) hns.2

end Node

theorem holds_conjunction (h : ∀ n ∈ ns, P n) : ∀ m ∈ conjunction ns, P m := by
  intro m hm
  cases ns with
  | nil => simp [conjunction] at hm
  | cons n rest =>
    rw [conjunction, mem_some_iff] at hm
    subst hm
    rw [forall_mem_cons] at h
    exact Node.holds_foldl_operation h.1 h.2

end Sql

open Compositional (literal function column composite grouping isNull binary aggregate list subquery inValues dateDiff)
open Node (holds_asScalar holds_condition holds_operation)

/-! ## Methods of scalar values -/

section

theorem holds_likePattern (w : Wildcards) (h : P n) : P (likePattern w n) := by
  unfold likePattern
  split
  · exact literal
  · exact Compositional.parameter
  · cases w with
    | both => exact holds_operation (holds_operation literal h) literal
    | trailing => exact holds_operation h literal
    | leading => exact holds_operation literal h

theorem holds_oneBased (h : P n) : OrPlain P (oneBased n) := by
  unfold oneBased
  split
  · exact plain_checked.orPlain.andThen fun _ _ => literal
  · exact ensures_pure (holds_operation h literal)

omit [Compositional P] in
theorem holds_ofOne {f : Node → Node} (h : ∀ a ∈ operands, P a) (hf : ∀ a, P a → P (f a)) :
    OrPlain P (ofOne m f operands) := by
  unfold ofOne
  split
  · next a => exact ensures_pure (hf a (h a (by simp)))
  · exact ensures_throw (by simp [operandCount])

omit [Compositional P] in
theorem holds_ofTwo {f : Node → Node → Node} (h : ∀ a ∈ operands, P a) (hf : ∀ a b, P a → P b → P (f a b)) :
    OrPlain P (ofTwo m f operands) := by
  unfold ofTwo
  split
  · next a b => exact ensures_pure (hf a b (h a (by simp)) (h b (by simp)))
  · exact ensures_throw (by simp [operandCount])

theorem holds_textLength (h : P n) : P (textLength n) :=
  function (by decide) (forall_mem_singleton.2 h)

theorem holds_substring (h : ∀ a ∈ operands, P a) : OrPlain P (substring m operands) := by
  unfold substring
  split
  · next text start =>
    simp only [forall_mem_cons] at h
    refine (holds_oneBased h.2.1).andThen fun i hi => function (by decide) ?_
    simp only [forall_mem_cons]
    exact ⟨h.1, hi, holds_textLength h.1, by simp⟩
  · next text start length =>
    simp only [forall_mem_cons] at h
    refine (holds_oneBased h.2.1).andThen fun i hi => function (by decide) ?_
    simp only [forall_mem_cons]
    exact ⟨h.1, hi, h.2.2⟩
  · exact ensures_throw (by simp [operandCount])

theorem holds_round (h : ∀ a ∈ operands, P a) : OrPlain P (round m operands) := by
  unfold round
  split
  · refine ensures_pure (function (by decide) ?_)
    exact forall_mem_cons.2 ⟨h _ mem_cons_self, forall_mem_singleton.2 literal⟩
  · exact ensures_pure (function (by decide) h)
  · exact ensures_throw (by simp [operandCount])

theorem holds_concatAll (h : ∀ a ∈ operands, P a) : OrPlain P (concatAll operands) := by
  cases operands with
  | nil => exact ensures_throw (by simp)
  | cons a rest =>
    rw [forall_mem_cons] at h
    exact ensures_pure (Node.holds_foldl_operation h.1 h.2)

theorem holds_isNullOrEmpty (h : P n) : P (isNullOrEmpty n) :=
  holds_operation (holds_operation h literal) (holds_operation h literal)

theorem holds_lowerCommonMethod (h : ∀ a ∈ operands, P a) :
    OrPlain P (lowerCommonMethod m onReceiver operands) := by
  unfold lowerCommonMethod
  split
  · exact holds_ofTwo h fun a b ha hb => holds_operation ha hb
  · split
    · refine holds_ofOne h fun a ha => ?_
      cases hcast : a.castTo? .string with
      | none => exact ha
      | some c => exact Node.holds_castTo ha .string c hcast
    · exact ensures_throw (by simp)

theorem mem_functionNames_of_textFunction {method : String} (h : textFunction? method = some name) :
    name ∈ functionNames := by
  unfold textFunction? at h
  split at h <;> cases h <;> decide

theorem mem_functionNames_of_numberFunction {method : String} (h : numberFunction? method = some name) :
    name ∈ functionNames := by
  unfold numberFunction? at h
  split at h <;> cases h <;> decide

variable (h : ∀ a ∈ operands, P a)

include h

theorem holds_lowerStringMethod : OrPlain P (lowerStringMethod m operands) := by
  unfold lowerStringMethod
  split
  · exact holds_ofTwo h fun a b ha hb => holds_operation ha (holds_likePattern _ hb)
  · next name _ hname =>
    have hname := mem_functionNames_of_textFunction hname
    exact holds_ofOne h fun a ha => function hname (forall_mem_singleton.2 ha)
  · split
    · exact holds_substring h
    · exact holds_lowerCommonMethod h

theorem holds_lowerDateMethod : OrPlain P (lowerDateMethod m operands) := by
  unfold lowerDateMethod
  split
  · exact holds_ofTwo h fun a b ha hb => Compositional.dateAdd hb ha
  · split
    · exact holds_ofTwo h fun a b ha hb => dateDiff.2 ⟨hb, ha⟩
    · exact holds_lowerCommonMethod h

theorem holds_lowerStringFunction : OrPlain P (lowerStringFunction m operands) := by
  unfold lowerStringFunction
  split
  · exact holds_ofOne h fun a ha => holds_isNullOrEmpty ha
  · split
    · exact holds_concatAll h
    · exact holds_lowerCommonMethod h

theorem holds_lowerMathFunction : OrPlain P (lowerMathFunction m operands) := by
  unfold lowerMathFunction
  split
  · next name hname =>
    have hname := mem_functionNames_of_numberFunction hname
    exact holds_ofOne h fun a ha => function hname (forall_mem_singleton.2 ha)
  · split
    · exact holds_round h
    · exact holds_lowerCommonMethod h

/-- A method call has the marks of its operands. -/
theorem holds_lowerMethod :
    OrPlain P (lowerMethod m onReceiver operands) := by
  unfold lowerMethod
  split
  · exact holds_lowerStringMethod h
  · exact holds_lowerStringFunction h
  · exact holds_lowerDateMethod h
  · exact holds_lowerMathFunction h
  · exact holds_lowerCommonMethod h

end

/-! ## Members, operators and objects -/

namespace Lower

theorem mem_functionNames_of_staticFunction (h : staticFunction? member = some name) :
    name ∈ functionNames := by
  unfold staticFunction? at h
  split at h <;> cases h <;> decide

theorem holds_staticMember : OrPlain P (staticMember name) := by
  unfold staticMember
  split
  · next hfunction =>
    have hfunction := mem_functionNames_of_staticFunction hfunction
    exact ensures_pure (function hfunction (forall_mem_nil _))
  · exact ensures_throw (by simp)

theorem holds_typedMember (h : P target) : ∀ m ∈ typedMember? ty target name, P m := by
  intro m hm
  unfold typedMember? at hm
  split at hm
  · obtain rfl := mem_some_iff.1 hm
    exact holds_textLength (holds_asScalar h)
  · obtain rfl := mem_some_iff.1 hm
    exact h
  · obtain rfl := mem_some_iff.1 hm
    exact Node.holds_negation (holds_operation (holds_asScalar h) literal)
  · split at hm
    · obtain ⟨part, -, rfl⟩ := map_eq_some_iff.1 hm
      exact Compositional.datePart (holds_asScalar h)
    · cases hm

theorem holds_intervalMember (h : P target) : ∀ m ∈ intervalMember? target name, P m := by
  intro m hm
  unfold intervalMember? at hm
  split at hm
  · obtain ⟨part, -, rfl⟩ := map_eq_some_iff.1 hm
    exact dateDiff.2 (dateDiff.1 h)
  · cases hm

theorem holds_connected (hl : P left) (hr : P right) : P (connected op left right) := by
  unfold connected
  split
  · exact holds_operation (holds_condition hl) (holds_condition hr)
  · exact holds_operation hl hr

theorem holds_converted (h : P n) : P (converted operandTy ty n) := by
  unfold converted
  split
  · exact h
  · cases hcast : n.asScalar.castTo? ty with
    | none => exact holds_asScalar h
    | some c => exact Node.holds_castTo (holds_asScalar h) ty c hcast

theorem holds_unary {op : UnaryOp} (h : P n) : P (unary op operandTy ty n) := by
  cases op with
  | not => exact Node.holds_negation (holds_asScalar h)
  | negate => exact Compositional.minus (holds_asScalar h)
  | convert => exact holds_converted h
  | quote => exact h

theorem holds_memberValue (h : P n) : OrPlain P (memberValue name ty n) := by
  unfold memberValue
  split
  · split
    · exact ensures_pure (Compositional.rows.2 h)
    · exact ensures_pure h
    · exact ensures_throw (by simp)
  · exact ensures_pure (holds_asScalar h)

theorem holds_memberValues (h : ∀ m ∈ parts, P m) :
    OrPlain (fun values => ∀ m ∈ values, P m.2) (memberValues members parts) := by
  induction members generalizing parts with
  | nil => exact ensures_pure (forall_mem_nil _)
  | cons member rest ih =>
    cases parts with
    | nil => exact ensures_pure (forall_mem_nil _)
    | cons part parts =>
      rw [forall_mem_cons] at h
      rw [memberValues]
      exact (holds_memberValue h.1).bind fun value hvalue => (ih h.2).andThen fun values hvalues =>
        forall_mem_cons.2 ⟨hvalue, hvalues⟩

/-- An object has the marks of the values of its members. -/
theorem holds_construct (h : ∀ m ∈ parts, P m) :
    OrPlain P (construct members parts) := (holds_memberValues h).andThen fun _ => Node.holds_ofMembers

theorem holds_candidateValues (h : P n) : OrPlain (fun values => ∀ v ∈ values, P v) (candidateValues n) := by
  unfold candidateValues
  split
  · exact ensures_pure (list.1 h)
  · exact ensures_pure (forall_mem_singleton.2 (subquery h))
  · exact ensures_pure (forall_mem_singleton.2 h)
  · exact ensures_pure (forall_mem_singleton.2 h)
  · exact ensures_throw (by simp)

theorem holds_membership {item values : Node} (hitem : P item) (hvalues : P values) :
    OrPlain P (membership item values negated) :=
  (holds_candidateValues hvalues).andThen fun _ => Node.holds_membership (holds_asScalar hitem)

/-! ## Groups -/

theorem holds_aggregated
    (helement : P element) (hlambda : ∀ m ∈ lambda, P m) : OrPlain P (aggregated method element lambda) := by
  cases lambda with
  | some m => exact ensures_pure (holds_asScalar (hlambda m rfl))
  | none =>
    rw [aggregated]
    split
    · exact ensures_throw (by simp)
    · exact ensures_pure helement

theorem holds_countWhere {condition : Node} (h : P condition) : P (countWhere condition) := by
  refine aggregate fun m hm => ?_
  obtain rfl := mem_some_iff.1 hm
  exact Node.holds_choose (holds_asScalar h) literal literal

/-- An operator on a group has the marks of the group and of its lambda. -/
theorem holds_groupValue (hkey : P key) (helement : P element) (hlambda : ∀ m ∈ lambda, P m) :
    OrPlain P (groupValue method key element lambda) := by
  unfold groupValue
  split
  · split
    · split
      · next condition => exact ensures_pure (holds_countWhere (hlambda condition rfl))
      · exact ensures_pure (aggregate nofun)
    · refine (holds_aggregated helement hlambda).andThen fun arg harg => ?_
      exact aggregate fun m hm => mem_some_iff.1 hm ▸ harg
  · split
    · split
      · next m => exact ensures_pure (grouping.2 ⟨hkey, hlambda m rfl⟩)
      · exact ensures_throw (by simp)
    · exact ensures_throw (by simp)

end Lower

/-! ## Looking names up -/

namespace Scope

theorem holds_sourceValue (h : P (.source a)) : P (sc.sourceValue a) := by
  unfold sourceValue
  split
  · exact column h
  · exact h

theorem holds_resolveColumns (h : P (.source a)) {columns : List (Path × String)} :
    ∀ m ∈ resolveColumns a columns path, P m := by
  intro m hm
  rw [resolveColumns, Option.mem_def] at hm
  split at hm
  · obtain rfl := Option.some.inj hm
    exact column h
  · split at hm
    · cases hm
    · obtain rfl := Option.some.inj hm
      refine composite.2 fun entry hentry => ?_
      obtain ⟨⟨p, name⟩, -, hafter⟩ := mem_filterMap.1 hentry
      obtain ⟨q, -, rfl⟩ := map_eq_some_iff.1 hafter
      exact column h

/-- A path below a data source leads to columns of that data source. -/
theorem holds_resolvePath (h : P (.source a)) : OrPlain P (sc.resolvePath schema a path) := by
  refine plain_shape.orPlain.bind fun shape _ => ?_
  split
  · split
    · exact Schema.plain_columnName.orPlain.andThen fun _ _ => column h
    · exact ensures_throw (by simp)
  · exact ensures_orThrow (holds_resolveColumns h) (by simp)

/-- A member of a value has marks of the value. -/
theorem holds_resolveMember (h : P target) :
    OrPlain P (sc.resolveMember schema target member) := by
  unfold resolveMember
  split
  · exact holds_resolvePath h
  · exact ensures_orThrow (Node.holds_memberOf (composite.1 h)) (by simp)
  · split
    · exact ensures_pure (grouping.1 h).1
    · exact ensures_throw (by simp)
  · exact ensures_throw (by simp)

theorem holds_sourceLeaves (h : P (.source a)) :
    OrPlain (fun leaves => ∀ leaf ∈ leaves, P leaf.2) (sc.sourceLeaves schema a) := by
  refine plain_shape.orPlain.bind fun shape _ => ?_
  split
  · refine Schema.plain_columns.orPlain.andThen fun columns _ => ?_
    exact forall_mem_map.2 fun _ _ => column h
  · exact ensures_pure (forall_mem_map.2 fun _ _ => column h)

mutual

/-- The columns of a value have marks of the value. -/
theorem holds_flatten (n : Node) (h : P n) {base : Path} :
    OrPlain (fun leaves => ∀ leaf ∈ leaves, P leaf.2) (sc.flatten schema base n) := by
  cases n with
  | composite entries =>
    rw [flatten]
    exact holds_flattenEntries entries (composite.1 h)
  | source a =>
    rw [flatten]
    exact (holds_sourceLeaves h).andThen fun _ hleaves => forall_mem_map.2 fun leaf hleaf => hleaves leaf hleaf
  | grouping key element =>
    rw [flatten]
    exact holds_flatten key (grouping.1 h).1
  | select | placeholder | table | union | update | delete => exact ensures_throw (by simp)
  | derived => exact ensures_pure (forall_mem_singleton.2 (subquery h))
  | _ =>
    exact ensures_pure (forall_mem_singleton.2 h)

theorem holds_flattenEntries (entries : List (Path × Node)) (h : ∀ entry ∈ entries, P entry.2) {base : Path} :
    OrPlain (fun leaves => ∀ leaf ∈ leaves, P leaf.2) (sc.flattenEntries schema base entries) := by
  match entries with
  | [] => exact ensures_pure (forall_mem_nil _)
  | (p, n) :: rest =>
    rw [forall_mem_cons] at h
    rw [flattenEntries]
    exact (holds_flatten n h.1).bind fun first hfirst => (holds_flattenEntries rest h.2).andThen fun others hothers =>
      forall_mem_append.2 ⟨hfirst, hothers⟩

end

theorem holds_rowKey (h : P n) : OrPlain (fun key => ∀ ms ∈ key, ∀ m ∈ ms, P m) (sc.rowKey? schema n) := by
  unfold rowKey?
  split
  · next a =>
    refine plain_shape.orPlain.bind fun shape _ => ?_
    split
    · exact ensures_pure nofun
    · refine Schema.plain_primaryKeys.orPlain.bind fun keys _ => ?_
      split
      · exact ensures_pure nofun
      · refine Ensures.andThen (ensures_mapM fun k _ => holds_resolvePath h) fun nodes hnodes ms hms => ?_
        exact mem_some_iff.1 hms ▸ hnodes
  · exact ensures_pure nofun

theorem holds_keyLeaves (h : P n) : OrPlain (fun leaves => ∀ m ∈ leaves, P m) (sc.keyLeaves schema n) := by
  refine (holds_rowKey h).bind fun key hkey => ?_
  split
  · next ms => exact ensures_pure (hkey ms rfl)
  · split
    · exact (holds_flatten n h).andThen fun _ => forall_mem_map.2
    · exact ensures_pure (forall_mem_singleton.2 h)

/-- A comparison has marks of the values compared. -/
theorem holds_equality (hl : P left) (hr : P right) :
    OrPlain P (sc.equality schema left right) := by
  refine (holds_keyLeaves hl).bind fun ls hls => (holds_keyLeaves hr).bind fun rs hrs => ?_
  split
  · refine ensures_orThrow (holds_conjunction fun m hm => ?_) (by simp)
    obtain ⟨i, hi, rfl⟩ := mem_iff_getElem.1 hm
    rw [getElem_zipWith]
    exact holds_operation (holds_asScalar (hls _ (getElem_mem _)))
      (holds_asScalar (hrs _ (getElem_mem _)))
  · exact ensures_throw (by simp)

/-- The condition of a navigation mentions the two data sources that it joins. -/
theorem holds_navigationCondition {nav : Navigation} {parent child : Alias}
    (hparent : P (.source parent)) (hchild : P (.source child)) :
    OrPlain P (sc.navigationCondition schema nav parent child) := by
  have hkey : ∀ key, OrPlain P (sc.keyCondition schema nav.target parent child key) := fun key =>
    (holds_resolvePath hparent).bind fun left hleft => Schema.plain_columnName.orPlain.andThen fun _ _ =>
      holds_operation hleft (column hchild)
  exact (ensures_mapM fun key _ => hkey key).bind fun _ hconditions =>
    ensures_orThrow (holds_conjunction hconditions) (by simp)

end Scope

/-! ## Selects -/

namespace Sql

namespace Select

/-- The clauses of a select satisfy a condition. Its data sources and common table expressions do not
count. -/
structure Clauses (P : Node → Prop) (s : Select) : Prop where
  projection : ∀ n ∈ s.projection, P n
  filter : ∀ n ∈ s.filter, P n
  groupBy : ∀ n ∈ s.groupBy, P n
  groupElement : ∀ n ∈ s.groupElement, P n
  having : ∀ n ∈ s.having, P n
  orderBy : ∀ k ∈ s.orderBy, P k.expr
  top : ∀ n ∈ s.top, P n
  skip : ∀ n ∈ s.skip, P n

omit [Compositional P] in
theorem clauses_empty : empty.Clauses P := ⟨nofun, nofun, nofun, nofun, nofun, forall_mem_nil _, nofun, nofun⟩

@[simp]
theorem sources_addFilter (s : Select) (predicate : Node) : (s.addFilter predicate).sources = s.sources := by
  unfold addFilter
  split <;> rfl

@[simp]
theorem ctes_addFilter (s : Select) (predicate : Node) : (s.addFilter predicate).ctes = s.ctes := by
  unfold addFilter
  split <;> rfl

@[simp]
theorem sources_project (s : Select) (value : Node) : (s.project value).sources = s.sources := by
  unfold project
  split <;> rfl

@[simp]
theorem ctes_project (s : Select) (value : Node) : (s.project value).ctes = s.ctes := by
  unfold project
  split <;> rfl

@[simp]
theorem sources_withKeyProjection (s : Select) : s.withKeyProjection.sources = s.sources := by
  unfold withKeyProjection
  split <;> rfl

@[simp]
theorem ctes_withKeyProjection (s : Select) : s.withKeyProjection.ctes = s.ctes := by
  unfold withKeyProjection
  split <;> rfl

theorem Clauses.addFilter (h : s.Clauses P) (hp : P predicate) : (s.addFilter predicate).Clauses P := by
  have conjoined : ∀ existing : Option Node, (∀ n ∈ existing, P n) → ∀ n ∈ conjoined existing predicate, P n := by
    intro existing hexisting n hn
    cases existing with
    | none =>
      obtain rfl := mem_some_iff.1 hn
      exact hp
    | some e =>
      obtain rfl := mem_some_iff.1 hn
      exact binary (hexisting e rfl) hp
  unfold Select.addFilter
  split
  · exact { h with having := conjoined s.having h.having }
  · exact { h with filter := conjoined s.filter h.filter }

omit [Compositional P] in
theorem Clauses.setProjection (h : s.Clauses P) {o : Option Node} (ho : ∀ n ∈ o, P n) :
    ({ s with projection := o } : Select).Clauses P := { h with projection := ho }

theorem Clauses.project (h : s.Clauses P) {value : Node} (hv : P value) : (s.project value).Clauses P := by
  unfold Select.project
  split
  · exact h
  · exact h.setProjection fun n hn => mem_some_iff.1 hn ▸ holds_asScalar hv

theorem Clauses.group (h : s.Clauses P) (hkey : P key) (helement : P element) :
    (s.group key element).Clauses P := { h with
    groupBy := fun _ hn => mem_some_iff.1 hn ▸ holds_asScalar hkey
    groupElement := fun _ hn => mem_some_iff.1 hn ▸ helement }

omit [Compositional P] in
theorem Clauses.order (h : s.Clauses P) {items : List OrderItem} (hitems : ∀ k ∈ items, P k.expr)
    {append : Bool} : (s.order items append).Clauses P := by
  refine { h with orderBy := ?_ }
  cases append with
  | true => exact forall_mem_append.2 ⟨h.orderBy, hitems⟩
  | false => exact hitems

omit [Compositional P] in
theorem Clauses.withKeyProjection (h : s.Clauses P) : s.withKeyProjection.Clauses P := by
  unfold Select.withKeyProjection
  split
  · exact h.setProjection h.groupBy
  · exact h

section

variable (h : s.Clauses P) (hinitial : ∀ a ∈ s.initial?, P (.source a))

include h hinitial

theorem Clauses.elementShape :
    P (s.elementShape sc) := by
  unfold Select.elementShape
  split
  · next helement => exact h.groupElement _ helement
  · next a _ ha => exact Scope.holds_sourceValue (hinitial a ha)
  · exact Compositional.placeholder

/-- The value of a row comes from the clauses of the select or is a row of its first data source. -/
theorem Clauses.currentShape :
    P (s.currentShape sc) := by
  unfold Select.currentShape
  split
  · next hprojection => exact h.projection _ hprojection
  · next hkey => exact grouping.2 ⟨h.groupBy _ hkey, h.elementShape hinitial⟩
  · next ha => exact Scope.holds_sourceValue (hinitial _ ha)
  · exact Compositional.placeholder

theorem Clauses.groupingShape :
    OrPlain P (s.groupingShape sc) := by
  unfold Select.groupingShape
  split
  · next hkey => exact ensures_pure (grouping.2 ⟨h.groupBy _ hkey, h.elementShape hinitial⟩)
  · exact ensures_throw (by simp)

/-- A closed select is the select with its output columns, which come from the value of its rows. -/
theorem Clauses.close {d : Derived} (hd : s.close schema sc = .ok (d, after)) :
    d.select = s.withKeyProjection ∧ (∀ c ∈ d.columns, P c.expr) ∧ after = sc.fresh.2 := by
  simp only [Select.close, Result.bind_eq_ok, Result.pure_eq_ok, Prod.mk.injEq] at hd
  obtain ⟨leaves, hleaves, rfl, rfl⟩ := hd
  refine ⟨rfl, fun c hc => ?_, rfl⟩
  have hinitial' : ∀ a ∈ s.withKeyProjection.initial?, P (.source a) := by
    rwa [initial?, sources_withKeyProjection]
  have hleaves := (Scope.holds_flatten _ (h.withKeyProjection.currentShape hinitial')).of_eq_ok hleaves
  exact hleaves _ (mem_nameColumnsFrom hc)

end

omit [Compositional P] in
theorem remapEntries_eq (replacements : List (Node × Node)) (expansions : List (Alias × Node))
    (entries : List (Path × Node)) : remapEntries replacements expansions entries =
      entries.map fun e => (e.1, remap replacements expansions e.2) := by
  induction entries with
  | nil => rfl
  | cons entry rest ih => rw [remapEntries, ih, map_cons]

omit [Compositional P] in
theorem remap_of_some
    {r : Node × Node} (h : replacements.find? (·.1 == n) = some r) : remap replacements expansions n = r.2 := by
  cases n <;> simp only [remap, h]

/-- A value of the old select as a value of the new one keeps its marks, except for mentions of the
new data source. -/
theorem holds_remap (hr : ∀ r ∈ replacements, P r.2) (he : ∀ e ∈ expansions, P e.2) (n : Node)
    (h : P n) : P (remap replacements expansions n) := by
  induction n using Node.induction_on_operands with
  | step n ih =>
    cases hfind : replacements.find? (·.1 == n) with
    | some r =>
      rw [remap_of_some hfind]
      exact hr r (mem_of_find?_eq_some hfind)
    | none =>
      cases n with
      | source a =>
        simp only [remap, hfind]
        cases hlookup : expansions.lookup a with
        | none => exact h
        | some value => exact he (a, value) (mem_of_lookup hlookup)
      | composite entries =>
        simp only [remap, hfind, remapEntries_eq, composite, forall_mem_map] at h ⊢
        exact fun entry hentry => ih entry.2 (mem_map_of_mem hentry) (h entry hentry)
      | grouping key element =>
        simp only [remap, hfind, grouping] at h ⊢
        exact ⟨ih key (by simp [Node.operands]) h.1, ih element (by simp [Node.operands]) h.2⟩
      | _ =>
        simp only [remap, hfind]
        exact h

theorem Wrapped.holds_expansions {w : Wrapped} (h : P (.source w.name)) :
    OrPlain (fun expansions => ∀ e ∈ expansions, P e.2) (w.expansions schema sc) := by
  unfold Wrapped.expansions
  split
  · exact ensures_pure (forall_mem_singleton.2 (Scope.holds_sourceValue h))
  · refine ensures_foldlM (forall_mem_nil _) fun found hfound entry _ => ?_
    split
    · split
      · refine (Scope.holds_resolvePath h).andThen fun value hvalue => ?_
        exact forall_mem_append.2 ⟨hfound, forall_mem_singleton.2 hvalue⟩
      · exact ensures_pure hfound
    · exact ensures_pure hfound
  · exact ensures_pure (forall_mem_nil _)

/-- Binding parameters to the columns of a new select changes nothing but the parameters, and what
they gain are mentions of its data source. -/
theorem Wrapped.rebind_eq_ok {w : Wrapped} (h : P (.source w.name))
    (hparams : ∀ p ∈ sc.params, P p.2) (hafter : w.rebind schema sc = .ok after) :
    (∀ p ∈ after.params, P p.2) ∧ after.lastAlias = sc.lastAlias := by
  simp only [Wrapped.rebind, Result.bind_eq_ok, Result.pure_eq_ok] at hafter
  obtain ⟨expansions, he, rfl⟩ := hafter
  refine ⟨fun p hp => ?_, rfl⟩
  obtain ⟨⟨name, n⟩, hn, rfl⟩ := mem_map.1 hp
  refine holds_remap (fun r hr => ?_) ((w.holds_expansions h).of_eq_ok he) n (hparams _ hn)
  obtain ⟨c, -, rfl⟩ := mem_map.1 hr
  exact column h

/-! Selects are closed and wrapped without a look at those that are lent. -/

omit [Compositional P] in
theorem plain_close : (s.close schema sc).Plain := by
  have hflatten : ∀ n, (sc.flatten schema [] n).Plain := fun n =>
    (Scope.holds_flatten (P := fun _ => True) n trivial).failsBy
  simp [Select.close, hflatten]

omit [Compositional P] in
theorem plain_prepare {op : Operation} : (s.prepare schema op sc).Plain := by
  have hcheck : (s.checkModifiable op).Plain := by
    unfold checkModifiable
    split <;> simp
  have hexpansions : ∀ (w : Wrapped) (sc : Scope), (w.expansions schema sc).Plain := fun w sc =>
    (w.holds_expansions (P := fun _ => True) trivial).failsBy
  rw [prepare, plain_bind]
  refine ⟨hcheck, fun _ _ => ?_⟩
  split
  · simp [wrap, enclose, Wrapped.rebind, hexpansions, plain_close]
  · exact plain_pure

end Select

end Sql

/-! ## Steps -/

theorem holds_pageOffset {page size : Node} (hpage : P page) (hsize : P size) : OrPlain P (pageOffset page size) := by
  unfold pageOffset
  split
  · exact plain_checked.orPlain.bind fun _ _ => plain_checked.orPlain.andThen fun _ _ => literal
  · exact ensures_pure (holds_operation (holds_operation hpage literal) hsize)

/-- A select of an aggregate reads what the select reads. -/
theorem Sql.Select.Clauses.aggregateRows {s : Select} (h : s.Clauses P) (hlambda : ∀ n ∈ lambda, P n) :
    OrPlain (fun t => t.Clauses P ∧ t.sources = s.sources ∧ t.ctes = s.ctes) (aggregateRows method s lambda) := by
  have hcount : ∀ {s' : Select} {f : AggregateFunction} {arg : Option Node}, s'.Clauses P → (∀ n ∈ arg, P n) →
        Select.Clauses P { s' with orderBy := [], projection := some (.aggregate f arg) } := by
    intro s' f arg hs' harg
    refine { hs' with orderBy := forall_mem_nil _, projection := fun n hn => ?_ }
    obtain rfl := mem_some_iff.1 hn
    exact aggregate harg
  have hvalue : ∀ n ∈ lambda <|> s.projection, P n := by
    cases lambda with
    | none => exact h.projection
    | some m => exact hlambda
  have hargument : OrPlain P (aggregateArgument method s lambda) := by
    refine (ensures_orThrow hvalue (by simp)).bind fun value hvalue => ?_
    split
    · exact ensures_throw (by simp)
    · exact ensures_pure hvalue
  simp only [QueryLowering.aggregateRows]
  split
  · cases lambda with
    | none => exact ensures_pure ⟨hcount h nofun, rfl, rfl⟩
    | some condition =>
      have hfiltered := h.addFilter (holds_condition (hlambda condition rfl))
      exact ensures_pure ⟨hcount hfiltered nofun, sources_addFilter .., ctes_addFilter ..⟩
  · refine hargument.andThen fun argument hargument => ⟨hcount h fun n hn => ?_, rfl, rfl⟩
    exact mem_some_iff.1 hn ▸ hargument

/-! ## Selects whose marks satisfy a condition -/

namespace Sql

/-- A condition under which the aliases of the data sources of a select may be mentioned. -/
def AdmitsSources (A : Mark → Prop) : Prop := ∀ l, A (.sources l) → ∀ d ∈ l, A (.mention d.name)

namespace Select

theorem Every.clauses (h : s.Every A) : s.Clauses (Node.Every A) :=
  ⟨h.projection, h.filter, h.groupBy, h.groupElement, h.having, h.orderBy, h.top, h.skip⟩

/-- Other clauses in the place of those of a select. -/
theorem Every.withClauses (h : s.Every A) (ht : t.Clauses (Node.Every A)) (hsources : t.sources = s.sources)
    (hctes : t.ctes = s.ctes) : t.Every A where
  own := hsources ▸ h.own
  ctes := hctes ▸ h.ctes
  sources := hsources ▸ h.sources
  projection := ht.projection
  filter := ht.filter
  groupBy := ht.groupBy
  groupElement := ht.groupElement
  having := ht.having
  orderBy := ht.orderBy
  top := ht.top
  skip := ht.skip

theorem Every.addFilter (h : s.Every A) (hp : predicate.Every A) : (s.addFilter predicate).Every A :=
  h.withClauses (h.clauses.addFilter hp) (sources_addFilter ..) (ctes_addFilter ..)

theorem Every.addCte (h : s.Every A) {c : Cte} (hc : c.Every A) : (s.addCte c).Every A :=
  { h with ctes := forall_mem_append.2 ⟨h.ctes, forall_mem_singleton.2 hc⟩ }

theorem every_empty (h : A (.sources [])) : empty.Every A where
  own := h
  ctes := forall_mem_nil _
  sources := forall_mem_nil _
  projection := nofun
  filter := nofun
  groupBy := nofun
  groupElement := nofun
  having := nofun
  orderBy := forall_mem_nil _
  top := nofun
  skip := nofun

theorem Every.initial (hA : AdmitsSources A) (h : s.Every A) : ∀ a ∈ s.initial?, (Node.source a).Every A := by
  intro a ha
  obtain ⟨d, hd, rfl⟩ := map_eq_some_iff.1 ha
  exact Node.every_source.2 (hA s.sources h.own d (mem_of_mem_head? hd))

theorem Every.currentShape (hA : AdmitsSources A) (h : s.Every A) : (s.currentShape sc).Every A :=
  h.clauses.currentShape (h.initial hA)

end Select

end Sql

end QueryLowering
