import QueryLowering.Proofs.Agreement
import QueryLowering.Proofs.Rows

/-!
# Universal tests as existence tests

Replacing every universal test of an expression by the negation of an existence test changes nothing of what
the expression is lowered to: the same expressions are lowered, to the same nodes, with the same aliases.

The two forms negate at different places. A universal test negates its condition as a condition; an existence
test makes a condition of a negation. Both are the same because all that the lowering negates are
conditions already.

## Main results

* `Sql.Node.Tidy.negation_condition`: the negation of a condition is the condition of a negation.
* `relate_universal`: a universal test is lowered like the negated existence test.
* `Desugar.settled_all`: the pass leaves what it has made.
* `lower_all_iff`: an expression is lowered like the one without universal tests.
-/

namespace QueryLowering

open Sql Lower Result List Node QueryLowering.Expr

variable {s : Select} {cx : Context} {R : Regime} {a b body e e' condition source : Expr} {params : List Param}
variable {n : Node} {schema : Schema} {F G : List Frame → List Frame → Prop} {chained : Bool} {i j : Option Nat}
variable {r : Rule} {frames frames' : List Frame} {m : Method} {p P : Expr → Prop} {f g : Expr → Expr}
variable {α : Type}

/-! ## Negations of conditions -/

namespace Sql

/-- The nodes that can be taken out of a value again. -/
def Node.parts : Node → List Node
  | select s => s.clauses
  | derived d | rows d => d.select.clauses ++ d.columns.map (·.expr)
  | union items => items.map fun i => derived i.query
  | n => n.operands

/-- Only conditions are negated in a value and in what can be taken out of it. -/
inductive Node.Tidy : Node → Prop
  | intro {n : Node} (hnot : ∀ e, n = unary .not e → e.isPredicate = true) (hparts : ∀ m ∈ n.parts, Tidy m) : Tidy n

theorem Node.tidy_iff : n.Tidy ↔ (∀ e, n = unary .not e → e.isPredicate = true) ∧ ∀ m ∈ n.parts, m.Tidy :=
  ⟨fun ⟨hnot, hparts⟩ => ⟨hnot, hparts⟩, fun h => .intro h.1 h.2⟩

theorem Node.asScalar_of_isPredicate (h : n.isPredicate = true) : n.asScalar = n := by
  cases n with
  | derived d => cases h
  | _ => rfl

theorem Node.condition_of_isPredicate (h : n.isPredicate = true) : n.condition = n := if_pos h

/-- The negation of a condition is the condition of a negation. -/
theorem Node.Tidy.negation_condition (h : n.Tidy) : n.condition.negation = n.negation.asScalar.condition := by
  obtain ⟨hnot, -⟩ := h
  cases n with
  | unary op e =>
    cases op with
    | not =>
      have he := hnot e rfl
      simp only [condition_of_isPredicate (n := .unary .not e) rfl, negation, asScalar_of_isPredicate he,
        condition_of_isPredicate he]
    | minus => rfl
  | binary op l r => cases op <;> rfl
  | _ => rfl

theorem Node.parts_eq (hn : blocksOf? n = none) : n.parts = n.operands := by
  cases n with
  | select | derived | rows | union => cases hn
  | _ => rfl

theorem Node.tidy_rows {d : Derived} : (Node.rows d).Tidy ↔ (Node.derived d).Tidy := by
  rw [tidy_iff, tidy_iff]
  simp [Node.parts]

instance : Compositional Node.Tidy := .ofOperands (fun hn h _ hnot _ => .intro hnot (parts_eq hn ▸ h))
    (fun hn h => parts_eq hn ▸ (tidy_iff.1 h).2) tidy_rows
    (fun _ => tidy_iff.2 (by simp [Node.parts, Node.operands]))

theorem Node.tidy_select : (Node.select s).Tidy ↔ s.Clauses Node.Tidy := by
  rw [tidy_iff, Select.clauses_iff]
  simp [Node.parts]

/-- A select that has no clauses but its data sources and common table expressions. -/
theorem Node.tidy_frame {sources : List DataSource} {ctes : List Cte} :
    (Node.select { Select.empty with sources := sources, ctes := ctes }).Tidy :=
  tidy_select.2 { Select.clauses_empty with }

instance : Invariant Node.Tidy where
  source := tidy_iff.2 (by simp [Node.parts, Node.operands])
  select := by
    intro s
    rw [tidy_select]
    exact ⟨fun h => ⟨h, tidy_frame⟩, fun h => h.1⟩
  empty := tidy_frame
  opened _ := tidy_frame
  joined h _ _ := tidy_select.2 { tidy_select.1 h with }
  conditioned h _ ht := by
    obtain ⟨_, _, _, -, -, -, rfl⟩ := Select.setCondition_eq_ok ht
    exact tidy_select.2 { tidy_select.1 h with }
  derived := by
    intro d
    rw [tidy_select, tidy_iff, Select.clauses_iff]
    simp [Node.parts, or_imp, forall_and]
  existence _ := tidy_iff.2 (by simp [Node.parts, Node.operands])
  union := by
    intro items
    rw [tidy_iff]
    simp [Node.parts]
  recursion _ _ := tidy_frame
  deletion _ _ _ hn := by
    simp only [Modification.toDelete, bind_eq_ok, pure_eq_ok] at hn
    obtain ⟨_, -, rfl⟩ := hn
    exact tidy_iff.2 (by simp [Node.parts, Node.operands])
  updating _ _ _ hn := by
    simp only [Modification.toUpdate, bind_eq_ok, pure_eq_ok] at hn
    obtain ⟨_, -, _, -, rfl⟩ := hn
    exact tidy_iff.2 (by simp [Node.parts, Node.operands])

end Sql

/-! ## Nodes of one part -/

/-- Only conditions are negated in all values. -/
abbrev Schema.tidiness (schema : Schema) : Regime := Invariant.regime schema Node.Tidy

/-- The lowering of an expression negates conditions only. -/
theorem Expr.visit_tidy {w : schema.tidiness.World} (rs : List Recognizer) (e : Expr) :
    Visit.Agree schema.tidiness w cx (e.visit rs) (e.visit rs) :=
  e.visit_upholds (fun _ _ _ _ _ _ => trivial) (Invariant.admits schema rs fun _ _ => True) trivial

/-- Frames below which no navigation is the collection of a `SelectMany`. -/
def Apart (frames frames' : List Frame) : Prop := ∀ f, collectionOf f frames = false ∧ collectionOf f frames' = false

theorem Apart.samePlace (h : Apart frames frames') (i j : Option Nat) : SamePlace i j frames frames' :=
  fun f g _ _ => (h f).1.trans (h g).2.symm

theorem Apart.symm (h : Apart frames frames') : Apart frames' frames := fun f => (h f).symm

theorem Apart.refl (h : Apart frames frames') : Apart frames frames := fun f => ⟨(h f).1, (h f).1⟩

theorem Expr.visit_apart (e : Expr) : Relate schema.tidiness Apart (e.run chained i)
    (e.run chained j) fun _ n n' => n = n' ∧ n.Tidy :=
  relate_iff_agree.2 fun _ _ => (e.visit_tidy _ chained i j).anti fun _ _ h => h.samePlace i j

/-- The frame of a node that is no `SelectMany` and is apart itself. -/
theorem Apart.inside (h : Apart frames frames') {f : Frame}
    (hf : f.rule ≠ "SelectMany") : Apart (f :: frames) frames' := by
  refine fun g => ⟨?_, (h g).2⟩
  rw [collectionOf, if_neg hf, (h f).1, ite_self]

/-- The frame of a node that is neither a `SelectMany` nor a lambda or a quote. -/
theorem collectionOf_other {f g : Frame} (hselect : f.rule ≠ "SelectMany")
    (hlambda : ¬ (f.rule = "Lambda" ∨ f.rule = "Quote")) : collectionOf g (f :: frames) = false := by
  rw [collectionOf, if_neg hselect, if_neg hlambda]

/-- A node with one part whose value hangs on the value of the part only. -/
theorem relate_onePart [R.Lawful] {x : Expr} {f : Node → Node} {y : Lower α}
    {Q S : R.World → Node → α → Prop} (hrule : e.rule? = some r)
    (hr : r.isPure = true) (hchildren : e.children = [x]) (hfinish : ∀ p n, r.finish e p [n] = pure (f n))
    (h : Relate R G (x.run false (some 0)) y Q)
    (hFG : ∀ frames frames', F frames frames' → G (⟨r.name, e.kindName, i⟩ :: frames) frames')
    (hQS : ∀ w n a, Q w n a → S w (f n) a) : Relate R F (e.run chained i) y S := by
  rw [run_eq]
  simp only [lowerNode, hrule, lowerBy, hchildren, map_cons, map_nil, zip_cons_cons,
    zip_nil_left, lowerParts, lowerPart, Rule.skipsParts_of_isPure hr, Rule.chains_of_isPure hr,
    Rule.producesQuery_of_isPure hr, Rule.bindings_of_isPure hr, Rule.receive_of_isPure hr, Bool.false_and,
    Bool.false_eq_true, if_false, pure_bind, bind_assoc, hfinish]
  exact (h.unbound.mapLeft hQS).inFrame hFG

/-- Below frames that are apart, a lambda and quotes around it are lowered like the body. -/
theorem relate_asLambda (he : e.asLambda? = some (params, body)) :
    Relate schema.tidiness Apart (e.run chained i) (body.run false j) fun _ n n' => n = n' ∧ n.Tidy := by
  fun_induction Expr.asLambda? e generalizing chained i with
  | case1 params' body' =>
    obtain ⟨rfl, rfl⟩ := Prod.mk.inj (Option.some.inj he)
    exact relate_onePart (r := .passthrough "Lambda") (f := id) rfl rfl rfl (fun _ _ => rfl) body'.visit_apart
      (fun _ _ h => h.inside (by simp [Rule.name])) (fun _ _ _ h => h)
  | case2 operand ty ih =>
    exact relate_onePart (r := .passthrough "Quote") (f := id) rfl rfl rfl (fun _ _ => rfl) (ih he)
      (fun _ _ h => h.inside (by simp [Rule.name])) (fun _ _ _ h => h)
  | case3 => cases he

/-- Below frames that are apart, quotes around an expression make no difference to its lowering. -/
theorem relate_stripQuotes : Relate schema.tidiness Apart (e.run false i) (e.stripQuotes.run false j)
      fun _ n n' => n = n' ∧ n.Tidy := by
  fun_induction Expr.stripQuotes e generalizing i with
  | case1 operand ty ih =>
    exact relate_onePart (r := .passthrough "Quote") (f := id) rfl rfl rfl (fun _ _ => rfl) ih
      (fun _ _ h => h.inside (by simp [Rule.name])) (fun _ _ _ h => h)
  | case2 e _ => exact e.visit_apart

/-! ## Universal tests -/

theorem lowerBy_two (hchildren : e.children = [a, b]) (v w : Visit) : lowerBy r e [v, w] chained = do
      let q ← lowerPart r {} 0 a v let q' ← lowerPart r q.1 1 b w let n ← r.finish e q'.1 [q.2, q'.2]
      if r.producesQuery && !chained then closeQuery n else return n := by
  simp only [lowerBy, hchildren, zip_cons_cons, zip_nil_left, lowerParts, bind_assoc, pure_bind]

/-- The condition of a quantifier, lowered to related values. -/
theorem runs_condition [R.Lawful] {w : R.World} {base : List (Ticket × Select)}
    {p : Progress} {universal universal' : Bool} (hu : Underway R (.step (.quantify universal true)) base w cx p)
    {v v' : Visit} (hparams : lambdaParams a = lambdaParams b) {Q : R.World → Node → Node → Prop}
    (h : Relate R F (v false (some 1)) (v' false (some 1)) Q) :
    Runs R F w cx (lowerPart (.step (.quantify universal true)) p 1 a v)
      (lowerPart (.step (.quantify universal' true)) p 1 b v') fun w' cx' q q' =>
        q.1 = q'.1 ∧ Underway R (.step (.quantify universal true)) base w' cx' q.1 ∧ Q w' q.2 q'.2 := by
  refine ((Rule.SameParts.quantify universal universal' true).same_bindings hu 1 hparams).bind ?_
  rintro ⟨p, bound⟩ ⟨hu, hbound, -⟩
  have hkept : Runs R F w cx (withParameters bound (v false (some 1))) (withParameters bound (v' false (some 1)))
      fun w' cx' n n' => R.Kept cx.lent cx'.lent ∧ Q w' n n' := .withParameters hbound (h w _)
  refine hkept.bind ?_
  rintro n n' w₁ mid hgrows - ⟨hkept, hn⟩
  refine Rule.same_receive_quantify.bind ?_
  rintro _ rfl
  exact Runs.pure ⟨rfl, hu.step hgrows hkept, hn⟩

/-- The value of a negated test, from the value of the test. -/
def negated (n : Node) : Node := n.asScalar.negation

/-- That all rows satisfy a condition is the negation of that some row satisfies its negation. -/
theorem relate_quantified (hs : (Node.select s).Tidy) {first condition : Node}
    (hcondition : condition.Tidy) : Relate schema.tidiness F (quantified true true s [first, condition])
      (quantified false true s [first, negated condition]) fun _ n n' => n = negated n' ∧ n.Tidy := by
  have hfilter := (holds_asScalar hcondition).negation_condition
  have htidy : condition.asScalar.condition.negation.Tidy :=
    holds_negation (holds_condition (holds_asScalar hcondition))
  have hfiltered : schema.tidiness.node () (.select (s.addFilter condition.asScalar.condition.negation)) :=
    Regime.addFilter hs htidy
  change Relate schema.tidiness F
    (existence (s.addFilter condition.asScalar.condition.negation) >>= fun e => pure e.negation)
    (existence (s.addFilter (negated condition).asScalar.condition)) _
  rw [negated, ← hfilter]
  refine (relate_iff_agree.2 fun _ _ => upholds_existence hfiltered).mapLeft ?_
  rintro _ n _ ⟨rfl, hn, d, rfl⟩
  exact ⟨rfl, holds_negation (P := Node.Tidy) hn⟩

/-- The two quantifiers over the same rows, the condition of the second negated. -/
theorem relate_quantifiers {condition' : Expr} (he : e.children = [source, condition])
    (he' : e'.children = [source, condition']) (hparams : lambdaParams condition = lambdaParams condition')
    (h : Relate schema.tidiness Apart (condition.run false (some 1))
      (condition'.run false (some 1)) fun _ n n' => n.Tidy ∧ n' = negated n) : Relate schema.tidiness Apart
      (lowerBy (.step (.quantify true true)) e (e.children.map Expr.run) chained)
      (lowerBy (.step (.quantify false true)) e' (e'.children.map Expr.run) false)
      fun _ n n' => n = negated n' ∧ n.Tidy := by
  intro w cx
  rw [he, he', map_cons, map_singleton, map_cons, map_singleton, lowerBy_two he, lowerBy_two he']
  refine (runs_lowerPart (.quantify true false true) (.start _ w cx) (fun _ => rfl) rfl
    fun _ _ _ _ => relate_iff_agree.1 source.visit_apart w _).bind ?_
  rintro ⟨p, first⟩ _ w₁ mid - - ⟨rfl, hu, -⟩
  refine (runs_condition hu hparams h).bind ?_
  rintro ⟨p, m⟩ ⟨_, _⟩ w₂ mid - - ⟨rfl, hu, hm, rfl⟩
  have hfinish : Runs schema.tidiness Apart w₂ mid (Rule.finish (.step (.quantify true true)) e p [first, m])
      (Rule.finish (.step (.quantify false true)) e' p [first, negated m])
      fun _ cx' n n' => schema.tidiness.Kept cx.lent cx'.lent ∧ n = negated n' ∧ n.Tidy := by
    refine (Same.present (by simp) fun t ht => ht).bind fun t ht => (Rule.runs_reclaim hu ht).bind ?_
    rintro s _ _ after - - ⟨rfl, rfl, hbase, hs⟩
    exact (relate_quantified hs hm _ after).mono fun _ _ _ _ _ h => ⟨hbase.trans h.1, h.2⟩
  exact hfinish.bind fun n n' _ _ _ _ hn => .pure hn

theorem Operator.ofMethod?_any (h : Operator.ofMethod? m = some .all) :
    Operator.ofMethod? { m with name := "Any" } = some .any := by
  unfold ofMethod? at h ⊢
  split at h
  · next hdeclared => exact if_pos hdeclared
  · cases h

/-- Below frames that are apart, the negation of an expression is lowered to the negation of its value. -/
theorem relate_notOf (e : Expr) : Relate schema.tidiness Apart (e.run false i)
      (e.notOf.run false j) fun _ n n' => n.Tidy ∧ n' = negated n := by
  refine Relate.symm (relate_onePart (F := fun f f' => Apart f' f) (r := .unary) (f := negated) rfl rfl rfl
    (fun _ _ => rfl) e.visit_apart (fun _ _ h => h.symm.inside (by simp [Rule.name])) ?_)
  rintro _ n _ ⟨rfl, hn⟩
  exact ⟨hn, rfl⟩

/-- A universal test is lowered like the negation of the test that some row fails the condition.

**Proof sketch.** Both lower the rows and then the condition, in frames below which no navigation is the
collection of a `SelectMany`. The second one lowers the condition to the negation of what the first one
lowers it to. So the selects that are closed are the same, and what is negated in the end is the same
test. -/
theorem relate_universal {ty : Ty}
    (hm : Operator.ofMethod? m = some .all) (hcondition : condition.asLambda? = some (params, body)) :
    Relate schema.tidiness (SamePlace i j) ((Expr.call m none [source, condition] ty).run chained i)
      ((Expr.unary .not (.call { m with name := "Any" } none [source, (Expr.lambda params body.notOf).quoted] ty)
        ty).run chained j) fun _ n n' => n = n' ∧ n.Tidy := by
  have hm' := Operator.ofMethod?_any hm
  have hrule : Expr.rule? (.call m none [source, condition] ty) = some (.step (.quantify true true)) :=
    rule_ungrouped hm rfl
  have hrule' : Expr.rule? (.call { m with name := "Any" } none
      [source, (Expr.lambda params body.notOf).quoted] ty) = some (.step (.quantify false true)) :=
    rule_ungrouped hm' rfl
  have hparams : lambdaParams condition = lambdaParams (Expr.lambda params body.notOf).quoted := by
    rw [lambdaParams, hcondition]
    rfl
  have hbody : Relate schema.tidiness Apart (condition.run false (some 1))
      ((Expr.lambda params body.notOf).quoted.run false (some 1)) fun _ n n' => n.Tidy ∧ n' = negated n := by
    refine (relate_asLambda (j := some 1) hcondition).through (fun _ _ h => h.refl) ?_
    refine Relate.symm ((relate_asLambda (j := some 1) rfl).through (fun _ _ h => h.symm.refl) ?_)
    exact (relate_notOf body).symm
  refine Relate.symm (relate_onePart (G := fun _ _ => True) (r := .unary) (f := negated) rfl rfl rfl
    (fun _ _ => rfl) (Relate.symm (F := fun _ _ => True) (Q := fun _ n n' => n = negated n' ∧ n.Tidy) ?_)
    (fun _ _ _ => trivial) ?_)
  · rw [run_eq, run_eq]
    simp only [lowerNode, hrule, hrule']
    refine fun w cx => .withFrame (relate_quantifiers rfl rfl hparams hbody w _) fun _ _ _ f => ⟨?_, ?_⟩ <;>
      exact collectionOf_other (by simp [Rule.name, Step.name]) (by simp [Rule.name, Step.name])
  · rintro _ n _ ⟨rfl, hn⟩
    exact ⟨rfl, hn⟩

theorem Expr.asLambda?_stripQuotes (e : Expr) : e.stripQuotes.asLambda? = e.asLambda? := by
  fun_induction Expr.stripQuotes e with
  | case1 operand ty ih => exact ih
  | case2 e _ => rfl

/-- Quotes around the condition of a universal test make no difference. -/
theorem relate_unquoted {ty : Ty} (hm : Operator.ofMethod? m = some .all) :
    Relate schema.tidiness (SamePlace i j) ((Expr.call m none [source, condition] ty).run chained i)
      ((Expr.call m none [source, condition.stripQuotes] ty).run chained j) fun _ n n' => n = n' ∧ n.Tidy := by
  have hrule : ∀ args : List Expr, args.length = 2 →
      Expr.rule? (.call m none args ty) = some (.step (.quantify true true)) :=
    fun args hargs => rule_ungrouped hm (by rw [hargs]; rfl)
  have hparams : lambdaParams condition = lambdaParams condition.stripQuotes := by
    rw [lambdaParams, lambdaParams, asLambda?_stripQuotes]
  rw [run_eq, run_eq]
  simp only [lowerNode, hrule [source, condition] rfl, hrule [source, condition.stripQuotes] rfl]
  have hparts : ∀ cx, PartsAgree schema.tidiness Apart (.step (.quantify true true)) {} 0
      [(source, source.run), (condition, condition.run)] [(source, source.run),
        (condition.stripQuotes, condition.stripQuotes.visit Recognizer.standard)] cx :=
    fun cx => ⟨rfl, fun _ w _ _ _ => relate_iff_agree.1 source.visit_apart w _, fun _ _ _ _ =>
      ⟨hparams, fun _ w _ _ _ => relate_iff_agree.1 relate_stripQuotes w _, fun _ _ _ _ => trivial⟩⟩
  refine relate_iff_agree.2 fun w cx => .withFrame (agree_lowerBy (r := .step (.quantify true true))
    (.staticCall m [source, condition] [source, condition.stripQuotes] ty) (fun h => by cases h) (fun h => by cases h)
    (hparts _) fun _ _ _ _ _ _ _ _ h => by cases h) fun _ _ _ f => ⟨?_, ?_⟩ <;>
    exact collectionOf_other (by simp [Rule.name, Step.name]) (by simp [Rule.name, Step.name])

theorem Expr.asLambda?_of_stripQuotes (h : e.stripQuotes = lambda params body) : e.asLambda? = some (params, body) := by
  rw [← asLambda?_stripQuotes, h]
  rfl

/-- A node is lowered like the one that replaces it. -/
theorem agree_allNode (e : Expr) (w : schema.tidiness.World) (cx : Context) :
    Visit.Agree schema.tidiness w cx (e.run) ((Desugar.allNode e).run) := by
  unfold Desugar.allNode
  split
  · next m receiver source condition ty hcall =>
    obtain rfl := Operator.receiver_eq_none hcall
    intro chained i j
    refine relate_iff_agree.1 ?_ w cx
    split
    · next params body hbody => exact relate_universal hcall (asLambda?_of_stripQuotes hbody)
    · exact relate_unquoted hcall
  · exact visit_tidy _ _

/-! ## What recognizers look at -/

namespace Expr

/-- A node whose parts are replaced by parts of the same types. -/
theorem alike_withChildren_map (h : ∀ c ∈ e.children, (g c).ty = c.ty) :
    e.Alike (e.withChildren (e.children.map g)) := by
  cases e with
  | call m receiver args ty =>
    cases receiver with
    | none => exact .staticCall ..
    | some receiver => exact .call ..
  | member target name ty =>
    cases target with
    | none => exact .staticMember name ty
    | some target => exact .member name ty (h target mem_cons_self).symm
  | binary op left right ty =>
    simp only [children, forall_mem_cons] at h
    exact .binary op ty h.1.symm h.2.1.symm
  | unary op operand ty => exact .unary op ty (h operand mem_cons_self).symm
  | construct ty members =>
    refine .construct ty ?_
    have hzip : (members.map (·.1)).zip ((members.map (·.2)).map g) = members.map fun m => (m.1, g m.2) := by
      rw [map_map, zip_map']
      rfl
    rw [children, hzip, map_map]
    exact map_congr_left fun m hm => congrArg (m.1, ·) (h m.2 (mem_map_of_mem hm)).symm
  | childJoin source child condition result join ty =>
    cases condition <;> cases result <;> exact .childJoin _ _ _ _ join ty rfl rfl
  | _ => constructor

section

variable (h : e.Alike e')

include h

theorem Alike.ty_eq : e'.ty = e.ty := by
  cases h <;> rfl

theorem Alike.isCaptured_eq (hparts : e.children.map isCaptured = e'.children.map isCaptured) :
    e'.isCaptured = e.isCaptured := by
  cases h with
  | member name ty htarget =>
    rw [isCaptured_member, isCaptured_member]
    simpa [children] using hparts.symm
  | _ => rfl

theorem Alike.isValueCollection_eq (hcaptured : e'.isCaptured = e.isCaptured) :
    isValueCollection e' = isValueCollection e := by
  cases h with
  | constant | array => rfl
  | _ => exact hcaptured

theorem Alike.lambdaParams_eq
    (hparts : e.children.map lambdaParams = e'.children.map lambdaParams) : lambdaParams e' = lambdaParams e := by
  cases h with
  | @unary operand operand' op t hoperand =>
    cases op with
    | quote =>
      have h : lambdaParams operand = lambdaParams operand' := by simpa [children] using hparts
      exact h.symm
    | _ => rfl
  | _ => rfl

theorem Alike.groupRule?_eq (htypes : e.children.map ty = e'.children.map ty) :
    groupRule? e' = groupRule? e := by
  cases h with
  | staticCall m args args' t =>
    cases args with
    | nil =>
      obtain rfl := map_eq_nil_iff.1 htypes.symm
      rfl
    | cons source args =>
      obtain ⟨source', args', rfl, hsource, -⟩ := map_eq_cons_iff.1 htypes.symm
      simp only [groupRule?, hsource]
  | _ => rfl

theorem Alike.membershipRule?_eq (hvalues : e.children.map isValueCollection = e'.children.map isValueCollection) :
    membershipRule? e' = membershipRule? e := by
  cases h with
  | staticCall m args args' t =>
    rcases args with _ | ⟨a, _ | ⟨b, _ | ⟨c, args⟩⟩⟩ <;> rcases args' with _ | ⟨a', _ | ⟨b', _ | ⟨c', args'⟩⟩⟩ <;>
      simp_all [children, membershipRule?]
  | call m receiver receiver' args args' t =>
    rcases args with _ | ⟨a, _ | ⟨b, args⟩⟩ <;> rcases args' with _ | ⟨a', _ | ⟨b', args'⟩⟩ <;>
      simp_all [children, membershipRule?]
  | _ => rfl

theorem Alike.queryRule?_eq (hlength : e.children.length = e'.children.length) :
    queryRule? e' = queryRule? e := by
  cases h with
  | staticCall m args args' t =>
    have hargs : args.length = args'.length := hlength
    simp only [queryRule?, hargs]
  | _ => rfl

/-- Nodes between which recognizers see no difference: besides what rules look at, they look at the types
of parts, at whether parts are collections of values, and at whether the node is captured. -/
theorem Alike.rule_eq (htypes : e.children.map ty = e'.children.map ty)
    (hvalues : e.children.map isValueCollection = e'.children.map isValueCollection)
    (hcaptured : e'.isCaptured = e.isCaptured) : e'.rule? = e.rule? := by
  have hlength : e.children.length = e'.children.length := by simpa using congrArg List.length htypes
  unfold Expr.rule? Recognizer.standard
  simp only [findSome?_cons, Recognizer.ofKind, hcaptured, h.groupRule?_eq htypes,
    h.membershipRule?_eq hvalues, h.queryRule?_eq hlength]
  cases h with
  | unary op t hoperand => cases op <;> rfl
  | @childJoin source child source' child' condition condition' result result' join t hcondition hresult =>
    have hmap : ∀ {o o' : Option Expr} (k : Nat), o.isSome = o'.isSome → o'.map (fun _ => k) = o.map (fun _ => k) := by
      intro o o' k h
      cases o <;> cases o' <;> simp_all
    have hstep : Step.ofChildJoin join condition' result' = Step.ofChildJoin join condition result := by
      rw [Step.ofChildJoin, Step.ofChildJoin, hcondition, hmap _ hcondition, hmap _ hresult]
    exact congrArg (fun step => some (Rule.step step)) hstep
  | _ => rfl

end

theorem ofKind_eq_some {name : String} {rule : Rule} {p : Expr → Bool}
    (h : (Recognizer.ofKind name rule p).rule? e = some r) : p e = true ∧ rule = r := by
  simpa [Recognizer.ofKind] using h

theorem operatorRule?_ne_captured {op : Operator} {args : Nat} : operatorRule? op args ≠ some .captured := by
  intro h
  unfold operatorRule? at h
  split at h
  case h_5 =>
    obtain ⟨step, -, hstep⟩ := Option.map_eq_some_iff.1 h
    cases hstep
  all_goals cases h

/-- Only a node that is captured is lowered as such. -/
theorem isCaptured_of_rule (h : e.rule? = some .captured) : e.isCaptured = true := by
  obtain ⟨recognizer, hrecognizer, hrule⟩ := exists_of_findSome?_eq_some h
  unfold Recognizer.standard at hrecognizer
  simp only [mem_cons, not_mem_nil, or_false] at hrecognizer
  rcases hrecognizer with rfl | rfl | rfl | rfl | rfl | rfl | rfl | rfl | rfl | rfl | rfl | rfl | rfl | rfl | rfl
  · exact (ofKind_eq_some hrule).1
  · cases (ofKind_eq_some hrule).2
  · cases (ofKind_eq_some hrule).2
  · simp only [lambdaRule?] at hrule
    split at hrule <;> cases hrule
  · simp only [groupRule?] at hrule
    split at hrule
    · split at hrule
      · split at hrule <;> cases hrule
      · cases hrule
    · cases hrule
  · simp only [membershipRule?] at hrule
    split at hrule
    · cases hrule
    · split at hrule <;> cases hrule
    · split at hrule <;> cases hrule
    · cases hrule
  · simp only [queryRule?] at hrule
    split at hrule
    · obtain ⟨op, -, hop⟩ := Option.bind_eq_some_iff.1 hrule
      exact absurd hop operatorRule?_ne_captured
    · cases hrule
  · cases (ofKind_eq_some hrule).2
  · dsimp only at hrule
    split at hrule <;> cases hrule
  all_goals cases (ofKind_eq_some hrule).2

end Expr

/-- What a node above an expression sees of it, and recognizers do, is the same of another expression. -/
structure Expr.StandsFor (e e' : Expr) : Prop where
  ty : e'.ty = e.ty
  params : lambdaParams e' = lambdaParams e
  captured : e'.isCaptured = e.isCaptured
  values : isValueCollection e' = isValueCollection e

theorem Expr.StandsFor.trans {e'' : Expr} (h : e.StandsFor e') (h' : e'.StandsFor e'') : e.StandsFor e'' :=
  ⟨h'.ty.trans h.ty, h'.params.trans h.params, h'.captured.trans h.captured, h'.values.trans h.values⟩

/-! ## Replacing universal tests -/

namespace Desugar

theorem standsFor_allNode (e : Expr) : e.StandsFor (allNode e) := by
  unfold allNode
  split
  · split <;> exact ⟨rfl, rfl, rfl, rfl⟩
  · exact ⟨rfl, rfl, rfl, rfl⟩

/-- The parts of a node with their universal tests replaced. -/
theorem map_all_children {f : Expr → α} {es : List Expr} (h : ∀ c ∈ es, f (all c) = f c) :
    es.map f = (es.map all).map f := by
  rw [map_map]
  exact map_congr_left fun c hc => (h c hc).symm

theorem standsFor_withChildren (h : ∀ c ∈ e.children, c.StandsFor (all c)) :
    e.StandsFor (e.withChildren (e.children.map all)) := by
  have halike := alike_withChildren_map fun c hc => (h c hc).ty
  have hparts : ∀ {α : Type} {f : Expr → α}, (∀ c ∈ e.children, f (all c) = f c) →
      e.children.map f = (e.withChildren (e.children.map all)).children.map f := by
    intro α f hf
    rw [children_withChildren_map]
    exact map_all_children hf
  have hcaptured := halike.isCaptured_eq (hparts fun c hc => (h c hc).captured)
  exact ⟨halike.ty_eq, halike.lambdaParams_eq (hparts fun c hc => (h c hc).params), hcaptured,
    halike.isValueCollection_eq hcaptured⟩

theorem all_eq (e : Expr) : all e = allNode (e.withChildren (e.children.map all)) := mapUp_eq allNode e

theorem standsFor_all (e : Expr) : e.StandsFor (all e) := by
  induction e using induction_on_children with
  | _ e ih =>
    rw [all_eq]
    exact (standsFor_withChildren ih).trans (standsFor_allNode _)

/-- A captured variable and its members hold no universal test. -/
theorem map_all_of_isCaptured (h : e.isCaptured = true) : e.children.map all = e.children := by
  induction e using induction_on_children with
  | _ e ih =>
    cases e with
    | captured name value ty => rfl
    | member target name ty =>
      cases target with
      | none => cases h
      | some target =>
        rw [isCaptured_member] at h
        have htarget : all target = target := by
          have hfixed : allNode target = target := by
            cases target <;> first | rfl | cases h
          rw [all_eq, ih target mem_cons_self h, withChildren_children, hfixed]
        exact congrArg (fun t => [t]) htarget
    | _ => cases h

/-- An expression is lowered like the one without universal tests.

**Proof sketch.** By induction over the expression. Replacing the universal tests of its parts changes
nothing that recognizers and rules look at, so the node is lowered by the same rule, from parts that
are lowered alike. If it is a universal test itself, it is replaced then. -/
theorem agree_all (schema : Schema) (e : Expr) (w : schema.tidiness.World) (cx : Context) :
    Visit.Agree schema.tidiness w cx (e.run) ((all e).run) := by
  induction e using induction_on_children generalizing w cx with
  | _ e ih =>
    have hparts : ∀ c ∈ e.children, c.StandsFor (all c) := fun c _ => standsFor_all c
    have halike := alike_withChildren_map fun c hc => (hparts c hc).ty
    have hchildren := e.children_withChildren_map all
    have hrule := halike.rule_eq (by rw [hchildren]; exact map_all_children fun c hc => (hparts c hc).ty)
      (by rw [hchildren]; exact map_all_children fun c hc => (hparts c hc).values)
      (standsFor_withChildren hparts).captured
    have hcaptured : e.rule? = some .captured → e = e.withChildren (e.children.map all) := by
      intro hrule
      rw [map_all_of_isCaptured (isCaptured_of_rule hrule), withChildren_children]
    rw [all_eq]
    refine (agree_visit (H := fun _ _ => True) (fun _ _ _ _ _ _ => trivial) (Invariant.admits schema _ _) trivial
      hrule.symm halike hcaptured ?_).trans (agree_allNode _ w cx)
    rw [hchildren, forall₂_map_right_iff]
    exact forall₂_same.2 fun c hc => ⟨(hparts c hc).params.symm, fun w cx _ => ih c hc w cx⟩

end Desugar

/-! ## No universal test is left -/

namespace Expr

/-- A universal test whose condition is a lambda. -/
def IsUniversal (e : Expr) : Prop := Operator.ofCall? e = some .all ∧
    ∃ source condition, e.children = [source, condition] ∧ condition.asLambda?.isSome = true

theorem IsUniversal.exists_call (h : e.IsUniversal) :
    ∃ m source condition ty, e = call m none [source, condition] ty := by
  obtain ⟨hall, source, condition, hchildren, -⟩ := h
  cases e with
  | call m receiver args ty =>
    obtain rfl := Operator.receiver_eq_none hall
    obtain rfl : args = [source, condition] := hchildren
    exact ⟨m, source, condition, ty, rfl⟩
  | _ => cases hall

theorem forall_mem_walk_of_asLambda?
    (he : e.asLambda? = some (params, body)) (h : ∀ x ∈ e.walk, p x) : ∀ x ∈ body.walk, p x := by
  fun_induction asLambda? e with
  | case1 params' body' =>
    obtain ⟨rfl, rfl⟩ := Prod.mk.inj (Option.some.inj he)
    exact (forall_mem_walk.1 h).2 body' mem_cons_self
  | case2 operand ty ih => exact ih he ((forall_mem_walk.1 h).2 operand mem_cons_self)
  | case3 => cases he

theorem forall_mem_walk_stripQuotes (h : ∀ x ∈ e.walk, p x) : ∀ x ∈ e.stripQuotes.walk, p x := by
  fun_induction stripQuotes e with
  | case1 operand ty ih => exact ih ((forall_mem_walk.1 h).2 operand mem_cons_self)
  | case2 e _ => exact h

/-- A function leaves every node of a tree as it is. -/
def Settled (f : Expr → Expr) (e : Expr) : Prop := ∀ x ∈ e.walk, f x = x

theorem settled_iff : e.Settled f ↔ f e = e ∧ ∀ c ∈ e.children, c.Settled f := forall_mem_walk

theorem settled_pair_iff : (∀ c ∈ [a, b], c.Settled f) ↔ a.Settled f ∧ b.Settled f := by
  rw [forall_mem_cons, forall_mem_singleton]

/-- What a function makes of nodes with parts of a kind, it makes of trees. -/
theorem forall_mem_walk_mapUp (hf : ∀ e, (∀ c ∈ e.children, ∀ x ∈ c.walk, P x) → ∀ x ∈ (f e).walk, P x) (e : Expr) :
    ∀ x ∈ (e.mapUp f).walk, P x := by
  induction e using induction_on_children with
  | _ e ih =>
    rw [mapUp_eq]
    refine hf _ ?_
    rw [children_withChildren_map]
    exact forall_mem_map.2 ih

/-- Whether an expression is a lambda or quoted. -/
def isMarked : Expr → Bool
  | lambda .. | unary .quote .. => true
  | _ => false

/-- An expression that is neither is what is left without quotes, and it is no lambda. -/
theorem of_isMarked (h : e.isMarked = false) : e.stripQuotes = e ∧ e.asLambda? = none := by
  cases e with
  | lambda => cases h
  | unary op operand ty =>
    cases op with
    | quote => cases h
    | _ => exact ⟨rfl, rfl⟩
  | _ => exact ⟨rfl, rfl⟩

theorem isMarked_stripQuotes (h : ∀ params body, e.stripQuotes ≠ lambda params body) :
    e.stripQuotes.isMarked = false := by
  fun_induction stripQuotes e with
  | case1 operand ty ih => exact ih h
  | case2 e hquote =>
    cases e with
    | lambda params body => exact absurd rfl (h params body)
    | unary op operand ty =>
      cases op with
      | quote => exact absurd rfl (hquote operand ty)
      | _ => rfl
    | _ => rfl

end Expr

namespace Desugar

open QueryLowering.Expr

/-- A universal test is left if its condition is neither a lambda nor quoted. -/
theorem allNode_eq_self_iff : allNode e = e ↔ ∀ method source condition ty,
    e = .call method none [source, condition] ty → Operator.ofMethod? method = some .all →
      condition.isMarked = false := by
  constructor
  · rintro h method source condition ty rfl hmethod
    simp only [allNode, Operator.ofCall?, hmethod] at h
    split at h
    · cases h
    · next hother =>
      have hsame : condition.stripQuotes = condition := by simpa using h
      exact hsame ▸ isMarked_stripQuotes hother
  · intro h
    unfold allNode
    split
    · next method receiver source condition ty hcall =>
      obtain rfl := Operator.receiver_eq_none hcall
      have hunmarked := h method source condition ty rfl hcall
      rw [(of_isMarked hunmarked).1]
      split
      · cases hunmarked
      · rfl
    · rfl

/-- A node that is no call is left if its parts are. -/
theorem settled_of_ofCall? (hg : SparesOthers g) (he : Operator.ofCall? e = none)
    (hparts : ∀ c ∈ e.children, c.Settled g) : e.Settled g := settled_iff.2 ⟨hg.eq_of_ofCall? he, hparts⟩

theorem settled_quotedLambda (hg : SparesOthers g) (hbody : body.Settled g) :
    (Expr.lambda params body).quoted.Settled g := by
  refine settled_of_ofCall? hg rfl (forall_mem_singleton.2 ?_)
  exact settled_of_ofCall? hg rfl (forall_mem_singleton.2 hbody)

/-- The negated existence test that replaces a universal test is left, and so is what is not replaced. -/
theorem settled_allNode (hparts : ∀ c ∈ e.children, c.Settled allNode) : (allNode e).Settled allNode := by
  have hspares := sparesOthers_allNode
  by_cases hsame : allNode e = e
  · rw [hsame]
    exact settled_iff.2 ⟨hsame, hparts⟩
  · unfold allNode at hsame ⊢
    split at hsame
    · next method receiver source condition ty hcall =>
      obtain rfl := Operator.receiver_eq_none hcall
      obtain ⟨hsource, hcondition⟩ := settled_pair_iff.1 hparts
      simp only
      split
      · next params body hlambda =>
        have hbody : body.Settled allNode := forall_mem_walk_of_asLambda? (asLambda?_of_stripQuotes hlambda) hcondition
        have hany : ∀ args, allNode (.call { method with name := "Any" } none args ty) =
            .call { method with name := "Any" } none args ty := by
          refine fun args => hspares _ fun op hop => ?_
          obtain rfl := Option.some.inj ((Operator.ofMethod?_any hcall).symm.trans hop)
          decide
        refine settled_of_ofCall? hspares rfl (forall_mem_singleton.2 (settled_iff.2 ⟨hany _, ?_⟩))
        exact settled_pair_iff.2 ⟨hsource, settled_quotedLambda hspares
          (settled_of_ofCall? hspares rfl (forall_mem_singleton.2 hbody))⟩
      · next other hother =>
        refine settled_iff.2 ⟨allNode_eq_self_iff.2 ?_, ?_⟩
        · rintro _ _ _ _ ⟨⟩ -
          exact isMarked_stripQuotes hother
        · exact settled_pair_iff.2 ⟨hsource, forall_mem_walk_stripQuotes hcondition⟩
    · exact absurd rfl hsame

theorem settled_all (e : Expr) : (all e).Settled allNode :=
  forall_mem_walk_mapUp (fun _ hparts => settled_allNode hparts) e

theorem not_isUniversal_of_allNode_eq (h : allNode e = e) : ¬ e.IsUniversal := by
  intro hu
  obtain ⟨method, source, condition, ty, rfl⟩ := hu.exists_call
  obtain ⟨hmethod, source', condition', hchildren, hlambda⟩ := hu
  obtain ⟨rfl, rfl⟩ : source = source' ∧ condition = condition' := by simpa [children] using hchildren
  rw [(of_isMarked (allNode_eq_self_iff.1 h method source condition ty rfl hmethod)).2] at hlambda
  cases hlambda

/-- No universal test whose condition is a lambda is left. -/
theorem not_isUniversal_all (e : Expr) : ∀ x ∈ (all e).walk, ¬ x.IsUniversal :=
  fun x hx => not_isUniversal_of_allNode_eq (settled_all e x hx)

end Desugar

/-- Replacing universal tests changes nothing of the lowering. Against every schema, and from the context
in which nothing has been done, an expression is lowered to a node exactly if the expression without
universal tests is, and the contexts after it are the same. The latter has no universal test left. -/
theorem lower_all_iff (schema : Schema) (e : Expr) :
    (∀ n cx, (e.lower Recognizer.standard).exec schema .empty = (.ok n, cx) ↔
      ((Desugar.all e).lower Recognizer.standard).exec schema .empty = (.ok n, cx)) ∧
    ∀ x ∈ (Desugar.all e).walk, ¬ x.IsUniversal := by
  refine ⟨fun n cx => ?_, Desugar.not_isUniversal_all e⟩
  have hempty : Context.empty.Upheld schema.tidiness () := Context.upheld_empty rfl trivial
  exact (Desugar.agree_all schema e () .empty false none none).yields_iff hempty (SamePlace.refl none [])

end QueryLowering
