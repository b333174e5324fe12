import QueryLowering.Proofs.Collections

/-!
# The normal form of expressions

The passes leave an expression in which they find nothing more to replace, so running them again changes nothing.
Each pass makes nodes out of parts that were transformed before. What it makes are no calls that a pass replaces,
and whether a call is replaced depends on little of its parts: whether its condition is a lambda, whether its
collection is one of values. No pass changes that.

## Main results

* `Desugar.settled_contains`, `Desugar.settled_childJoin`: a pass leaves what it has made.
* `Desugar.run_standard_of_settled`: the passes leave an expression without a call that one of them replaces.
* `Desugar.run_standard_normal`: the passes give an expression that they leave, without universal tests and without
  tests of membership.
-/

namespace QueryLowering

variable {f g : Expr → Expr} {e : Expr} {method : Method} {ty : Ty}

/-! ## Settled trees -/

namespace Expr

/-- Mapping a function over a tree that it leaves changes nothing. -/
theorem Settled.mapUp_eq (h : e.Settled f) : e.mapUp f = e := by
  induction e using induction_on_children with
  | _ e ih =>
    obtain ⟨he, hparts⟩ := settled_iff.1 h
    exact mapUp_eq_self he fun c hc => ih c hc (hparts c hc)

/-- A tree that a function leaves stays one when another function is mapped over it. The other function may change a
node only into a tree that the first one leaves, and its change of the parts of a node may not matter to the first. -/
theorem Settled.mapUp (h : e.Settled g) (hnode : ∀ e, e.Settled g → (f e).Settled g)
    (hparts : ∀ e, g e = e → g (e.withChildren (e.children.map (Expr.mapUp f))) =
      e.withChildren (e.children.map (Expr.mapUp f))) : (e.mapUp f).Settled g := by
  induction e using induction_on_children with
  | _ e ih =>
    obtain ⟨he, hchildren⟩ := settled_iff.1 h
    rw [Expr.mapUp_eq]
    refine hnode _ (settled_iff.2 ⟨hparts e he, ?_⟩)
    rw [children_withChildren_map]
    exact List.forall_mem_map.2 fun c hc => ih c hc (hchildren c hc)

theorem isMarked_withChildren (e : Expr) (parts : List Expr) : (e.withChildren parts).isMarked = e.isMarked := by
  unfold withChildren
  split
  case h_4 op _ _ _ => cases op <;> rfl
  all_goals rfl

theorem isValueCollection_withChildren (e : Expr) (parts : List Expr) :
    Desugar.isValueCollection (e.withChildren parts) = Desugar.isValueCollection e := by
  unfold withChildren
  split <;> rfl

/-- A property of nodes that other parts do not change, and a function neither, is one of the root of a tree that the
function is mapped over. -/
theorem mapUp_root {φ : Expr → Bool} (hparts : ∀ e parts, φ (e.withChildren parts) = φ e) (hf : ∀ e, φ (f e) = φ e)
    (e : Expr) : φ (e.mapUp f) = φ e := by
  rw [mapUp_eq, hf, hparts]

end Expr

namespace Desugar

open QueryLowering.Expr

/-! ## What each pass leaves -/

theorem isMarked_containsNode (e : Expr) : (containsNode e).isMarked = e.isMarked := by
  unfold containsNode
  split
  · split <;> rfl
  · rfl

theorem marks_childJoinNode (e : Expr) : (childJoinNode e).isMarked = e.isMarked ∧
    isValueCollection (childJoinNode e) = isValueCollection e := by
  unfold childJoinNode
  split
  · next plan hplan =>
    obtain ⟨_, _, _, _, ⟨-, _, _, _, rfl, -⟩, -⟩ := classify_eq_some hplan
    exact ⟨rfl, rfl⟩
  · exact ⟨rfl, rfl⟩

/-- A membership test is left if its collection is none of values. -/
theorem containsNode_eq_self_iff : containsNode e = e ↔ ∀ method values item ty,
    e = .call method none [values, item] ty → Operator.ofMethod? method = some .contains →
      isValueCollection values = false := by
  constructor
  · rintro h method values item ty rfl hmethod
    simp only [containsNode, Operator.ofCall?, hmethod] at h
    split at h
    · cases h
    · next hvalues => simpa using hvalues
  · intro h
    unfold containsNode
    split
    · next method receiver values item ty hcall =>
      obtain rfl := Operator.receiver_eq_none hcall
      rw [h method values item ty rfl hcall]
      rfl
    · rfl

theorem childJoinNode_eq_self_iff : childJoinNode e = e ↔ classify e = none := by
  unfold childJoinNode
  split
  · next plan hplan =>
    obtain ⟨_, _, _, _, ⟨-, _, _, _, rfl, -⟩, -⟩ := classify_eq_some hplan
    simp [hplan]
  · next hplan => simp [hplan]

/-- A call whose parts were mapped was a call before. -/
theorem exists_args_of_withChildren {args : List Expr}
    (h : e.withChildren (e.children.map f) = .call method none args ty) :
    ∃ args', e = .call method none args' ty ∧ args = args'.map f := by
  cases e with
  | call method' receiver args' ty' =>
    cases receiver with
    | some r => cases h
    | none =>
      obtain ⟨rfl, -, rfl, rfl⟩ := Expr.call.inj h
      exact ⟨args', rfl, rfl⟩
  | member target name ty' => cases target <;> cases h
  | childJoin source child condition result join ty' => cases condition <;> cases result <;> cases h
  | _ => cases h

/-- A pass that makes no lambdas of other expressions leaves universal tests that are left. -/
theorem allNode_withChildren (hf : ∀ e, (f e).isMarked = e.isMarked) (he : allNode e = e) :
    allNode (e.withChildren (e.children.map (mapUp f))) = e.withChildren (e.children.map (mapUp f)) := by
  refine allNode_eq_self_iff.2 fun method source condition ty hcall hmethod => ?_
  obtain ⟨args, rfl, hargs⟩ := exists_args_of_withChildren hcall
  obtain ⟨source', condition', rfl⟩ := List.length_eq_two.1 (by simpa using (congrArg List.length hargs).symm)
  obtain ⟨-, rfl⟩ : source = source'.mapUp f ∧ condition = condition'.mapUp f := by simpa using hargs
  rw [mapUp_root isMarked_withChildren hf]
  exact allNode_eq_self_iff.1 he method source' condition' ty rfl hmethod

/-- A pass that makes no collections of values of other expressions leaves membership tests that are left. -/
theorem containsNode_withChildren (hf : ∀ e, isValueCollection (f e) = isValueCollection e) (he : containsNode e = e) :
    containsNode (e.withChildren (e.children.map (mapUp f))) = e.withChildren (e.children.map (mapUp f)) := by
  refine containsNode_eq_self_iff.2 fun method values item ty hcall hmethod => ?_
  obtain ⟨args, rfl, hargs⟩ := exists_args_of_withChildren hcall
  obtain ⟨values', item', rfl⟩ := List.length_eq_two.1 (by simpa using (congrArg List.length hargs).symm)
  obtain ⟨rfl, -⟩ : values = values'.mapUp f ∧ item = item'.mapUp f := by simpa using hargs
  rw [mapUp_root isValueCollection_withChildren hf]
  exact containsNode_eq_self_iff.1 he method values' item' ty rfl hmethod

/-! ## What each pass makes -/

section

theorem settled_conjuncts (h : e.Settled g) : ∀ c ∈ conjuncts e, c.Settled g := by
  fun_induction conjuncts e with
  | case1 left right ty ihleft ihright =>
    obtain ⟨hleft, hright⟩ := settled_pair_iff.1 (settled_iff.1 h).2
    exact List.forall_mem_append.2 ⟨ihleft hleft, ihright hright⟩
  | case2 e => exact List.forall_mem_singleton.2 h

variable (hg : SparesOthers g)

include hg

theorem settled_conjunction {es : List Expr} (h : ∀ e ∈ es, e.Settled g) : ∀ c ∈ conjunction es, c.Settled g := by
  have hfold : ∀ (rest : List Expr) (e : Expr), e.Settled g → (∀ c ∈ rest, c.Settled g) →
      (rest.foldl (binaryOf .andAlso) e).Settled g := by
    intro rest
    induction rest with
    | nil => exact fun e he _ => he
    | cons c rest ih =>
      intro e he hrest
      obtain ⟨hc, hrest⟩ := List.forall_mem_cons.1 hrest
      exact ih _ (settled_of_ofCall? hg rfl (settled_pair_iff.2 ⟨he, hc⟩)) hrest
  rintro c hc
  cases es with
  | nil => cases hc
  | cons e rest =>
    obtain rfl := Option.some.inj hc
    obtain ⟨he, hrest⟩ := List.forall_mem_cons.1 h
    exact hfold rest e he hrest

theorem settled_filteredBy (hmethod : Operator.ofMethod? method = some .filter)
    {query : Expr} {inner : Param} {left : Option Expr} (hquery : query.Settled g) (hleft : ∀ c ∈ left, c.Settled g) :
    (filteredBy method ty query inner left).Settled g := by
  cases left with
  | none => exact hquery
  | some c =>
    have hcall : g (filteredBy method ty query inner (some c)) = filteredBy method ty query inner (some c) := by
      refine hg _ fun op hop => ?_
      obtain rfl := Option.mem_unique hmethod hop
      decide
    exact settled_iff.2 ⟨hcall, settled_pair_iff.2 ⟨hquery, settled_quotedLambda hg (hleft c rfl)⟩⟩

/-- The test that replaces a membership test is left, and so is what is not replaced. -/
theorem settled_containsNode (hparts : ∀ c ∈ e.children, c.Settled g) (hleft : containsNode e = e → g e = e) :
    (containsNode e).Settled g := by
  by_cases hsame : containsNode e = e
  · rw [hsame]
    exact settled_iff.2 ⟨hleft hsame, hparts⟩
  · unfold containsNode at hsame ⊢
    split at hsame
    · next method receiver values item ty hcall =>
      obtain rfl := Operator.receiver_eq_none hcall
      obtain ⟨hvalues, hitem⟩ := settled_pair_iff.1 hparts
      split at hsame
      · next hcollection =>
        simp only [hcollection, ↓reduceIte]
        exact settled_of_ofCall? hg rfl (settled_pair_iff.2 ⟨hitem, hvalues⟩)
      · exact absurd rfl hsame
    · exact absurd rfl hsame

/-- The join that replaces a `SelectMany` is left, and so is what is not replaced.

**Proof sketch.** The child of a join over a filtered query is filtered by some of the conjuncts of the condition, and
the join has the others as its condition. Conjunctions, lambdas, quotes and filters are not replaced. -/
theorem settled_childJoinNode (hparts : ∀ c ∈ e.children, c.Settled g) (hleft : childJoinNode e = e → g e = e) :
    (childJoinNode e).Settled g := by
  cases hplan : classify e with
  | none =>
    have hsame := childJoinNode_eq_self_iff.2 hplan
    rw [hsame]
    exact settled_iff.2 ⟨hleft hsame, hparts⟩
  | some plan =>
    obtain ⟨source, outer, body, result, ⟨-, method, collection, ty, rfl, hlambda⟩, hbody⟩ := classify_eq_some hplan
    obtain ⟨hsource, hcollection, hresult⟩ : source.Settled g ∧ collection.Settled g ∧
        ∀ c ∈ result.toList, c.Settled g := by simpa [children] using hparts
    have hbodySettled : body.Settled g := forall_mem_walk_of_asLambda? hlambda hcollection
    obtain ⟨hplanSource, hplanResult, hchild, hcondition⟩ : plan.source = source ∧ plan.result = result ∧
        plan.child.Settled g ∧ ∀ c ∈ plan.condition, c.Settled g := by
      rcases hbody with ⟨-, rfl⟩ | hfiltered
      · exact ⟨rfl, rfl, hbodySettled, by simp⟩
      · obtain ⟨method', query, inner, predicate, ty', ⟨hmethod, condition, rfl, hinner⟩, -, -,
          ⟨keys, hkeys, hcondition⟩, -, hchild, hsame, hsame', -⟩ := classifyFiltered_eq_some hfiltered
        obtain ⟨hquery, hfilter⟩ := settled_pair_iff.1 (settled_iff.1 hbodySettled).2
        have hconjuncts := settled_conjuncts (forall_mem_walk_of_asLambda? hinner hfilter)
        refine ⟨hsame, hsame', ?_, ?_⟩
        · rw [hchild]
          exact settled_filteredBy hg hmethod hquery
            (settled_conjunction hg fun c hc => hconjuncts c (List.mem_filter.1 hc).1)
        · rw [hcondition]
          rintro c ⟨⟩
          exact settled_quotedLambda hg
            (settled_conjunction hg (fun c hc => hconjuncts c (List.mem_filter.1 hc).1) keys hkeys)
    unfold childJoinNode
    rw [hplan]
    refine settled_of_ofCall? hg rfl (List.forall_mem_cons.2 ⟨hplanSource ▸ hsource, List.forall_mem_cons.2
      ⟨hchild, List.forall_mem_append.2 ⟨fun c hc => hcondition c (Option.mem_toList.1 hc), ?_⟩⟩⟩)
    rw [hplanResult]
    exact hresult

end

/-! ## Whole trees -/

/-- The pass has nothing left to replace. -/
theorem settled_contains (e : Expr) : (contains e).Settled containsNode :=
  forall_mem_walk_mapUp (fun _ hparts => settled_containsNode sparesOthers_containsNode hparts id) e

theorem settled_childJoin (e : Expr) : (childJoin e).Settled childJoinNode :=
  forall_mem_walk_mapUp (fun _ hparts => settled_childJoinNode sparesOthers_childJoinNode hparts id) e

/-- The other passes leave what the first one leaves. -/
theorem settled_allNode_contains (h : e.Settled allNode) : (contains e).Settled allNode :=
  h.mapUp (fun _ he => settled_containsNode sparesOthers_allNode (settled_iff.1 he).2 fun _ => (settled_iff.1 he).1)
    fun _ => allNode_withChildren isMarked_containsNode

theorem settled_allNode_childJoin (h : e.Settled allNode) : (childJoin e).Settled allNode :=
  h.mapUp (fun _ he => settled_childJoinNode sparesOthers_allNode (settled_iff.1 he).2 fun _ => (settled_iff.1 he).1)
    fun _ => allNode_withChildren fun e => (marks_childJoinNode e).1

theorem settled_containsNode_childJoin (h : e.Settled containsNode) : (childJoin e).Settled containsNode :=
  h.mapUp (fun _ he => settled_childJoinNode sparesOthers_containsNode (settled_iff.1 he).2
    fun _ => (settled_iff.1 he).1) fun _ => containsNode_withChildren fun e => (marks_childJoinNode e).2

/-- An expression in which no pass finds anything to replace stays as it is. -/
theorem run_standard_of_settled (hall : e.Settled allNode) (hcontains : e.Settled containsNode)
    (hjoin : e.Settled childJoinNode) : run standard e = .ok e := by
  have hrun : run standard e = .ok (childJoin (contains (all e))) := rfl
  rw [hrun, all, hall.mapUp_eq, contains, hcontains.mapUp_eq, childJoin, hjoin.mapUp_eq]

end Desugar

/-! ## The normal form -/

namespace Expr

/-- Values that are known before the query runs: an array, a captured variable or a list. -/
inductive IsListed : Expr → Prop
  | array (element : Ty) (items : List Expr) : IsListed (array element items)
  | captured (name : String) (value : Value) (ty : Ty) : IsListed (captured name value ty)
  | list (values : List Value) (ty : Ty) : IsListed (constant (.list values) ty)

/-- A test whether an item is in a collection of values. -/
def IsMembership (e : Expr) : Prop :=
  Operator.ofCall? e = some .contains ∧ ∃ values item, e.children = [values, item] ∧ values.IsListed

theorem IsListed.isValueCollection (h : e.IsListed) : Desugar.isValueCollection e = true := by
  cases h <;> rfl

theorem not_isMembership_of_containsNode_eq (h : Desugar.containsNode e = e) : ¬ e.IsMembership := by
  rintro ⟨hcall, values, item, hchildren, hlisted⟩
  cases e with
  | call method receiver args ty =>
    obtain rfl := Operator.receiver_eq_none hcall
    obtain rfl : args = [values, item] := hchildren
    have hvalues := Desugar.containsNode_eq_self_iff.1 h method values item ty rfl hcall
    rw [hlisted.isValueCollection] at hvalues
    cases hvalues
  | _ => cases hcall

end Expr

/-- **The passes give a normal form.** They succeed on every expression, and running them on what they gave changes
nothing. No universal test whose condition is a lambda and no test of membership in a collection of values is left at
any depth.

**Proof sketch.** Each pass leaves what it has made, and the later passes leave what the earlier ones leave: they make
no call that is replaced, and they change no part of a call that decides whether it is replaced. -/
theorem Desugar.run_standard_normal (e : Expr) :
    ∃ n, run standard e = .ok n ∧ run standard n = .ok n ∧ ∀ x ∈ n.walk, ¬ x.IsUniversal ∧ ¬ x.IsMembership := by
  have hall := settled_allNode_childJoin (settled_allNode_contains (settled_all e))
  have hcontains := settled_containsNode_childJoin (settled_contains (all e))
  have hjoin := settled_childJoin (contains (all e))
  refine ⟨childJoin (contains (all e)), rfl, run_standard_of_settled hall hcontains hjoin, fun x hx => ?_⟩
  exact ⟨not_isUniversal_of_allNode_eq (hall x hx), Expr.not_isMembership_of_containsNode_eq (hcontains x hx)⟩

end QueryLowering
