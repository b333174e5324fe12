import QueryLowering.Proofs.ChildJoins
import QueryLowering.Proofs.CteFree
import QueryLowering.Proofs.NavigationJoins
import QueryLowering.Proofs.Orderings

/-!
# Collections that may be empty

A `SelectMany` over a `DefaultIfEmpty` keeps the rows whose collection is empty. The closed collection has a flag for
that, and the step that joins it looks at the flag. A pass makes a plain join of a `SelectMany` whose collection does
not mention the outer row. That join has its kind from the pass, which does not look at the collection, so the rows
are lost there.

## Main results

* `mentions_simplified`: the passes keep the parameters that an expression mentions.
* `joinsCollection_of_yields`: the run of a step that joins a collection.
* `defaultIfEmpty_joined`: how a collection that may be empty is joined, with and without the passes.
-/

namespace QueryLowering

open Sql Lower List Desugar QueryLowering.Expr

variable {body e source arg : Expr} {params : List Param} {place : Option Nat} {f g : Expr → Expr}
variable {result : Option Expr} {schema : Schema} {cx cx' : Context} {st : Step} {p q : Progress} {t : Ticket}
variable {s : Select} {n : Node} {index : Nat} {kind : Derived → JoinKind} {d : Derived} {P : Derived → Prop}

/-! ## Mentioned parameters -/

namespace Expr

variable {x : String}

theorem isParameter_withChildren (x : String) (e : Expr) (parts : List Expr) :
    (e.withChildren parts).isParameter x = e.isParameter x := by
  unfold withChildren
  split <;> rfl

@[simp]
theorem mentions_unary (x : String) (op : UnaryOp) (operand : Expr) (ty : Ty) :
    (unary op operand ty).mentions x = operand.mentions x := by
  simp [mentions_eq x (unary ..), isParameter, children]

@[simp]
theorem mentions_lambda (x : String) (params : List Param) (body : Expr) :
    (lambda params body).mentions x = body.mentions x := by
  simp [mentions_eq x (lambda ..), isParameter, children]

/-- A function that keeps the mentioned parameters of each node keeps those of a tree. -/
theorem mentions_mapUp (hf : ∀ e, (f e).mentions x = e.mentions x) (e : Expr) :
    (e.mapUp f).mentions x = e.mentions x := by
  induction e using induction_on_children with
  | _ e ih =>
    rw [mapUp_eq, hf, mentions_eq, isParameter_withChildren, children_withChildren_map, any_map, mentions_eq x e]
    refine congrArg _ (Bool.eq_iff_iff.2 ?_)
    simp only [any_eq_true, Function.comp_apply]
    exact exists_congr fun c => and_congr_right fun hc => by rw [ih c hc]

end Expr

namespace Desugar

variable {x : String}

theorem mentions_stripQuotes (x : String) (e : Expr) : e.stripQuotes.mentions x = e.mentions x := by
  fun_induction Expr.stripQuotes e with
  | case1 operand ty ih => rw [ih, mentions_unary]
  | case2 => rfl

theorem mentions_allNode (e : Expr) : (allNode e).mentions x = e.mentions x := by
  unfold allNode
  split
  · next method receiver source condition ty hop =>
    obtain rfl := Operator.receiver_eq_none hop
    split
    · next params body hcondition =>
      have hbody : condition.mentions x = body.mentions x := by
        rw [← mentions_stripQuotes, hcondition, mentions_lambda]
      simp [Expr.notOf, Expr.quoted, hbody]
    · simp [mentions_stripQuotes]
  · rfl

theorem mentions_containsNode (e : Expr) : (containsNode e).mentions x = e.mentions x := by
  unfold containsNode
  split
  · next method receiver values item ty hop =>
    split
    · obtain rfl := Operator.receiver_eq_none hop
      simp [mentions_eq x (.inValues ..), Expr.isParameter, Expr.children, Bool.or_comm]
    · rfl
  · rfl

theorem mentions_conjuncts (x : String) (e : Expr) : (conjuncts e).any (·.mentions x) = e.mentions x := by
  fun_induction conjuncts e with
  | case1 left right ty ihl ihr => rw [any_append, ihl, ihr, mentions_binary]
  | case2 e _ => simp

/-- The parts that mention a parameter and the others together mention what all parts mention. -/
theorem any_filter_or (p q : Expr → Bool) (es : List Expr) :
    ((es.filter fun e => !q e).any p || (es.filter q).any p) = es.any p := by
  rw [Bool.eq_iff_iff]
  simp only [Bool.or_eq_true, any_eq_true, mem_filter]
  grind

theorem mentions_filteredBy_conjunction (method : Method) (ty : Ty) (query : Expr) (inner : Param) (es : List Expr) :
    (filteredBy method ty query inner (conjunction es)).mentions x = (query.mentions x || es.any (·.mentions x)) := by
  cases hc : conjunction es with
  | none =>
    cases es with
    | nil => simp [filteredBy]
    | cons e rest => cases hc
  | some c => simp [filteredBy, Expr.quoted, mentions_conjunction x c hc]

theorem mentions_childJoinNode (e : Expr) : (childJoinNode e).mentions x = e.mentions x := by
  unfold childJoinNode
  split
  · next plan hplan =>
    obtain ⟨source, outer, body, result, ⟨-, method, collection, ty, rfl, hlambda⟩, h⟩ := classify_eq_some hplan
    have hcollection := mentions_of_asLambda? hlambda x
    rcases h with ⟨-, rfl⟩ | h
    · simp [mentions_eq x (.childJoin ..), Expr.isParameter, Expr.children, hcollection]
    · obtain ⟨m, query, inner, predicate, ty', ⟨-, condition, rfl, hinner⟩, -, -, ⟨keys, hkeys, hcondition⟩, -, hchild,
        rfl, rfl, -⟩ := classifyFiltered_eq_some h
      have hkeys : (Expr.lambda [outer, inner] keys).quoted.mentions x = _ :=
        (mentions_of_asLambda? rfl x).trans (mentions_conjunction x keys hkeys)
      have hparts : (_ || _) = condition.mentions x := (any_filter_or (·.mentions x) (·.mentions outer.name) _).trans
        ((mentions_conjuncts x predicate).trans (mentions_of_asLambda? hinner x).symm)
      simp [mentions_eq x (.childJoin ..), Expr.isParameter, Expr.children, hcondition, hchild, hkeys,
        mentions_filteredBy_conjunction, hcollection, ← hparts, Bool.or_assoc]
  · rfl

end Desugar

theorem mentions_simplified (options : Options) (x : String) (e : Expr) :
    (options.simplified e).mentions x = e.mentions x := by
  unfold Options.simplified
  split
  · exact (mentions_mapUp mentions_childJoinNode _).trans
      ((mentions_mapUp mentions_containsNode _).trans (mentions_mapUp mentions_allNode e))
  · rfl

/-! ## Simplified collections -/

theorem Expr.asLambda?_mapUp (hf : SparesOthers f)
    (harg : arg.asLambda? = some (params, body)) : (arg.mapUp f).asLambda? = some (params, body.mapUp f) := by
  fun_induction asLambda? arg with
  | case1 params' body' =>
    obtain ⟨rfl, rfl⟩ := Prod.mk.inj (Option.some.inj harg)
    rw [mapUp_eq, hf.eq_of_ofCall? rfl]
    rfl
  | case2 operand ty ih =>
    rw [mapUp_eq, hf.eq_of_ofCall? rfl]
    exact ih harg
  | case3 => cases harg

namespace Desugar

variable {x : Param}

theorem ofCall?_mapUp {op : Operator} (hf : Expr.SparesOthers f) (he : Operator.ofCall? e = some op)
    (hop : op ∉ Expr.replaceable) : Operator.ofCall? (e.mapUp f) = some op := by
  cases e with
  | call method receiver args ty =>
    cases receiver with
    | none =>
      rw [mapUp_call hf he hop]
      exact he
    | some r => cases he
  | _ => cases he

section

variable (h : Flattens e source x body result)

include h

/-- The parts of a `SelectMany` are transformed before the call is. -/
theorem Flattens.exists_mapUp (hf : Expr.SparesOthers f) :
    ∃ e', e.mapUp f = f e' ∧ e'.ty = e.ty ∧
      Flattens e' (source.mapUp f) x (body.mapUp f) (result.map (Expr.mapUp f)) := by
  obtain ⟨hop, method, collection, ty, rfl, hlambda⟩ := h
  refine ⟨_, mapUp_eq f _, rfl, hop, method, collection.mapUp f, ty, ?_, asLambda?_mapUp hf hlambda⟩
  cases result <;> rfl

theorem Flattens.mapUp (hf : Expr.SparesOthers f) (hkeep : ∀ e, Operator.ofCall? e = some .selectMany → f e = e) :
    Flattens (e.mapUp f) (source.mapUp f) x (body.mapUp f) (result.map (Expr.mapUp f)) ∧ (e.mapUp f).ty = e.ty := by
  obtain ⟨e', he', hty, h'⟩ := h.exists_mapUp hf
  rw [he', hkeep e' h'.1]
  exact ⟨h', hty⟩

theorem Flattens.classify_eq : classify e =
    if body.mentions x.name then classifyFiltered source result x body
    else if isQuery body then some ⟨source, body, none, result, .cross⟩ else none := by
  obtain ⟨hop, method, collection, ty, rfl, hlambda⟩ := h
  have hresult : ¬ 1 < result.toList.length := by cases result <;> simp
  have hhead : result.toList.head? = result := by cases result <;> rfl
  simp only [classify, hop, hresult, ↓reduceIte, hlambda, hhead]
  rfl

/-- The join of a `SelectMany` over a `DefaultIfEmpty` is planned by whether the outer row is mentioned. -/
theorem Flattens.classify_defaultIfEmpty (hbody : Operator.ofCall? body = some .defaultIfEmpty) :
    classify e = if body.mentions x.name then none else some ⟨source, body, none, result, .cross⟩ := by
  have hnone : classifyFiltered source result x body = none := by
    unfold classifyFiltered
    rw [hbody]
  have hquery : isQuery body = true := by
    cases body with
    | constant => cases hbody
    | _ => exact Option.isSome_iff_exists.2 ⟨_, hbody⟩
  rw [h.classify_eq, hnone, if_pos hquery]

end

end Desugar

/-- What the passes make of a `SelectMany` over a `DefaultIfEmpty`: a cross join if the collection does not mention the
outer row, and else a `SelectMany` again. -/
theorem simplified_flattens (options : Options) {x : Param}
    (h : Desugar.Flattens e source x body result) (hbody : Operator.ofCall? body = some .defaultIfEmpty) :
    Operator.ofCall? (options.simplified body) = some .defaultIfEmpty ∧
      if options.preprocess && !body.mentions x.name then options.simplified e =
        .childJoin (options.simplified source) (options.simplified body) none (result.map options.simplified) .cross e.ty
      else Desugar.Flattens (options.simplified e) (options.simplified source) x (options.simplified body)
        (result.map options.simplified) := by
  have hmentions := mentions_simplified options x.name body
  cases hpreprocess : options.preprocess with
  | false =>
    simpa [Options.simplified_eq_id hpreprocess] using ⟨hbody, h⟩
  | true =>
    have hpasses := Options.simplified_eq_passes hpreprocess
    obtain ⟨h₁, hty₁⟩ := h.mapUp sparesOthers_allNode fun e he => by
      unfold Desugar.allNode
      rw [he]
    obtain ⟨h₂, hty₂⟩ := h₁.mapUp sparesOthers_containsNode fun e he => by
      unfold Desugar.containsNode
      rw [he]
    obtain ⟨e', he', hty₃, h₃⟩ := h₂.exists_mapUp sparesOthers_childJoinNode
    have hbody' : Operator.ofCall? (options.simplified body) = some .defaultIfEmpty := by
      rw [hpasses]
      exact ofCall?_mapUp sparesOthers_childJoinNode (ofCall?_mapUp
        sparesOthers_containsNode (ofCall?_mapUp sparesOthers_allNode hbody (by decide))
          (by decide)) (by decide)
    have h' : Desugar.Flattens e' (options.simplified source) x (options.simplified body)
        (result.map options.simplified) := by
      rw [Option.map_map, Option.map_map] at h₃
      rw [hpasses]
      exact h₃
    have he : options.simplified e = Desugar.childJoinNode e' := by
      rw [hpasses]
      exact he'
    refine ⟨hbody', ?_⟩
    rw [he, Desugar.childJoinNode, h'.classify_defaultIfEmpty hbody', hmentions]
    cases body.mentions x.name with
    | true => exact h'
    | false => exact congrArg _ (hty₃.trans (hty₂.trans hty₁))

/-! ## The run of a step that joins a collection -/

/-- A step that joins its second argument, and the kind of the join. -/
inductive Step.Collects : Step → (Derived → JoinKind) → Prop
  | selectMany : Collects .selectMany applyKind
  | childJoin (kind : JoinKind) (result : Option Nat) : Collects (.childJoin kind none result) fun _ => kind

/-- A closed collection is joined to a select. Only navigations come after it. -/
def Sql.Select.JoinsCollection (s : Select) (kind : JoinKind) (d : Derived) : Prop :=
  ∃ before a navigations, s.sources = before ++ ⟨a, .derived d, some ⟨kind, none⟩, none⟩ :: navigations ∧
    ∀ x ∈ navigations, x.navigation.isSome = true

namespace Step.Collects

theorem joined (h : st.Collects kind) (hy : Yields schema (st.receive p t 1 arg (.derived d)) cx q cx') :
    ∃ (s : Select) (a : Alias), q = { p with joined := some a } ∧
      cx'.lent.lookup t = some (s.addSource ⟨a, .derived d, some ⟨kind d, none⟩, none⟩) := by
  have hjoined : ∀ {a : Alias} {context : String} {kind : JoinKind},
      Yields schema (joinValue t kind context (.derived d)) cx a cx' →
        ∃ s : Select, cx'.lent.lookup t = some (s.addSource ⟨a, .derived d, some ⟨kind, none⟩, none⟩) := by
    intro a context kind hjoin
    simp only [joinValue, relation, closeQuery, yields_bind, yields_pure] at hjoin
    obtain ⟨_, _, ⟨_, _, ⟨rfl, rfl⟩, rfl, rfl⟩, hjoin⟩ := hjoin
    obtain ⟨s, hs, hlent⟩ := yields_joinLent hjoin
    exact ⟨s, by rw [hlent, Context.lookup_replaceIn hs]⟩
  cases h with
  | selectMany =>
    simp only [Step.receive, joinCollection, yields_bind, yields_pure] at hy
    obtain ⟨a, _, hjoin, rfl, rfl⟩ := hy
    obtain ⟨s, hs⟩ := hjoined hjoin
    exact ⟨s, a, rfl, hs⟩
  | childJoin kind result =>
    simp only [Step.receive, yields_bind, yields_pure] at hy
    obtain ⟨a, _, hjoin, rfl, rfl⟩ := hy
    obtain ⟨s, hs⟩ := hjoined hjoin
    exact ⟨s, a, rfl, hs⟩

/-- Nothing is done with later arguments but to lower them. -/
theorem anticipate (h : st.Collects kind) (bound : List (String × Node)) :
    st.anticipate p t (index + 2) bound = pure p := by
  cases h <;> rfl

theorem receive (h : st.Collects kind) : st.receive p t (index + 2) arg n = pure p := by
  cases h <;> rfl

theorem finish (h : st.Collects kind) {ns : List Node} (hy : Yields schema (st.finish p s ns) cx n cx') :
    ∃ s', n = .select s' ∧ s'.sources = s.sources := by
  cases h with
  | selectMany =>
    simp only [Step.finish] at hy
    split at hy
    · obtain ⟨rfl, -⟩ := yields_pure.1 hy
      exact ⟨_, rfl, Select.sources_project ..⟩
    · simp only [yields_bind, yields_pure] at hy
      obtain ⟨_, _, -, rfl, -⟩ := hy
      exact ⟨_, rfl, Select.sources_project ..⟩
  | childJoin kind result =>
    simp only [Step.finish] at hy
    split at hy <;>
    · simp only [yields_bind, yields_pure] at hy
      obtain ⟨_, _, -, rfl, -⟩ := hy
      exact ⟨_, rfl, Select.sources_project ..⟩

end Step.Collects

/-- A later argument adds at most navigations to the select that is lent. -/
theorem Step.Collects.grown (h : st.Collects kind) {base rest : List (Ticket × Select)}
    {k : (History.regime schema).World} (hcx : cx.Upheld (History.regime schema) k)
    (hu : Underway (History.regime schema) (.step st) base k cx p) (hp : p.source = some t)
    (hlent : cx.lent = (t, s) :: rest)
    (hy : Yields schema (lowerPart (.step st) p (index + 2) arg (arg.run)) cx (q, n) cx') :
    q.source = some t ∧ ∃ s' rest', cx'.lent = (t, s') :: rest' ∧ s.GrownTo s' := by
  obtain ⟨bound, start, p', start', t', mid, hbound, hanticipate, hn, ht', hreceive⟩ := yields_stepArgument hp hy
  rw [h.anticipate] at hanticipate
  obtain ⟨rfl, rfl⟩ := yields_pure.1 hanticipate
  rw [h.receive] at hreceive
  obtain ⟨rfl, rfl⟩ := yields_pure.1 hreceive
  obtain ⟨-, -, k', _, -, -, rfl, rfl, rfl, hparams⟩ :=
    (Step.retains_bindings (F := SameNode) st (hu.owns hp) hu.holds (index + 2)).of_yields hcx (SameNode.refl _) hbound
  have hkeeps : Upholds (History.regime schema) (SamePlace (some (index + 2)) (some (index + 2))) k' start
      (withParameters bound (arg.run false (some (index + 2)))) _ :=
    .withParameters hparams (arg.visit_accepted _ _ _ _)
  obtain ⟨-, -, _, _, -, -, -, hkept, -⟩ := hkeeps.of_yields hcx (SamePlace.refl _ _) hn
  have hnavigated := hkept.navigated trivial
  rw [hlent] at hnavigated
  obtain ⟨⟨_, s'⟩, rest', ⟨rfl, hgrown⟩, -, hlent'⟩ := forall₂_cons_left_iff.1 hnavigated
  exact ⟨hp, s', rest', hlent', hgrown⟩

section

variable (h : st.Collects kind) (hrule : e.rule? = some (.step st))
  (hchildren : e.children = source :: arg :: result.toList) {k : (History.regime schema).World}
  (hcx : cx.Upheld (History.regime schema) k)
  (harg : ∀ {start i m after}, Yields schema (arg.run false i) start m after → ∃ d, m = .derived d ∧ P d)

include h hrule hchildren hcx harg

/-- The select of a step that joins a collection. The collection is joined once it is lowered, and later arguments add
at most navigations. -/
theorem exists_joinsCollection (hy : Yields schema (e.run true place) cx n cx') :
    ∃ s d, n = .select s ∧ s.JoinsCollection (kind d) d ∧ P d := by
  obtain ⟨p₁, n₁, cx₁, _, _, _, t, s, _, _, h₁, hparts, ht, hreclaim, hfinish, -⟩ := yields_step hrule hchildren hy
  simp only [map_cons, lowerParts, yields_bind, yields_pure, Prod.mk.injEq] at hparts
  obtain ⟨⟨p₂, n₂⟩, cx₂, h₂, ⟨p₃, ns⟩, cx₃, h₃, ⟨rfl, rfl⟩, rfl⟩ := hparts
  obtain ⟨-, -, k₁, _, -, hcx₁, rfl, hu₁, -⟩ := (runs_lowerPart (R := History.regime schema)
    (F := SamePlace (some 0) (some 0)) (.refl (.step st)) (.start _ k _) (fun _ => rfl) rfl
    fun _ _ _ _ => source.visit_accepted _ _ _ _).of_yields (hcx.withFrames _) (SamePlace.refl _ _) h₁
  obtain ⟨-, -, k₂, _, -, hcx₂, rfl, hu₂, -⟩ := (runs_lowerPart (R := History.regime schema)
    (F := SamePlace (some 1) (some 1)) (.refl (.step st)) hu₁ (by simp) rfl
    fun _ _ _ _ => arg.visit_accepted _ _ _ _).of_yields hcx₁ (SamePlace.refl _ _) h₂
  obtain ⟨-, _, _, _, _, _, _, -, -, -, rfl, -⟩ := yields_querySource h₁
  obtain ⟨bound, start, p', start', t', _, -, hanticipate, hn₂, ht', hreceive⟩ := yields_stepArgument rfl h₂
  obtain ⟨_, hvisit, rfl⟩ := yields_withParameters.1 hn₂
  obtain ⟨d, rfl, hd⟩ := harg hvisit
  obtain ⟨s₀, a, rfl, hs₀⟩ := h.joined hreceive
  obtain ⟨-, -, s₂, rest, hlent₂, -⟩ := hu₂.source ht'
  rw [hlent₂, lookup_cons_self] at hs₀
  obtain rfl := Option.some.inj hs₀
  -- What is lent before the end has grown from the select with the collection.
  obtain ⟨ht₃, s₃, rest', hlent₃, hgrown⟩ : p₃.source = some t' ∧ ∃ s₃ rest', cx₃.lent = (t', s₃) :: rest' ∧
      Select.GrownTo _ s₃ := by
    cases result with
    | none =>
      obtain ⟨hpair, rfl⟩ := yields_pure.1 h₃
      obtain ⟨rfl, -⟩ := Prod.mk.inj hpair
      exact ⟨ht', _, rest, hlent₂, .refl _⟩
    | some r =>
      simp only [Option.toList_some, map_cons, map_nil, lowerParts, yields_bind, yields_pure,
        Prod.mk.injEq] at h₃
      obtain ⟨⟨p, m⟩, _, hpart, _, _, ⟨rfl, rfl⟩, ⟨rfl, rfl⟩, rfl⟩ := h₃
      exact h.grown hcx₂ hu₂ ht' hlent₂ hpart
  obtain rfl := Option.mem_unique ht₃ ht
  obtain ⟨rfl, rfl⟩ := Context.eq_of_reclaim hlent₃ hreclaim
  obtain ⟨s', rfl, hsources⟩ := h.finish hfinish
  obtain ⟨more, rfl, hmore⟩ := hgrown
  exact ⟨s', d, rfl, ⟨s₀.sources, a, more, by simp [hsources, Select.addSource], hmore⟩, hd⟩

/-- The run of a step that joins a collection, whether an operator goes on with it or not. -/
theorem joinsCollection_of_yields {chained : Bool} (hy : Yields schema (e.run chained place) cx n cx') :
    ∃ s d, n.selects = [s] ∧ s.JoinsCollection (kind d) d ∧ P d := by
  cases chained with
  | true =>
    obtain ⟨s, d, rfl, hd⟩ := exists_joinsCollection h hrule hchildren hcx harg hy
    exact ⟨s, d, rfl, hd⟩
  | false =>
    have hproduces : (Rule.step st).producesQuery = true := by cases h <;> rfl
    obtain ⟨m, mid, hm, hclose⟩ := (yields_closed_iff hrule hproduces).1 hy
    obtain ⟨s, d, rfl, ⟨before, a, navigations, hs, hnavigations⟩, hd⟩ :=
      exists_joinsCollection h hrule hchildren hcx harg hm
    simp only [closeQuery, closeSelect, yields_bind, yields_attempt, yields_pure] at hclose
    obtain ⟨d', _, ⟨sc, hd', rfl⟩, rfl, rfl⟩ := hclose
    refine ⟨d'.select, d, rfl, ⟨before, a, navigations, ?_, hnavigations⟩, hd⟩
    rw [Select.select_of_close hd', Select.sources_withKeyProjection, hs]

end

/-- The value of a lambda is a value of its body. -/
theorem exists_yields_body (harg : arg.asLambda? = some (params, body))
    (hy : Yields schema (arg.run false place) cx n cx') :
    ∃ start i after, Yields schema (body.run false i) start n after := by
  have hpass : ∀ {e inner : Expr} {name : String} {place : Option Nat} {cx cx' : Context},
      e.rule? = some (.passthrough name) → e.children = [inner] → Yields schema (e.run false place) cx n cx' →
        ∃ start i after, Yields schema (inner.run false i) start n after := by
    intro e inner name place cx cx' hrule hchildren hy
    obtain ⟨_, hby, rfl⟩ := (yields_visit_iff hrule).1 hy
    simp only [lowerBy, hchildren, map_cons, map_nil, zip_cons_cons, zip_nil_right, lowerParts,
      lowerPart, Rule.skipsParts, Rule.chains, Rule.producesQuery, Rule.bindings, Rule.receive, Rule.finish,
      Bool.false_and, Bool.false_eq_true, ↓reduceIte, yields_bind, yields_pure, yields_part] at hby
    obtain ⟨_, _, ⟨_, _, ⟨_, _, ⟨rfl, rfl⟩, m, _, hm, _, _, ⟨rfl, rfl⟩, rfl, rfl⟩, _, _, ⟨rfl, rfl⟩, rfl, rfl⟩, _, _,
      ⟨hn, rfl⟩, rfl, rfl⟩ := hby
    obtain rfl := Option.some.inj hn
    obtain ⟨_, hvisit, -⟩ := yields_withParameters.1 hm
    exact ⟨_, _, _, hvisit⟩
  fun_induction Expr.asLambda? arg generalizing place cx cx' with
  | case1 params' body' =>
    obtain ⟨rfl, rfl⟩ := Prod.mk.inj (Option.some.inj harg)
    exact hpass rfl rfl hy
  | case2 operand ty ih =>
    obtain ⟨start, i, after, hinner⟩ := hpass rfl rfl hy
    exact ih harg hinner
  | case3 => cases harg

/-- A `DefaultIfEmpty` that no operator goes on with is closed, with its flag. -/
theorem exists_closed_defaultIfEmpty (hbody : Operator.ofCall? body = some .defaultIfEmpty)
    (hy : Yields schema (body.run false place) cx n cx') :
    ∃ d, n = .derived d ∧ d.select.defaultIfEmpty = true := by
  have hrule : body.rule? = some (.step .defaultIfEmpty) := by
    cases body with
    | call method receiver args ty =>
      cases receiver with
      | none => exact rule_ungrouped hbody rfl
      | some r => cases hbody
    | _ => cases hbody
  obtain ⟨m, mid, hm, hclose⟩ := (yields_closed_iff hrule rfl).1 hy
  obtain ⟨p, s, ns, _, _, hfinish⟩ := exists_finish_of_yields hrule hm
  obtain ⟨rfl, -⟩ := yields_pure.1 hfinish
  simp only [closeQuery, closeSelect, yields_bind, yields_attempt, yields_pure] at hclose
  obtain ⟨d, _, ⟨sc, hd, rfl⟩, rfl, rfl⟩ := hclose
  refine ⟨d, rfl, ?_⟩
  rw [Select.select_of_close hd, Select.withKeyProjection]
  split <;> rfl

/-- **Collections that may be empty.** Take a `SelectMany` over a `DefaultIfEmpty`, wherever it is lowered, with the
passes or without them. If it has a value, the collection is joined to the select of its source, closed and with its
flag. It is applied so that rows without a collection are kept, unless the passes ran and the collection does not
mention the outer row. Then it is a cross join, which loses those rows.

**Proof sketch.** Without the passes, and also after them if the outer row is mentioned, the step asks the closed
collection for its flag. Otherwise the passes have made a join of the call, whose kind they have chosen. -/
theorem defaultIfEmpty_joined (schema : Schema) (options : Options) {e source body root : Expr} {x : Param}
    {result : Option Expr} (he : Desugar.Flattens e source x body result)
    (hbody : Operator.ofCall? body = some .defaultIfEmpty) {cx cx' : Context}
    (hcx : root.Reaches Recognizer.standard schema .empty (options.simplified e) cx) {chained : Bool}
    {place : Option Nat}
    {n : Node} (hy : Yields schema ((options.simplified e).visit Recognizer.standard chained place) cx n cx') :
    ∃ s d start i after, n.selects = [s] ∧ d.select.defaultIfEmpty = true ∧
      Yields schema ((options.simplified body).visit Recognizer.standard false i) start (.derived d) after ∧
      s.JoinsCollection (if options.preprocess && !body.mentions x.name then .cross else .outerApply) d := by
  obtain ⟨k, hupheld⟩ := Expr.Reaches.upheld (History.admits_regime schema _) hcx (History.upheld_regime schema)
  obtain ⟨hbody', hform⟩ := simplified_flattens options he hbody
  let P : Derived → Prop := fun d => d.select.defaultIfEmpty = true ∧ ∃ start i after,
    Yields schema ((options.simplified body).visit Recognizer.standard false i) start (.derived d) after
  have hvalue : ∀ {start i m after}, Yields schema ((options.simplified body).visit Recognizer.standard false i) start m
      after → ∃ d, m = .derived d ∧ P d := by
    intro start i m after hm
    obtain ⟨d, rfl, hd⟩ := exists_closed_defaultIfEmpty hbody' hm
    exact ⟨d, rfl, hd, start, i, after, hm⟩
  split at hform
  · next hcross =>
    rw [hform] at hy
    obtain ⟨s, d, hs, hjoins, hflag, start, i, after, hd⟩ := joinsCollection_of_yields (.childJoin .cross _) rfl rfl
      hupheld hvalue hy
    exact ⟨s, d, start, i, after, hs, hflag, hd, by rwa [if_pos hcross]⟩
  · next hcross =>
    obtain ⟨hop, method, collection, ty, heq, hlambda⟩ := hform
    rw [heq] at hop hy
    have hcollection : ∀ {start i m after}, Yields schema (collection.visit Recognizer.standard false i) start m after →
        ∃ d, m = .derived d ∧ P d := by
      intro start i m after hm
      obtain ⟨_, _, _, hm⟩ := exists_yields_body hlambda hm
      exact hvalue hm
    obtain ⟨s, d, hs, hjoins, hflag, start, i, after, hd⟩ := joinsCollection_of_yields .selectMany
      (rule_ungrouped hop rfl) rfl hupheld hcollection hy
    rw [applyKind, if_pos hflag] at hjoins
    exact ⟨s, d, start, i, after, hs, hflag, hd, by rwa [if_neg hcross]⟩

namespace Sample

/-- Every student with each student, or with an empty row if there is none. -/
def pairs : Expr :=
  ((Query.ofEntity "Student").selectMany "x" (.entity "Student") fun _ =>
    (Query.ofEntity "Student").defaultIfEmpty.expr).expr

theorem flattens_pairs : Desugar.Flattens pairs (Query.ofEntity "Student").expr ⟨"x", .entity "Student"⟩
    (Query.ofEntity "Student").defaultIfEmpty.expr none := ⟨rfl, _, _, _, rfl, rfl⟩

/-- The collection does not mention the outer row, and the passes make a cross join of it. -/
theorem pairs_joined :
    (∃ n after s d, Yields studentSchema ((({} : Options).simplified pairs).lower Recognizer.standard) .empty n after ∧
      n.selects = [s] ∧ d.select.defaultIfEmpty = true ∧ s.JoinsCollection .cross d) ∧
    ∃ n after s d, Yields studentSchema ((({ preprocess := false } : Options).simplified pairs).lower
        Recognizer.standard) .empty n after ∧
      n.selects = [s] ∧ d.select.defaultIfEmpty = true ∧ s.JoinsCollection .outerApply d := by
  constructor
  · obtain ⟨n, after, hy, -⟩ : ∃ n after,
        Yields studentSchema ((({} : Options).simplified pairs).lower Recognizer.standard) .empty n after ∧ True :=
      exists_yields (by decide +kernel)
    obtain ⟨s, d, -, -, -, hs, hflag, -, hjoins⟩ :=
      defaultIfEmpty_joined studentSchema {} flattens_pairs rfl (.root _ _) hy
    exact ⟨n, after, s, d, hy, hs, hflag, hjoins⟩
  · obtain ⟨n, after, hy, -⟩ : ∃ n after, Yields studentSchema ((({ preprocess := false } : Options).simplified
        pairs).lower Recognizer.standard) .empty n after ∧ True :=
      exists_yields (by decide +kernel)
    obtain ⟨s, d, -, -, -, hs, hflag, -, hjoins⟩ :=
      defaultIfEmpty_joined studentSchema { preprocess := false } flattens_pairs rfl (.root _ _) hy
    exact ⟨n, after, s, d, hy, hs, hflag, hjoins⟩

end Sample

end QueryLowering
