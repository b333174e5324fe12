import QueryLowering.Proofs.Within

/-!
# The anchor in a recursive member

While the second query of a recursive union is lowered, its parameter stands for the closed select of the anchor. In
the end the common table expression takes the place of that select in all data sources that read it. A copy in another
place stays: as a query of a union, as a subquery, as the rows of a list, or as the anchor of a recursive union inside.
Such a copy reads the rows that the recursion starts from, and never the rows found so far.

## Main results

* `Sql.Node.copies_change`: what a substitution leaves.
* `recursiveUnion_copies_iff`: a recursive member has copies of the anchor left exactly if the second query has some
  outside data sources.
-/

namespace QueryLowering

open Sql Lower List

variable {m n value : Node} {index : Nat} {q p : Progress} {ns : List Node} {anchor : Derived} {id : Alias} {c : Change}
variable {schema : Schema} {cx cx' : Context}

namespace Sql

/-! ## Copies of a closed select -/

/-- The closed selects that a node holds, in the place of a value or as the queries of a union. -/
def Node.queries : Node → List Derived
  | .derived d | .rows d | .existence d | .subquery d => [d]
  | .union items => items.map (·.query)
  | _ => []

/-- A closed select with a given alias stands somewhere in a tree: data sources read it, it is a query of a union or of
a common table expression, or an expression holds it. -/
def Node.Copies (id : Alias) (n : Node) : Prop := ∃ m : Node, m.Within n ∧ ∃ q ∈ m.queries, q.id = id

/-- The nodes of a data source. A data source that reads the closed select of an alias has only its condition. -/
def DataSource.nodesBeside (id : Alias) (d : DataSource) : List Node :=
  if d.relation.isDerived id then d.condition?.toList else d.nodes

/-- The nodes directly in a select, outside the data sources that read the closed select of an alias. -/
def Select.nodesBeside (id : Alias) (s : Select) : List Node :=
  (s.ctes.flatMap Cte.queries).map .derived ++ s.sources.flatMap (DataSource.nodesBeside id) ++ s.clauses

/-- The nodes directly below a node, outside the data sources that read the closed select of an alias. -/
def Node.childrenBeside (id : Alias) (n : Node) : List Node :=
  (blocksOf? n).elim n.operands (·.flatMap fun b => b.select.nodesBeside id ++ b.values)

/-- One node stands in the tree of another one, outside all data sources that read the closed select of an alias. -/
inductive Node.Beside (id : Alias) : Node → Node → Prop
  | root (n : Node) : Beside id n n
  | child {m k n : Node} : k ∈ n.childrenBeside id → Beside id m k → Beside id m n

/-- A closed select with a given alias stands in a tree otherwise than as what a data source reads. -/
def Node.Strays (id : Alias) (n : Node) : Prop := ∃ m : Node, m.Beside id n ∧ ∃ q ∈ m.queries, q.id = id

/-! ## What a substitution leaves -/

/-- A change that puts common table expressions in the place of the closed select of an alias, where data sources read
it, and does nothing else. -/
structure Change.Cuts (id : Alias) (c : Change) : Prop where
  cut : ∀ r : Relation, r.isDerived id = true → ∃ a columns, c.relation r = some (.cte a columns)
  relation : ∀ r : Relation, r.isDerived id = false → c.relation r = none
  node : ∀ n, c.node n = none
  select : ∀ s, c.select s = s

theorem cuts_substitution (id a : Alias) (columns : List (Path × String)) :
    (substitution id (.cte a columns)).Cuts id where
  cut r hr := ⟨a, columns, by simp [substitution, hr]⟩
  relation r hr := by simp [substitution, hr]
  node _ := rfl
  select _ := rfl

theorem Derived.id_change (c : Change) (d : Derived) : (d.change c).id = d.id := by
  cases d
  rfl

theorem Relation.queries_change {r : Relation} (hr : c.relation r = none) :
    (r.change c).queries = r.queries.map (Derived.change c) := by
  cases r with
  | union items => simp [change, hr, queries, changeItems_eq]
  | derived d => simp only [change, hr, queries, map_singleton]
  | table _ | cte _ _ => simp only [change, hr, queries, map_nil]

section

variable (hc : c.Cuts id)

include hc

theorem Node.queries_change (n : Node) : (n.change c).queries = n.queries.map (Derived.change c) := by
  cases n with
  | union items => simp [change, hc.node, queries, changeItems_eq]
  | derived d | rows d | existence d | subquery d => simp only [change, hc.node, queries, map_singleton]
  | _ => simp only [change, hc.node, queries, map_nil]

theorem Relation.isDerived_change (r : Relation) : (r.change c).isDerived id = false := by
  cases hr : r.isDerived id with
  | true =>
    obtain ⟨a, columns, hcut⟩ := hc.cut r hr
    rw [change_of_some hcut]
    rfl
  | false =>
    have hnone := hc.relation r hr
    cases r with
    | derived d =>
      simp only [change, hnone]
      simpa only [isDerived, Derived.id_change] using hr
    | table _ | union _ | cte _ _ => simp only [change, hnone, isDerived]

theorem Node.map_derived_change (qs : List Derived) :
    (qs.map (Derived.change c)).map Node.derived = (qs.map Node.derived).map (change c) := by
  rw [map_map, map_map]
  refine map_congr_left fun q _ => ?_
  simp only [Function.comp_apply, change, hc.node]

theorem DataSource.nodes_change (d : DataSource) :
    ({ d with relation := d.relation.change c, join := changeJoin c d.join } : DataSource).nodes =
      (d.nodesBeside id).map (Node.change c) := by
  have hcondition : ∀ j : Option Join, ((changeJoin c j).bind (·.condition)).toList =
      (j.bind (·.condition)).toList.map (Node.change c) := by
    rintro (_ | ⟨kind, _ | n⟩)
    · rfl
    · rfl
    · rfl
  unfold nodesBeside nodes condition?
  rw [hcondition]
  split
  · next hr =>
    obtain ⟨a, columns, hcut⟩ := hc.cut d.relation hr
    rw [Relation.change_of_some hcut]
    rfl
  · next hr =>
    rw [Relation.queries_change (hc.relation _ (by simpa using hr)), map_append, Node.map_derived_change hc]

theorem Select.nodes_change (s : Select) : (s.change c).nodes = (s.nodesBeside id).map (Node.change c) := by
  have hctes : (s.change c).ctes = changeCtes c s.ctes := by
    cases s
    rw [change, hc.select]
  have hqueries : ∀ x : Cte, Cte.queries ⟨x.name, x.anchor.change c, x.recursive.map (Derived.change c)⟩ =
      x.queries.map (Derived.change c) := by
    rintro ⟨name, anchor, _ | member⟩
    · rfl
    · rfl
  rw [nodes, nodesBeside, hctes, changeCtes_eq, sources_change (fun _ => by rw [hc.select]), changeSources_eq,
    clauses_change (fun _ => by rw [hc.select]), map_append, map_append, ← Node.map_derived_change hc]
  simp only [map_flatMap, flatMap_map, hqueries, DataSource.nodes_change hc]

/-- Below a changed node stands what stood there outside the data sources that read the closed select. -/
theorem Node.children_change (n : Node) : (n.change c).children = (n.childrenBeside id).map (change c) := by
  cases hblocks : blocksOf? n with
  | none =>
    obtain ⟨hblocks', hoperands⟩ := operands_change (hc.node n) hblocks
    rw [children_of_none hblocks', hoperands, childrenBeside, hblocks, Option.elim_none]
  | some bs =>
    have hblocks' := blocksOf?_change (hc.node n)
    rw [hblocks, Option.map_some] at hblocks'
    rw [children_of_some hblocks', childrenBeside, hblocks, Option.elim_some, flatMap_map, map_flatMap]
    refine flatMap_congr fun b _ => ?_
    rw [map_append, ← Select.nodes_change hc, Block.nodes, Block.change]

/-- The nodes of a changed tree are those that stood outside the data sources that read the closed select. -/
theorem Node.within_change : m.Within (n.change c) ↔ ∃ k : Node, k.Beside id n ∧ m = k.change c := by
  constructor
  · intro hm
    generalize hn' : n.change c = n' at hm
    induction hm generalizing n with
    | root => exact ⟨n, .root n, hn'.symm⟩
    | child hk _ ih =>
      rw [← hn', children_change hc] at hk
      obtain ⟨k, hk', rfl⟩ := mem_map.1 hk
      obtain ⟨l, hl, rfl⟩ := ih rfl
      exact ⟨l, .child hk' hl, rfl⟩
  · rintro ⟨k, hk, rfl⟩
    induction hk with
    | root => exact .root _
    | child hk _ ih => exact .child (children_change hc _ ▸ mem_map_of_mem hk) ih

/-- Copies are left where they stood outside data sources. -/
theorem Node.copies_change (n : Node) : (n.change c).Copies id ↔ n.Strays id := by
  have hqueries : ∀ k : Node, (∃ q ∈ (k.change c).queries, q.id = id) ↔ ∃ q ∈ k.queries, q.id = id := by
    intro k
    rw [queries_change hc]
    simp [Derived.id_change]
  constructor
  · rintro ⟨m, hm, hq⟩
    obtain ⟨k, hk, rfl⟩ := (within_change hc).1 hm
    exact ⟨k, hk, (hqueries k).1 hq⟩
  · rintro ⟨k, hk, hq⟩
    exact ⟨k.change c, (within_change hc).2 ⟨k, hk, rfl⟩, (hqueries k).2 hq⟩

/-- No data source is left that reads the closed select. -/
theorem Node.isDerived_within_change (hm : m.Within (n.change c)) {bs : List Block}
    (hbs : blocksOf? m = some bs) {b : Block} (hb : b ∈ bs) {x : DataSource} (hx : x ∈ b.select.sources) :
    x.relation.isDerived id = false := by
  obtain ⟨k, -, rfl⟩ := (within_change hc).1 hm
  rw [blocksOf?_change (hc.node k)] at hbs
  obtain ⟨cs, -, rfl⟩ := Option.map_eq_some_iff.1 hbs
  obtain ⟨b', -, rfl⟩ := mem_map.1 hb
  rw [Block.change, Select.sources_change fun _ => by rw [hc.select]] at hx
  obtain ⟨y, -, hrelation, -⟩ := mem_changeSources hx
  rw [hrelation]
  exact Relation.isDerived_change hc _

end

theorem Derived.derived_substitute (d : Derived) (id a : Alias) (columns : List (Path × String)) :
    Node.derived (d.substitute id (.cte a columns)) = (Node.derived d).change (substitution id (.cte a columns)) := by
  simp only [Node.change, substitution, Derived.substitute]

/-- The common table expressions that a query declares. -/
def Node.ctes : Node → List Cte
  | .select s => s.ctes
  | .derived d => d.select.ctes
  | _ => []

end Sql

/-! ## Recursive unions -/

/-- A recursive union starts from the closed select `anchor`. Its second part is lowered with the parameter bound to
that select, and has a value whose closed form is `member`. -/
def Expr.RecursesBy (rs : List Recognizer) (schema : Schema) (e : Expr) (anchor member : Derived) : Prop :=
  ∃ (body : Expr) (value : Node) (start stop : Context), e.children[1]? = some body ∧
    Yields schema (body.visit rs false (some 1))
      { start with scope := start.scope.bind (bindInOrder body [.derived anchor]) } value stop ∧
    ∃ start' stop', Yields schema (closeQuery value) start' (.derived member) stop'

/-- An argument of a recursive union after the first one is lowered with its parameter bound to the anchor, and the
union learns nothing from it. -/
theorem yields_recursiveArgument {part : Expr} {visit : Visit}
    (hy : Yields schema (lowerPart .recursiveUnion p (index + 1) part visit) cx (q, n) cx') :
    q = p ∧ ∃ anchor, p.anchor = some anchor ∧ ∃ after, Yields schema (visit false (some (index + 1)))
      { cx with scope := cx.scope.bind (bindInOrder part [.derived anchor]) } n after := by
  simp only [lowerPart, Rule.skipsParts, Rule.chains, Rule.bindings, Rule.receive, yields_bind, yields_known,
    yields_withParameters, Bool.false_eq_true, ↓reduceIte, Nat.succ_ne_zero, beq_iff_eq,
    Bool.true_and, yields_pure, Prod.mk.injEq] at hy
  obtain ⟨⟨p', bound⟩, mid, ⟨anchor, mid', ⟨hanchor, rfl⟩, hbound, rfl⟩, m, mid'', ⟨after, hvisit, rfl⟩, p'', mid₃,
    ⟨rfl, rfl⟩, hresult, rfl⟩ := hy
  obtain ⟨rfl, rfl⟩ := hbound
  obtain ⟨rfl, rfl⟩ := hresult
  exact ⟨rfl, anchor, hanchor, after, hvisit⟩

theorem lowerParts_recursiveUnion {parts : List (Expr × Visit)}
    (hy : Yields schema (lowerParts .recursiveUnion p (index + 1) parts) cx (q, ns) cx') : q = p := by
  induction parts generalizing index p ns cx with
  | nil =>
    obtain ⟨hpair, -⟩ := yields_pure.1 hy
    exact (Prod.mk.inj hpair).1.symm
  | cons head rest ih =>
    obtain ⟨part, visit⟩ := head
    simp only [lowerParts, yields_bind, yields_pure] at hy
    obtain ⟨⟨p', n⟩, mid, hpart, ⟨q', ns'⟩, mid', hrest, hresult, rfl⟩ := hy
    obtain ⟨rfl, rfl⟩ := Prod.mk.inj hresult
    obtain ⟨rfl, -⟩ := yields_recursiveArgument hpart
    exact ih hrest

/-- The second argument of a recursive union is lowered with its parameter bound to the anchor. -/
theorem yields_recursiveBody {rs : List Recognizer} {parts : List Expr}
    (hy : Yields schema (lowerParts .recursiveUnion {} 0 (parts.zip (parts.map (Expr.visit rs)))) cx (p, ns) cx')
    (hvalue : ns[1]? = some value) (hanchor : p.anchor = some anchor) :
    ∃ (body : Expr) (start stop : Context), parts[1]? = some body ∧ Yields schema (body.visit rs false (some 1))
        { start with scope := start.scope.bind (bindInOrder body [.derived anchor]) } value stop := by
  match parts with
  | [] =>
    obtain ⟨hpair, -⟩ := yields_pure.1 hy
    rw [← (Prod.mk.inj hpair).2] at hvalue
    cases hvalue
  | [source] =>
    simp only [map_cons, map_nil, zip_cons_cons, zip_nil_left, lowerParts, yields_bind,
      yields_pure] at hy
    obtain ⟨⟨q, n⟩, mid, -, ⟨q', ns'⟩, mid', ⟨hnil, rfl⟩, hresult, rfl⟩ := hy
    rw [← (Prod.mk.inj hresult).2, ← (Prod.mk.inj hnil).2] at hvalue
    cases hvalue
  | source :: body :: rest =>
    simp only [map_cons, zip_cons_cons, lowerParts, yields_bind, yields_pure] at hy
    obtain ⟨⟨q, n⟩, mid, -, ⟨q', ns'⟩, mid', ⟨⟨q'', m⟩, start, hbody, ⟨r, ms⟩, stop, hrest, hns', rfl⟩, hresult, rfl⟩ := hy
    obtain ⟨rfl, rfl⟩ := Prod.mk.inj hns'
    obtain ⟨rfl, rfl⟩ := Prod.mk.inj hresult
    obtain rfl : m = value := Option.some.inj hvalue
    obtain rfl := lowerParts_recursiveUnion hrest
    obtain ⟨rfl, anchor', hanchor', after, hvisit⟩ := yields_recursiveArgument hbody
    obtain rfl : anchor' = anchor := Option.mem_unique hanchor' hanchor
    exact ⟨body, mid, after, rfl, hvisit⟩

/-- The select of a recursive union declares a common table expression, whose recursive member is the second query with
the common table expression in the place of the anchor. -/
theorem yields_recursiveUnion (hy : Yields schema (recursiveUnion anchor value) cx n cx') :
    ∃ (a : Alias) (member : Derived) (after : Context) (s : Select),
      Yields schema (closeQuery value) cx (.derived member) after ∧ n = .select s ∧
        s.ctes = [⟨a, anchor, some (member.substitute anchor.id (.cte a anchor.columnPaths))⟩] := by
  simp only [recursiveUnion, yields_bind] at hy
  obtain ⟨member, after, hmember, hy⟩ := hy
  have hclose : Yields schema (closeQuery value) cx (.derived member) after := by
    simp only [recursiveMember, yields_bind] at hmember
    obtain ⟨m, mid, hm, hmember⟩ := hmember
    split at hmember
    · obtain ⟨rfl, rfl⟩ := yields_pure.1 hmember
      exact hm
    · exact absurd hmember not_yields_throw
  split at hy
  · obtain ⟨_, _, hthrow, -⟩ := yields_bind.1 hy
    exact absurd hthrow not_yields_throw
  · obtain ⟨a, mid, -, hy⟩ := yields_bind.1 hy
    split at hy
    · obtain ⟨_, _, hthrow, -⟩ := yields_bind.1 hy
      exact absurd hthrow not_yields_throw
    · simp only [selectFrom, yields_bind, yields_update, yields_pure] at hy
      obtain ⟨s, mid', ⟨rfl, -⟩, rfl, -⟩ := hy
      exact ⟨a, member, after, _, hclose, rfl, rfl⟩

theorem ctes_closeQuery {s : Select} (hy : Yields schema (closeQuery (.select s)) cx n cx') : n.ctes = s.ctes := by
  simp only [closeQuery, closeSelect, Select.close, yields_bind, yields_attempt, yields_pure, Result.bind_eq_ok,
    Result.pure_eq_ok] at hy
  obtain ⟨d, -, ⟨sc, ⟨leaves, -, hd⟩, -⟩, rfl, -⟩ := hy
  obtain ⟨rfl, -⟩ := Prod.mk.inj hd
  simp only [Node.ctes, Select.withKeyProjection]
  split
  · rfl
  · rfl

/-- For every recursive union that is lowered, by whatever recognizers and in whatever context: it declares one common
table expression, whose recursive member is the lowered second query with the common table expression in the place of
the anchor in all data sources. No data source at any depth of the recursive member reads the anchor. A copy of the
anchor is left in the recursive member exactly if one stood in the lowered second query outside data sources that read
it.

**Proof sketch.** The substitution enters everything but the data sources that it replaces, so the nodes of the tree
after it are the changed nodes of the tree before it that stood outside of these, and a change keeps the aliases of
closed selects. -/
theorem recursiveUnion_copies_iff (rs : List Recognizer) (schema : Schema) (e : Expr)
    (hrule : rs.findSome? (·.rule? e) = some .recursiveUnion) (chained : Bool) (index : Option Nat)
    (cx cx' : Context) (n : Node) (hy : Yields schema (e.visit rs chained index) cx n cx') :
    ∃ (a : Alias) (anchor member r : Derived), e.RecursesBy rs schema anchor member ∧
      n.ctes = [⟨a, anchor, some r⟩] ∧ r = member.substitute anchor.id (.cte a anchor.columnPaths) ∧
      (∀ m : Node, m.Within (.derived r) → ∀ bs, blocksOf? m = some bs → ∀ b ∈ bs, ∀ x ∈ b.select.sources,
        ∀ d, x.relation = .derived d → d.id ≠ anchor.id) ∧
      ((Node.derived r).Copies anchor.id ↔ (Node.derived member).Strays anchor.id) := by
  rw [Expr.visit_eq] at hy
  simp only [lowerNode, hrule, yields_withFrame, lowerBy, Rule.finish, yields_bind, yields_known] at hy
  obtain ⟨after, ⟨⟨p, ns⟩, mid, hparts, m, mid', ⟨anchor, _, ⟨hanchor, rfl⟩, value, _, hpart, hunion⟩, hclosed⟩, -⟩ := hy
  obtain ⟨hvalue, rfl⟩ := yields_orThrow.1 hpart
  obtain ⟨a, member, stop', s, hmember, rfl, hctes⟩ := yields_recursiveUnion hunion
  obtain ⟨body, start, stop, hbody, hvisit⟩ := yields_recursiveBody hparts hvalue hanchor
  have hn : n.ctes = s.ctes := by
    split at hclosed
    · exact ctes_closeQuery hclosed
    · obtain ⟨rfl, -⟩ := yields_pure.1 hclosed
      rfl
  have hcuts := cuts_substitution anchor.id a anchor.columnPaths
  refine ⟨a, anchor, member, _, ⟨body, value, start, stop, hbody, hvisit, mid, stop', hmember⟩, hn.trans hctes, rfl,
    fun m hm bs hbs b hb x hx d hd => ?_, ?_⟩
  · rw [Derived.derived_substitute] at hm
    have hx := Node.isDerived_within_change hcuts hm hbs hb hx
    simpa [hd, Relation.isDerived] using hx
  · rw [Derived.derived_substitute]
    exact Node.copies_change hcuts _

namespace Sample

/-- The assets that are no parts, with all parts of what was found so far and that itself. -/
def partsAndFound : Expr :=
  (((Query.ofEntity "Asset").filter "x" fun x => .binaryOf .equal (x.memberOf "ParentId" .unknown) .null)
    |>.recursiveUnion "a" fun found =>
      (((Query.ofEntity "Asset").join found (·.memberOf "ParentId" .unknown) (·.memberOf "RowId" .unknown)
        (.entity "Asset") fun i _ => i).unionAll found).filter "z" fun z =>
          .binaryOf .greaterThan (z.memberOf "RowId" .unknown) (.constantOf (.int 0))).expr

/-- Whether a data source of a recursive member reads a copy of the anchor. -/
def unitesAnchor (n : Node) : Bool :=
  n.ctes.any fun c => c.recursive.any fun r => r.select.sources.any fun x => x.relation.queries.any fun q =>
    q.id == c.anchor.id

theorem exists_partsAndFound : ∃ n cx', Yields assetCompiler.schema
    (partsAndFound.run false none) .empty n cx' ∧ unitesAnchor n = true := exists_yields (by decide +kernel)

/-- What was found so far is a query of a union here, and stays a copy of the assets that are no parts. -/
theorem partsAndFound_keeps_anchor : ∃ n cx', Yields assetCompiler.schema
    (partsAndFound.visit Recognizer.standard false none) .empty n cx' ∧ ∃ (a : Alias) (anchor member r : Derived),
      partsAndFound.RecursesBy Recognizer.standard assetCompiler.schema anchor member ∧
      n.ctes = [⟨a, anchor, some r⟩] ∧ (Node.derived r).Copies anchor.id ∧ (Node.derived member).Strays anchor.id := by
  obtain ⟨n, cx', hy, hunites⟩ := exists_partsAndFound
  obtain ⟨a, anchor, member, r, hrecurses, hctes, -, -, hiff⟩ := recursiveUnion_copies_iff Recognizer.standard
    assetCompiler.schema partsAndFound (by decide) false none .empty cx' n hy
  simp only [unitesAnchor, hctes, any_cons, any_nil, Bool.or_false, Option.any_some, any_eq_true,
    beq_iff_eq] at hunites
  obtain ⟨x, hx, q, hq, hid⟩ := hunites
  have hchild : Node.derived q ∈ (Node.derived r).children := by
    rw [Node.children_derived, Block.nodes, Select.nodes]
    simp only [mem_append, mem_flatMap]
    exact .inl (.inl (.inr ⟨x, hx, mem_append_left _ (mem_map_of_mem hq)⟩))
  have hcopies : (Node.derived r).Copies anchor.id :=
    ⟨.derived q, .child hchild (.root _), q, mem_singleton_self q, hid⟩
  exact ⟨n, cx', hy, a, anchor, member, r, hrecurses, hctes, hcopies, hiff.1 hcopies⟩

end Sample

end QueryLowering
