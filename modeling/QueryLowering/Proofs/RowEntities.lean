import QueryLowering.Proofs.Maintenance

/-!
# Rows of entities keep their members

A data source is registered with the entity of its rows, be it a table, a closed select that passes whole rows on, or
a union of such selects. Wherever an expression is lowered, such a data source has a column for every member of the
entity. So the keys of a navigation are found, and the join of the navigation has a condition.

## Main results

* `Schema.exists_columns_of_navigation`: what the keys of a navigation name in a consistent schema.
* `entity_rows_resolve_members`: members of rows of an entity are found, and so are conditions of navigations.
-/

namespace QueryLowering

open Sql Lower Result

variable {name : String} {columns : List Column} {c : Column} {nav : Navigation} {sc : Scope} {rs : List Recognizer}
variable {e e' : Expr} {cx cx' : Context}

variable {schema : Schema} {entity : String}

/-! ## Consistent schemas -/

theorem Schema.columnName_eq_ok {member : String} : schema.columnName entity member = .ok name ↔
      ∃ columns, schema.columns entity = .ok columns ∧ ∃ c, columns.find? (·.member == member) = some c ∧
        c.column = name := by
  simp only [Schema.columnName, bind_eq_ok, pure_eq_ok, orThrow_eq_ok]

theorem Schema.exists_columnName (hcolumns : schema.columns entity = .ok columns) (hc : c ∈ columns) :
    ∃ name, schema.columnName entity c.member = .ok name := by
  have hfound : (columns.find? (·.member == c.member)).isSome := by
    rw [List.find?_isSome]
    exact ⟨c, hc, beq_self_eq_true _⟩
  obtain ⟨c', hc'⟩ := Option.isSome_iff_exists.1 hfound
  exact ⟨c'.column, columnName_eq_ok.2 ⟨columns, hcolumns, c', hc', rfl⟩⟩

/-- In a consistent schema a navigation has keys, and each key pairs a member of the entity with one of the
target. -/
theorem Schema.exists_columns_of_navigation (hfault : schema.fault? = none)
    (hnav : schema.navigation entity name = .ok nav) :
    nav.keys ≠ [] ∧ ∃ columns targets, schema.columns entity = .ok columns ∧ schema.columns nav.target = .ok targets ∧
      ∀ key ∈ nav.keys, (∃ c ∈ columns, c.member = key.1) ∧ ∃ c ∈ targets, c.member = key.2 := by
  simp only [Schema.navigation, Schema.entity, bind_eq_ok, orThrow_eq_ok] at hnav
  obtain ⟨e, he, hnav⟩ := hnav
  have hentities : schema.entities.findSome? schema.entityFault? = none := by
    unfold Schema.fault? at hfault
    split at hfault
    · cases hfault
    · exact hfault
  have hentity : schema.entityFault? e = none := List.findSome?_eq_none_iff.1 hentities e (List.mem_of_find?_eq_some he)
  have hnavigation : schema.navigationFault? e nav = none := by
    unfold Schema.entityFault? at hentity
    split at hentity
    · cases hentity
    · exact List.findSome?_eq_none_iff.1 hentity nav (List.mem_of_find?_eq_some hnav)
  unfold Schema.navigationFault? at hnavigation
  split at hnavigation
  · cases hnavigation
  · next target htarget =>
    split at hnavigation
    · cases hnavigation
    · next hkeys =>
      refine ⟨fun hnil => hkeys (by simp [hnil]), e.columns, target.columns, columns_eq_ok.2 ⟨e, he, rfl⟩,
        columns_eq_ok.2 ⟨target, htarget, rfl⟩, fun key hkey => ?_⟩
      have hpair := List.findSome?_eq_none_iff.1 hnavigation key hkey
      simp only [Schema.keyFault?, ite_eq_left_iff, reduceCtorEq, imp_false, not_not, Bool.and_eq_true,
        List.any_eq_true, beq_iff_eq] at hpair
      exact hpair

/-! ## Members and navigations -/

/-- A data source that covers the members of an entity has a column for each of them. -/
theorem Scope.exists_resolvePath {a : Alias} {shape : SourceShape} (hshape : sc.shape? a = some shape)
    (hcovers : shape.Covers schema)
    (hentity : shape.entity? = some entity) (hcolumns : schema.columns entity = .ok columns)
    (hc : c ∈ columns) : ∃ name, sc.resolvePath schema a [c.member] = .ok (.column a name) := by
  simp only [Scope.resolvePath, Scope.shape, hshape, bind_eq_ok, orThrow_eq_ok, Option.some.injEq,
    exists_eq_left']
  cases shape with
  | entity name =>
    obtain rfl := Option.some.inj hentity
    obtain ⟨column, hcolumn⟩ := Schema.exists_columnName hcolumns hc
    exact ⟨column, by simp [hcolumn]⟩
  | columns cs rowEntity =>
    obtain rfl : rowEntity = some entity := hentity
    have hmem : [c.member] ∈ cs.map (·.1) := hcovers columns hcolumns c hc
    have hfound : (cs.find? (·.1 == [c.member])).isSome := by
      rw [List.find?_isSome]
      obtain ⟨entry, hentry, hpath⟩ := List.mem_map.1 hmem
      exact ⟨entry, hentry, beq_iff_eq.2 hpath⟩
    obtain ⟨⟨path, name⟩, hentry⟩ := Option.isSome_iff_exists.1 hfound
    exact ⟨name, by simp [Scope.resolveColumns, hentry]⟩

/-- The rows that a navigation leads to are found by its keys. -/
theorem Scope.exists_navigationCondition {parent child : Alias}
    (hkeys : nav.keys ≠ []) (h : ∀ key ∈ nav.keys, (∃ n, sc.resolvePath schema parent [key.1] = .ok n) ∧
      ∃ name, schema.columnName nav.target key.2 = .ok name) :
    ∃ n, sc.navigationCondition schema nav parent child = .ok n := by
  have hconditions : ∀ key ∈ nav.keys, ∃ n, sc.keyCondition schema nav.target parent child key = .ok n := by
    intro key hkey
    obtain ⟨⟨left, hleft⟩, name, hname⟩ := h key hkey
    exact ⟨.operation .eq left (.column child name), by simp [Scope.keyCondition, hleft, hname]⟩
  obtain ⟨conditions, hmapM⟩ := exists_mapM hconditions
  cases conditions with
  | nil => exact absurd (List.forall₂_nil_right_iff.1 (mapM_eq_ok.1 hmapM)) hkeys
  | cons first rest => exact ⟨_, by simp [Scope.navigationCondition, hmapM, conjunction]; rfl⟩

/-! ## The scopes of a lowering -/

/-- While an expression is lowered from a context, a part of it at any depth is lowered from another context. The
parts before it have been lowered, and its parameters are bound. -/
inductive Expr.Reaches (rs : List Recognizer) (schema : Schema) : Expr → Context → Expr → Context → Prop
  | root (e : Expr) (cx : Context) : Reaches rs schema e cx e cx
  | part {e child e' : Expr} {cx mid mid' cx' : Context} {r : Rule} {before after : List Expr} {index : Option Nat}
      {p q : Progress} {values : List Node} {bound : List (String × Node)}
      (hrule : rs.findSome? (·.rule? e) = some r) (hparts : r.skipsParts = false)
      (hchildren : e.children = before ++ child :: after)
      (hbefore : Yields schema (lowerParts r {} 0 (before.zip (before.map (Expr.visit rs))))
        { cx with frames := ⟨r.name, e.kindName, index⟩ :: cx.frames } (p, values) mid)
      (hbound : Yields schema (r.bindings p before.length child) mid (q, bound) mid')
      (hinside : Reaches rs schema child { mid' with scope := mid'.scope.bind bound } e' cx') :
      Reaches rs schema e cx e' cx'

/-- What is reached goes on with its parts. -/
theorem Expr.Reaches.descends {child : Expr} {cx'' : Context}
    (h : e.Reaches rs schema cx e' cx') (hdescends : e'.Descends rs schema cx' child cx'') :
    e.Reaches rs schema cx child cx'' := by
  induction h with
  | root =>
    cases hdescends with
    | intro hrule hparts hchildren hbefore hbound =>
      exact .part hrule hparts hchildren hbefore hbound (.root _ _)
  | part hrule hparts hchildren hbefore hbound _ ih => exact .part hrule hparts hchildren hbefore hbound (ih hdescends)

/-- A condition that the lowering keeps holds of all contexts that it comes to. -/
theorem Expr.Reaches.upheld {R : Regime} [R.Lawful] (hmodify : R.Admits rs fun _ _ => True) {w : R.World}
    (h : e.Reaches rs R.watch.schema cx e' cx') (hcx : cx.Upheld R w) : ∃ w', cx'.Upheld R w' := by
  induction h generalizing w with
  | root => exact ⟨w, hcx⟩
  | part hrule hparts hchildren hbefore hbound _ ih =>
    have hdescends := Expr.Descends.intro hrule hparts hchildren hbefore hbound
    obtain ⟨w', -, hmid⟩ := hdescends.upheld (fun _ _ _ _ _ _ => trivial) hmodify trivial hcx
    exact ih hmid

/-- The scopes that the lowering of an expression goes through: each of them lies between the scope that the
expression, or a part of it, is lowered from, and the scope that this leaves, whether it succeeds or fails. -/
def Expr.PassesThrough (rs : List Recognizer) (schema : Schema) (e : Expr) (sc : Scope) : Prop :=
  ∃ e' cx chained index, e.Reaches rs schema .empty e' cx ∧ cx.scope.shapes <:+ sc.shapes ∧
    sc.shapes <:+ ((e'.visit rs chained index).exec schema cx).2.scope.shapes

/-- The scope that the lowering of an expression leaves. -/
theorem Expr.passesThrough_lower (rs : List Recognizer) (schema : Schema) (e : Expr) :
    e.PassesThrough rs schema ((e.lower rs).exec schema .empty).2.scope :=
  ⟨e, .empty, false, none, .root _ _, List.nil_suffix, List.suffix_refl _⟩

/-- Wherever an expression is lowered against a consistent schema, a data source whose rows are those of an entity
has a column for every member of the entity, and the condition of every navigation of the entity can be made from
its rows.

**Proof sketch.** All registered data sources cover the members of their entities: a table does, a closed select does
because the row that it passes on comes from a data source that does, and a union does if its first query does. Steps
only register more, so this holds of every scope on the way. The keys of a navigation are members of the entity. -/
theorem entity_rows_resolve_members (d : Declaration) (schema : Schema) (hschema : d.schema = .ok schema)
    (rs : List Recognizer) (e : Expr) (sc : Scope) (hsc : e.PassesThrough rs schema sc) (a : Alias)
    (shape : SourceShape) (hshape : sc.shape? a = some shape) (entity : String)
    (hentity : shape.entity? = some entity) : (∀ columns, schema.columns entity = .ok columns → ∀ c ∈ columns, ∃ name,
      sc.resolvePath schema a [c.member] = .ok (.column a name)) ∧
    ∀ name nav child, schema.navigation entity name = .ok nav → ∃ condition,
      sc.navigationCondition schema nav a child = .ok condition := by
  have hcovers : shape.Covers schema := by
    obtain ⟨e', cx, chained, index, hreaches, -, hsuffix⟩ := hsc
    obtain ⟨known, hcx⟩ :=
      hreaches.upheld (R := Watch.regime ⟨schema, []⟩) (Watch.admits_regime _ rs) (Context.orderly_empty schema)
    obtain ⟨known', -, hafter, -⟩ :=
      (e'.visit_orderly ⟨schema, []⟩ rs chained index index hcx _ (SamePlace.refl index _)).upheld
    exact hafter.fits.shapes (a, shape) (hsuffix.subset (mem_of_lookup hshape))
  have hmembers : ∀ columns, schema.columns entity = .ok columns → ∀ c ∈ columns, ∃ name,
      sc.resolvePath schema a [c.member] = .ok (.column a name) :=
    fun columns hcolumns c hc => Scope.exists_resolvePath hshape hcovers hentity hcolumns hc
  refine ⟨hmembers, fun name nav child hnav => ?_⟩
  have hfault : schema.fault? = none := by
    unfold Declaration.schema Schema.validated at hschema
    split at hschema
    · exact absurd hschema throw_ne_ok
    · next hfault =>
      rw [pure_eq_ok] at hschema
      exact hschema ▸ hfault
  obtain ⟨hkeys, columns, targets, hcolumns, htargets, hpairs⟩ := Schema.exists_columns_of_navigation hfault hnav
  refine Scope.exists_navigationCondition hkeys fun key hkey => ?_
  obtain ⟨⟨c, hc, hfirst⟩, c', hc', hsecond⟩ := hpairs key hkey
  obtain ⟨column, hcolumn⟩ := hmembers columns hcolumns c hc
  exact ⟨⟨_, hfirst ▸ hcolumn⟩, hsecond ▸ Schema.exists_columnName htargets hc'⟩

namespace Sample

/-- The schema of a school, as its declaration says. -/
def schoolSchema : Schema := ⟨school.entities.map EntityDeclaration.toEntity⟩

/-- The employees of the first page together with all employees, filtered by the name of their department. -/
def pagedColleagues : Expr :=
  ((((Query.ofEntity "Employee").paging 1 10).union (Query.ofEntity "Employee")).filter "x" fun x =>
    .binaryOf .equal ((Expr.navigation x "NavDepartment" (.entity "Department")).memberOf "Name" .string)
      (.constantOf (.string "Sales"))).expr

/-- The scope that lowering the filter leaves. -/
def pagedColleaguesScope : Scope := ((pagedColleagues.lower Recognizer.standard).exec schoolSchema .empty).2.scope

/-- The data source of the union has the rows of employees. Each of their members is a column of it, and the
department of an employee can be joined to it. -/
theorem pagedColleagues_resolve : school.schema = .ok schoolSchema ∧
    pagedColleagues.PassesThrough Recognizer.standard schoolSchema pagedColleaguesScope ∧
    pagedColleaguesScope.shape? ⟨5⟩ = some (.columns [(["EmployeeId"], "EmployeeId"), (["Name"], "Name"),
      (["DepartmentId"], "DepartmentId"), (["ManagerId"], "ManagerId")] (some "Employee")) ∧
    (∀ columns, schoolSchema.columns "Employee" = .ok columns → ∀ c ∈ columns, ∃ name,
      pagedColleaguesScope.resolvePath schoolSchema ⟨5⟩ [c.member] = .ok (.column ⟨5⟩ name)) ∧
    ∀ name nav child, schoolSchema.navigation "Employee" name = .ok nav → ∃ condition,
      pagedColleaguesScope.navigationCondition schoolSchema nav ⟨5⟩ child = .ok condition := by
  have hschema : school.schema = .ok schoolSchema := by decide +kernel
  have hpasses : pagedColleagues.PassesThrough Recognizer.standard schoolSchema pagedColleaguesScope :=
    Expr.passesThrough_lower Recognizer.standard schoolSchema pagedColleagues
  have hshape : pagedColleaguesScope.shape? ⟨5⟩ = some (.columns [(["EmployeeId"], "EmployeeId"),
      (["Name"], "Name"), (["DepartmentId"], "DepartmentId"), (["ManagerId"], "ManagerId")] (some "Employee")) := by
    decide +kernel
  exact ⟨hschema, hpasses, hshape, entity_rows_resolve_members school schoolSchema hschema Recognizer.standard
    pagedColleagues pagedColleaguesScope hpasses ⟨5⟩ _ hshape "Employee" rfl⟩

end Sample

end QueryLowering
