import QueryLowering.Proofs.JoinCalls
import QueryLowering.Proofs.JoinRows

/-!
# The rows of explicit joins

The statement of a join is compared with the statement of its source. The source is a table that conditions filter, and
the join is to have the rows that the source returns, joined with the rows of another table.

The join does not close the select of its source, so that the condition of the source is tested after the join. For
joins that keep no rows of the other table this makes no difference. A right or full outer join keeps the rows of the
other table that match nothing, beside missing rows of the source, and the condition of the source drops them.

## Main results

* `Sql.Select.JoinedTo.perm_found`: what the two selects find.
* `explicit_join_rows`: the rows of a join, and those that are lost.
-/

namespace QueryLowering

open Sql Lower Result List

variable {s : Select} {b a : Alias} {t : Table} {kind : JoinKind} {on : Option Node} {schema : Schema} {k : Meanings}
variable {options : Options} {entries : List (Path × Node)}

/-! ## Queries that join a table -/

/-- A select reads what another one reads and a table that is joined to that. The condition on rows is the same in both,
and it does not mention the table. -/
structure Sql.Select.JoinedTo (s : Select) (b : Alias) (t : Table) (kind : JoinKind) (on : Option Node)
    (joined : Select) : Prop where
  basic : s.isBasic = true
  joined_basic : joined.isBasic = true
  sources : joined.sources = s.sources ++ [⟨b, .table t, some ⟨kind, on⟩, none⟩]
  filter : joined.filter = s.filter
  below : ∀ n ∈ s.filter, n.Every (Mark.Below b.index)

section

variable {joined : Select}

theorem Sql.Select.isBasic_bare (h : s.isBasic = true) : (s.change withoutCtes).isBasic = true := by
  obtain ⟨sources, projection, filter, groupBy, groupElement, having, orderBy, top, skip, distinct, defaultIfEmpty,
    ctes⟩ := s
  simp only [isBasic, isPlain, isPaged, Bool.and_eq_true, Bool.not_eq_true', Bool.or_eq_false_iff,
    Option.isNone_iff_eq_none, Option.isSome_eq_false_iff, List.isEmpty_iff] at h
  obtain ⟨⟨⟨⟨⟨⟨⟨rfl, rfl⟩, rfl⟩, rfl⟩, rfl⟩, rfl⟩, rfl, rfl⟩, rfl⟩ := h
  rfl

/-- Common table expressions are taken out of both selects alike. -/
theorem Sql.Select.JoinedTo.bare (h : s.JoinedTo b t kind on joined) :
    (s.change withoutCtes).JoinedTo b t kind (changeOption withoutCtes on) (joined.change withoutCtes) where
  basic := isBasic_bare h.basic
  joined_basic := isBasic_bare h.joined_basic
  sources := by
    rw [sources_bare, sources_bare, h.sources, changeSources_eq withoutCtes (_ ++ _), map_append,
      ← changeSources_eq]
    rfl
  filter := by rw [filter_bare, filter_bare, h.filter]
  below := by
    rw [filter_bare]
    exact every_changeOption (keeps_withoutCtes fun _ _ => trivial) _ h.below

/-- A condition that does not mention an alias does not hang on its row. -/
theorem Meanings.holds_with (k : Meanings) {condition : Option Node}
    (h : ∀ n ∈ condition, n.Every (Mark.Below b.index)) (c : Combination) (row : String → Literal) :
    k.holds condition (c.with b row) = k.holds condition c := by
  cases condition with
  | none => rfl
  | some n =>
    have hcongr : k.truth n (c.with b row) = k.truth n c := by
      refine k.truth_congr fun a ha => Function.update_of_ne ?_ _ _
      rintro rfl
      exact Nat.lt_irrefl _ (h n rfl _ ha)
    rw [Meanings.holds, Meanings.holds, Option.all_some, Option.all_some, hcongr]

theorem Sql.Select.JoinedTo.combinations_eq (h : s.JoinedTo b t kind on joined) (k : Meanings) :
    joined.combinations k = kind.combine (k.holds on) b (s.combinations k) fun _ => k.contents t := by
  rw [Select.combinations, Select.combinations, sourceCombinations, sourceCombinations, h.sources, foldl_append]
  rfl

/-- The join of the combinations that a query finds has those that the query with the table finds, and the lost
ones. -/
theorem Sql.Select.JoinedTo.perm_found (h : s.JoinedTo b t kind on joined) (k : Meanings) :
    (kind.combine (k.holds on) b (s.found k) fun _ => k.contents t).Perm
      (joined.found k ++ kind.lost (k.holds on) b (k.holds s.filter) (s.combinations k) (k.contents t)) := by
  rw [Select.found, Select.found, h.combinations_eq, h.filter]
  exact kind.perm_filter_combine (k.holds_with h.below) _ _

/-- Nothing is lost by a join that keeps no rows of its own, and nothing if there is no condition on rows. -/
theorem lost_eq_nil_of_filter {filter : Option Node} (k : Meanings) (h : kind.keepsRight = false ∨ filter = none)
    (before : List Combination) (rows : List (String → Literal)) :
    kind.lost (k.holds on) b (k.holds filter) before rows = [] := by
  refine kind.lost_eq_nil (h.imp_right fun hfilter c => ?_) _ _
  rw [hfilter]
  rfl

end

/-! ## Output rows -/

/-- The row of an entity in a combination, with the value of each member. -/
def entityRow (entity : Entity) (a : Alias) (c : Combination) : List (Path × Literal) :=
  entity.columns.map fun column => ([column.member], (c a).elim .null (· column.column))

/-- The row of a shape in a combination. The values of a row that is missing are null. -/
def shapeRow (schema : Schema) (y : String) (columns : List ShapeColumn) (left right : Alias × String)
    (c : Combination) : List (Path × Literal) := columns.map fun column =>
    let row := pairRows y left right column.row
    (column.path, (c row.1).elim .null (· (schema.stored row.2 column.member)))

theorem Sql.outputRow_nameColumns (entries : List (Path × Node)) (c : Combination) :
    outputRow k (nameColumns entries) c = entries.map fun entry => (entry.1, k.cell entry.2 c) := by
  have hmap : outputRow k (nameColumns entries) c = ((nameColumns entries).map fun o => (o.path, o.expr)).map
      fun entry => (entry.1, k.cell entry.2 c) := by
    rw [outputRow, map_map]
    rfl
  rw [hmap, nameColumns, map_nameColumnsFrom]

theorem outputRow_entity (entity : Entity) (a : Alias) :
    outputRow k (nameColumns (entity.columns.map fun c => ([c.member], .column a c.column))) = entityRow entity a := by
  funext c
  rw [outputRow_nameColumns, map_map]
  rfl

theorem outputRow_shape (y : String) (columns : List ShapeColumn) (left right : Alias × String) :
    outputRow k (nameColumns (columns.map (·.entry schema (pairRows y left right)))) =
      shapeRow schema y columns left right := by
  funext c
  rw [outputRow_nameColumns, map_map]
  rfl

/-- Output columns that are columns have nothing to take out of them. -/
theorem Sql.changeColumns_nameColumns (h : ∀ entry ∈ entries, entry.2.isScalar = true) :
    changeColumns withoutCtes (nameColumns entries) = nameColumns entries := by
  refine (bare_columns fun o ho => ?_).1
  have hmem : (o.path, o.expr) ∈ (nameColumns entries).map fun o => (o.path, o.expr) := mem_map_of_mem ho
  rw [nameColumns, map_nameColumnsFrom] at hmem
  exact h _ hmem

/-! ## Statements -/

/-- The condition of a join as its statement has it: common table expressions are taken out if they are hoisted. -/
def Options.writtenCondition (options : Options) (on : Option Node) : Option Node :=
  if options.hoistCtes then changeOption withoutCtes on else on

/-- A query as its statement has it. -/
def Options.writtenQuery (options : Options) (d : Derived) : Derived :=
  if options.hoistCtes then d.change withoutCtes else d

section

variable {d joined : Derived}

theorem Sql.Select.ReadsTable.joinedTo (hs : s.ReadsTable a t) (hbelow : s.Every (Mark.Below b.index)) (other : Table)
    (value : Node) : s.JoinedTo b other kind on { s.withTable b other kind on with projection := some value } := by
  obtain ⟨more, filter, rfl⟩ := hs
  exact ⟨rfl, rfl, rfl, rfl, hbelow.filter⟩

/-- The closed form of a select whose rows have the value of a shape has the columns of the shape. -/
theorem Expr.IsShape.close_eq {x y : String} {body : Expr} {columns : List ShapeColumn}
    (hbody : body.IsShape x y columns) {left right : Alias × String} {sc after : Scope}
    (hprojection : s.projection = some (shapeValue schema y columns left right))
    (hd : s.close schema sc = .ok (d, after)) :
    d.select = s ∧ d.columns = nameColumns (columns.map (·.entry schema (pairRows y left right))) := by
  have hkey : s.withKeyProjection = s := by
    rw [Select.withKeyProjection, hprojection]
    rfl
  have hcurrent : s.currentShape sc = shapeValue schema y columns left right := by
    rw [Select.currentShape, hprojection]
  simp only [Select.close, hkey, hcurrent, bind_eq_ok, pure_eq_ok, Prod.mk.injEq] at hd
  obtain ⟨leaves, hleaves, rfl, -⟩ := hd
  rw [shapeValue, hbody.flatten_eq] at hleaves
  obtain rfl := Except.ok.inj hleaves
  exact ⟨rfl, rfl⟩

theorem Sql.Body.rows?_query (hd : d.select.isBasic = true) (k : Meanings) :
    (Body.query d).rows? k = some ((d.select.found k).map (outputRow k d.columns)) := if_pos hd

/-- The statement of a query that is lowered. -/
theorem Options.exists_statement_of_yields {e : Expr} {last : Context}
    (hy : Yields schema ((options.simplified e).lower Recognizer.standard >>= statementBody) .empty (.query d) last) :
    ∃ st, ({ schema, options } : Compiler).statement e = .ok st ∧ st.body = .query (options.writtenQuery d) := by
  have hbody : ({ schema, options } : Compiler).body (options.simplified e) = .ok (.query d) := congrArg Prod.fst hy
  refine ⟨if options.hoistCtes then Statement.hoist ⟨[], .query d⟩ else ⟨[], .query d⟩, ?_, ?_⟩
  · have hsimplified := options.simplified_eq schema e
    cases hpreprocess : options.preprocess with
    | true =>
      simp only [hpreprocess, ↓reduceIte] at hsimplified
      simp only [Compiler.statement, hpreprocess, ↓reduceIte, bind_eq_ok, pure_eq_ok]
      exact ⟨_, hsimplified, _, hbody, rfl⟩
    | false =>
      simp only [hpreprocess, Bool.false_eq_true, ↓reduceIte, pure_eq_ok] at hsimplified
      simp only [Compiler.statement, hpreprocess, Bool.false_eq_true, ↓reduceIte, bind_eq_ok, pure_eq_ok]
      exact ⟨_, hsimplified, _, hbody, rfl⟩
  · rw [writtenQuery]
    split <;> rfl

namespace Options

theorem select_writtenQuery (d : Derived) : (options.writtenQuery d).select =
    if options.hoistCtes then d.select.change withoutCtes else d.select := by
  rw [writtenQuery]
  obtain ⟨⟩ := d
  split <;> rfl

theorem joinedTo_writtenQuery (h : d.select.JoinedTo b t kind on joined.select) :
    (options.writtenQuery d).select.JoinedTo b t kind (options.writtenCondition on)
      (options.writtenQuery joined).select := by
  rw [select_writtenQuery, select_writtenQuery, writtenCondition]
  split
  · exact h.bare
  · exact h

theorem aliases_writtenQuery (d : Derived) : (options.writtenQuery d).select.aliases = d.select.aliases := by
  rw [select_writtenQuery]
  split
  · rw [Select.aliases, Select.sources_bare, History.map_name_changeSources]
    rfl
  · rfl

theorem initial?_writtenQuery (d : Derived) : (options.writtenQuery d).select.initial? = d.select.initial? := by
  have hinitial : ∀ s : Select, s.initial? = s.aliases.head? := fun s => head?_map.symm
  rw [hinitial, hinitial, aliases_writtenQuery]

theorem columns_writtenQuery (h : ∀ entry ∈ entries, entry.2.isScalar = true)
    (hd : d.columns = nameColumns entries) : (options.writtenQuery d).columns = nameColumns entries := by
  rw [writtenQuery]
  obtain ⟨id, select, columns⟩ := d
  split
  · exact (congrArg (changeColumns withoutCtes) hd).trans (changeColumns_nameColumns h)
  · exact hd

end Options

end

/-- **Explicit joins.** The statement of a join of a filtered table with another table has the rows of the join of what
the statement of the source finds with the rows of the other table, apart from those that are lost. A row is lost only
by a join that keeps its own rows, a right or a full outer one, and only if the source has a condition: it is a row of
the other table that matches nothing the source finds, and that matched a row the source does not find or for which the
condition of the source is not true once the rows of the source are missing.

**Proof sketch.** The join goes on with the very select whose closed form is the statement of the source, so that the
data sources of the source come first and the condition on rows, which does not mention the other table, is tested
last. The two orders of joining and testing differ by the lost combinations. -/
theorem explicit_join_rows (schema : Schema) (options : Options) {kind : JoinKind} {entity joined : String}
    {e source other shape body : Expr} {condition : Option Expr} {x y : Param} {columns : List ShapeColumn}
    {st : Statement} (he : e.Joins kind source other shape condition) (hsource : source.FiltersTable entity)
    (hother : other.IsTable joined) (hshape : shape.asLambda? = some ([x, y], body))
    (hbody : body.IsShape x.name y.name columns) (hst : ({ schema, options } : Compiler).statement e = .ok st) :
    ∃ src query a b left right on,
      ({ schema, options } : Compiler).statement source = .ok src ∧ src.body = .query query ∧
      query.select.initial? = some a ∧ b ∉ query.select.aliases ∧
      schema.find? entity = some left ∧ schema.find? joined = some right ∧
      JoinsOn schema (shapeValue schema y.name columns (a, entity) (b, joined)) (condition.map options.simplified) on ∧
      ∀ k : Meanings, src.body.rows? k = some ((query.select.found k).map (entityRow left a)) ∧
        ∃ rows lost, st.body.rows? k = some rows ∧
          ((kind.combine (k.holds (options.writtenCondition on)) b (query.select.found k) fun _ =>
            k.contents ⟨joined, right.table⟩).map (shapeRow schema y.name columns (a, entity) (b, joined))).Perm
              (rows ++ lost.map (shapeRow schema y.name columns (a, entity) (b, joined))) ∧
          lost = kind.lost (k.holds (options.writtenCondition on)) b (k.holds query.select.filter)
            (query.select.combinations k) (k.contents ⟨joined, right.table⟩) ∧
          (kind.keepsRight = false ∨ query.select.filter = none → lost = []) := by
  obtain ⟨e', b', he', hb', rfl⟩ := Compiler.statement_eq_ok hst
  obtain rfl := Except.ok.inj ((options.simplified_eq schema e).symm.trans he')
  obtain ⟨n, mid, cx, hn, hn'⟩ := Compiler.body_eq_ok hb'
  have hjoins := options.joins_simplified he
  rw [options.simplified_shape hshape hbody] at hjoins
  have hfilters := options.filtersTable_simplified hsource
  obtain ⟨op, hrule⟩ := hjoins.exists_rule
  obtain ⟨m, before, hm, hclose⟩ := (yields_closed_iff hrule rfl).1 hn
  obtain @⟨f, m', _, opened, s, a, b, _, right, on, hsource', hopen, hreads, hbelow, hnew, hright, hon, rfl⟩ :=
    joinCall_of_yields hjoins hfilters (options.isTable_simplified hother) hshape hbody hm
  simp only [closeQuery, closeSelect, yields_bind, yields_attempt, yields_pure] at hclose
  obtain ⟨d, _, ⟨sc, hd, rfl⟩, rfl, rfl⟩ := hclose
  obtain ⟨rfl, -⟩ := yields_pure.1 hn'
  obtain ⟨hselect, hcolumns⟩ := hbody.close_eq rfl hd
  obtain ⟨a', left, query, last, hleft, hreads', hy, rfl, hentity⟩ := hfilters.exists_statement hsource' hopen
  obtain rfl : a = a' := Option.mem_unique hreads.initial?_eq hreads'.initial?_eq
  obtain ⟨src, hsrc, hsrcbody⟩ := options.exists_statement_of_yields hy
  have hjoined : query.select.JoinedTo b ⟨joined, right.table⟩ kind on d.select := hselect ▸ hreads.joinedTo hbelow _ _
  have hwritten := options.joinedTo_writtenQuery hjoined
  have hstbody : (if options.hoistCtes then Statement.hoist ⟨[], .query d⟩ else ⟨[], .query d⟩ : Statement).body =
      .query (options.writtenQuery d) := by
    rw [Options.writtenQuery]
    split <;> rfl
  have hsrcrows : ∀ k, src.body.rows? k =
      some (((options.writtenQuery query).select.found k).map (entityRow left a)) := by
    intro k
    rw [hsrcbody, Body.rows?_query hwritten.basic,
      options.columns_writtenQuery (forall_mem_map.2 fun _ _ => rfl) hentity, outputRow_entity]
  have hrows : ∀ k, (Body.query (options.writtenQuery d)).rows? k = some (((options.writtenQuery d).select.found k).map
      (shapeRow schema y.name columns (a, entity) (b, joined))) := by
    intro k
    rw [Body.rows?_query hwritten.joined_basic,
      options.columns_writtenQuery (forall_mem_map.2 fun _ _ => rfl) hcolumns, outputRow_shape]
  refine ⟨src, options.writtenQuery query, a, b, left, right, on, hsrc, hsrcbody,
    (options.initial?_writtenQuery query).trans hreads.initial?_eq, options.aliases_writtenQuery query ▸ hnew, hleft,
    hright, hon, fun k => ⟨hsrcrows k, _, _, hstbody ▸ hrows k, ?_, rfl, fun h => lost_eq_nil_of_filter k h _ _⟩⟩
  rw [← map_append]
  exact (hwritten.perm_found k).map _

namespace Sample

/-- Students and courses. -/
def teaching : Schema := ⟨[student.toEntity, course.toEntity]⟩

/-- The students of eighteen. -/
def freshmen : Query :=
  (Query.ofEntity "Student").filter "x" fun x => .binaryOf .equal (x.memberOf "Age" .int) (.constantOf (.int 18))

/-- A student and a course. -/
def paired (a b : Expr) : Expr :=
  .construct .anonymous [("Name", a.memberOf "Name" .string), ("Takes", a.memberOf "CourseId" .int),
    ("Course", b.memberOf "CourseId" .int)]

/-- Whether a student takes a course. -/
def takes (n : Expr) : Expr := .binaryOf .equal (n.memberOf "Takes" .int) (n.memberOf "Course" .int)

/-- The students of eighteen with the courses that they take, and all other courses. -/
def freshmenByCourse : Query :=
  freshmen.explicitJoin "RightJoin" (Query.ofEntity "Course") .anonymous paired takes

theorem joins_freshmenByCourse : freshmenByCourse.expr.Joins .right freshmen.expr (Query.ofEntity "Course").expr
    (Query.lambda2 (freshmen.param "a") ((Query.ofEntity "Course").param "b") paired)
      (some (Query.lambda1 ⟨"n", .anonymous⟩ takes)) :=
  @Expr.Joins.call _ .rightJoin _ _ _ _ (some _) _ rfl rfl (by simp)

/-- The only student is twenty and takes the only course. -/
def term : Meanings where
  truth c rows := comparisons.truth c fun a => (rows a).map fun row name =>
    match row name with
    | .int n => n
    | _ => 0
  truth_congr h := comparisons.truth_congr fun a ha => by rw [h a ha]
  contents t := [fun name => .int (if t.entity = "Student" ∧ name = "Age" then 20 else 1)]
  rows _ _ := []
  value _ _ := .null

theorem isShape_paired : (paired (.parameter (freshmen.param "a"))
    (.parameter ((Query.ofEntity "Course").param "b"))).IsShape "a" "b"
      [⟨["Name"], "a", "Name"⟩, ⟨["Takes"], "a", "CourseId"⟩, ⟨["Course"], "b", "CourseId"⟩] := by
  refine @Expr.IsShape.construct "a" "b" _ [[⟨[], "a", "Name"⟩], [⟨[], "a", "CourseId"⟩], [⟨[], "b", "CourseId"⟩]]
    .anonymous rfl ?_
  refine forall_mem_cons.2 ⟨.column _ _ (.inl rfl) rfl, forall_mem_cons.2 ⟨.column _ _ (.inl rfl) rfl, ?_⟩⟩
  exact forall_mem_singleton.2 (.column _ _ (.inr rfl) rfl)

/-- No student of eighteen is found, so that the right join has the course alone. Its statement has no rows: the student
of twenty takes the course, and the condition on the age comes last. -/
theorem freshmenByCourse_loses_course : ∃ st src query a b right on lost,
    ({ schema := teaching, options := {} } : Compiler).statement freshmenByCourse.expr = .ok st ∧
    ({ schema := teaching, options := {} } : Compiler).statement freshmen.expr = .ok src ∧
    src.body = .query query ∧ teaching.find? "Course" = some right ∧ st.body.rows? term = some [] ∧ lost.length = 1 ∧
    ((JoinKind.right.combine (term.holds on) b (query.select.found term) fun _ =>
      term.contents ⟨"Course", right.table⟩).map (shapeRow teaching "b" [⟨["Name"], "a", "Name"⟩,
        ⟨["Takes"], "a", "CourseId"⟩, ⟨["Course"], "b", "CourseId"⟩] (a, "Student") (b, "Course"))).Perm lost := by
  have hcounts : (do
      let st ← ({ schema := teaching, options := {} } : Compiler).statement freshmenByCourse.expr
      let src ← ({ schema := teaching, options := {} } : Compiler).statement freshmen.expr
      pure ((st.body.rows? term).map List.length, (src.body.rows? term).map List.length) :
        Result (Option Nat × Option Nat)) = .ok (some 0, some 0) := by
    decide +kernel
  simp only [bind_eq_ok, pure_eq_ok, Prod.mk.injEq, Option.map_eq_some_iff, length_eq_zero_iff] at hcounts
  obtain ⟨st, hst, src, hsrc, ⟨_, hrows, rfl⟩, _, hnone, rfl⟩ := hcounts
  obtain ⟨src', query, a, b, left, right, on, hsrc', hquery, -, -, -, hright, -, hterm⟩ :=
    explicit_join_rows teaching {} joins_freshmenByCourse (.filter _ (.table (.constant _)) rfl) (.constant _) rfl
      isShape_paired hst
  obtain rfl := Except.ok.inj (hsrc.symm.trans hsrc')
  obtain ⟨hfound, rows, lost, hrows', hperm, -, -⟩ := hterm term
  obtain rfl := Option.mem_unique hrows hrows'
  have hempty : query.select.found term = [] := map_eq_nil_iff.1 (Option.mem_unique hfound hnone)
  refine ⟨st, src, query, a, b, right, _, _, hst, hsrc, hquery, hright, hrows, ?_, hperm⟩
  have hlength := hperm.length_eq
  rw [hempty] at hlength
  exact hlength.symm

end Sample

end QueryLowering
