import QueryLowering.Proofs.Chains
import QueryLowering.Proofs.Lowered
import QueryLowering.Proofs.Traversals
import QueryLowering.Schema.Sample

/-!
# The rows of a chain

A compiled chain of operators over the table of an entity, with conditions, projections, limits, offsets
and the dropping of duplicates in any order, is read as what the operators make of the rows of the
table one after the other. The operators share selects wherever the clauses allow it, and the reading
shows that sharing them is never visible.

## Main results

* `Chain.simplify`: the passes make a chain of the same operators of a chain.
* `rows_of_chain`: the rows of a compiled chain.
-/

namespace QueryLowering

open Sql List

variable {e body : Expr} {f : Expr → Expr} {x entity : String} {σ τ : Shape} {schema : Schema} {ts : List Transform}

/-! ## What the passes make of chains -/

namespace Expr

/-- The operators whose calls a pass may replace. -/
def replaceable : List Operator := [.all, .contains, .selectMany]

/-- A function of nodes that changes no node but calls of replaceable operators. -/
def SparesOthers (f : Expr → Expr) : Prop := ∀ e, (∀ op ∈ Operator.ofCall? e, op ∉ replaceable) → f e = e

theorem children_withChildren_map (g : Expr → Expr) (e : Expr) :
    (e.withChildren (e.children.map g)).children = e.children.map g :=
  (children_and_shell_withChildren (length_map g)).1

theorem mapUp_eq_self (hf : f e = e) (hparts : ∀ c ∈ e.children, mapUp f c = c) : mapUp f e = e := by
  have hmap : e.children.map (mapUp f) = e.children := by
    rw [map_congr_left hparts, map_id']
  rw [mapUp_eq, hmap, withChildren_children, hf]

theorem SparesOthers.eq_of_ofCall? (hf : SparesOthers f) (he : Operator.ofCall? e = none) : f e = e :=
  hf e fun op hop => by simp [he] at hop

theorem SparesOthers.mapUp_eq (hf : SparesOthers f) (he : Operator.ofCall? e = none)
    (hparts : ∀ c ∈ e.children, mapUp f c = c) : mapUp f e = e := mapUp_eq_self (hf.eq_of_ofCall? he) hparts

theorem Admits.mapUp_eq (h : body.Admits x σ τ) (hf : SparesOthers f) : mapUp f body = body := by
  have hleaf : ∀ {e : Expr}, e.children = [] → Operator.ofCall? e = none → mapUp f e = e := fun hparts he =>
    hf.mapUp_eq he (hparts ▸ forall_mem_nil _)
  induction h with
  | parameter ty => exact hleaf rfl rfl
  | member ty _ _ _ ih => exact hf.mapUp_eq rfl (forall_mem_singleton.2 ih)
  | constant ty => exact hleaf rfl rfl
  | operation ty _ _ _ ihleft ihright =>
    exact hf.mapUp_eq rfl (forall_mem_cons.2 ⟨ihleft, forall_mem_singleton.2 ihright⟩)
  | nullTest ty nullTy _ _ ih =>
    exact hf.mapUp_eq rfl (forall_mem_cons.2 ⟨ih, forall_mem_singleton.2 (hleaf rfl rfl)⟩)
  | nullTestOf ty nullTy _ _ ih =>
    exact hf.mapUp_eq rfl (forall_mem_cons.2 ⟨hleaf rfl rfl, forall_mem_singleton.2 ih⟩)
  | not ty _ ih => exact hf.mapUp_eq rfl (forall_mem_singleton.2 ih)
  | negate ty _ ih => exact hf.mapUp_eq rfl (forall_mem_singleton.2 ih)
  | @construct members shapes ty hnames hdistinct hmembers ih =>
    refine hf.mapUp_eq rfl fun c hc => ?_
    obtain ⟨p, hp, rfl⟩ := mem_map.1 hc
    have hlength : members.length ≤ shapes.length := Nat.le_of_eq (by simpa using congrArg List.length hnames)
    rw [← map_fst_zip hlength] at hp
    obtain ⟨pair, hpair, rfl⟩ := mem_map.1 hp
    exact ih pair hpair

theorem mapUp_lambda {arg : Expr} {params : List Param} (harg : arg.asLambda? = some (params, body))
    (hbody : mapUp f body = body) (hf : SparesOthers f) : mapUp f arg = arg := by
  fun_induction asLambda? arg with
  | case1 params' body' =>
    obtain ⟨rfl, rfl⟩ := Prod.mk.inj (Option.some.inj harg)
    exact hf.mapUp_eq rfl (forall_mem_singleton.2 hbody)
  | case2 operand ty ih => exact hf.mapUp_eq rfl (forall_mem_singleton.2 (ih harg))
  | case3 => cases harg

theorem mapUp_constant (hf : SparesOthers f) (v : Value) (ty : Ty) : mapUp f (constant v ty) = constant v ty :=
  hf.mapUp_eq rfl (forall_mem_nil _)

theorem mapUp_call (hf : SparesOthers f) {method : Method} {args : List Expr} {ty : Ty} {op : Operator}
    (hmethod : Operator.ofMethod? method = some op) (hop : op ∉ replaceable := by decide) :
    mapUp f (call method none args ty) = call method none (args.map (mapUp f)) ty := by
  rw [Expr.mapUp_eq]
  refine hf _ fun op' hop' => ?_
  obtain rfl := Option.mem_unique hmethod hop'
  exact hop

theorem IsTable.mapUp (h : e.IsTable entity) (hf : SparesOthers f) : (mapUp f e).IsTable entity := by
  cases h with
  | constant ty =>
    rw [mapUp_constant hf]
    exact .constant ty
  | captured name ty =>
    rw [hf.mapUp_eq rfl (forall_mem_nil _)]
    exact .captured name ty
  | dataSet hmethod hentity =>
    rw [mapUp_call hf hmethod]
    exact .dataSet hmethod hentity

end Expr

/-- A function that spares other nodes makes a chain of the same operators of a chain. -/
theorem Chain.mapUp (h : Chain schema entity e ts σ) (hf : Expr.SparesOthers f) :
    Chain schema entity (e.mapUp f) ts σ := by
  induction h with
  | table he => exact .table (he.mapUp hf)
  | filter ty _ hmethod harg hbody ih =>
    rw [Expr.mapUp_call hf hmethod, map_cons, map_singleton,
      Expr.mapUp_lambda harg (hbody.mapUp_eq hf) hf]
    exact .filter ty ih hmethod harg hbody
  | select ty _ hmethod harg hbody ih =>
    rw [Expr.mapUp_call hf hmethod, map_cons, map_singleton,
      Expr.mapUp_lambda harg (hbody.mapUp_eq hf) hf]
    exact .select ty ih hmethod harg hbody
  | take ty countTy k _ hmethod ih =>
    rw [Expr.mapUp_call hf hmethod, map_cons, map_singleton, Expr.mapUp_constant hf]
    exact .take ty countTy k ih hmethod
  | skip ty countTy k _ hmethod ih =>
    rw [Expr.mapUp_call hf hmethod, map_cons, map_singleton, Expr.mapUp_constant hf]
    exact .skip ty countTy k ih hmethod
  | distinct ty _ hmethod ih =>
    rw [Expr.mapUp_call hf hmethod, map_singleton]
    exact .distinct ty ih hmethod

namespace Desugar

theorem sparesOthers_allNode : Expr.SparesOthers allNode := by
  intro e he
  unfold allNode
  split
  · next hop => exact absurd (by decide) (he .all hop)
  · rfl

theorem sparesOthers_containsNode : Expr.SparesOthers containsNode := by
  intro e he
  unfold containsNode
  split
  · next hop => exact absurd (by decide) (he .contains hop)
  · rfl

theorem sparesOthers_childJoinNode : Expr.SparesOthers childJoinNode := by
  intro e he
  have hnone : classify e = none := by
    unfold classify
    split
    · next hop => exact absurd (by decide) (he .selectMany hop)
    · rfl
  rw [childJoinNode, hnone]

end Desugar

/-- The passes make a chain of the same operators of a chain. -/
theorem Chain.simplify {options : Options} {e' : Expr} (h : Chain schema entity e ts σ)
    (he' : ({ schema, options } : Compiler).simplify e = .ok e') : Chain schema entity e' ts σ := by
  have hrun : ({ schema, options } : Compiler).simplify e =
      .ok (Desugar.childJoin (Desugar.contains (Desugar.all e))) := rfl
  obtain rfl := Except.ok.inj (hrun.symm.trans he')
  exact ((h.mapUp Desugar.sparesOthers_allNode).mapUp Desugar.sparesOthers_containsNode).mapUp
    Desugar.sparesOthers_childJoinNode

/-! ## The rows of a chain -/

/-- A statement without common table expressions stays as it is when they are hoisted. -/
theorem Gives.hoist_eq {d : Derived} {listing : Listing} (hd : Gives d listing) :
    Statement.hoist ⟨[], .query d⟩ = ⟨[], .query d⟩ := by
  have hchange : d.change withoutCtes = d := Relation.derived.inj hd.bare.1
  have hharvest : d.harvest declaredCtes = [] := hd.bare.2
  have hhoist : Statement.hoist ⟨[], .query d⟩ =
      ⟨(firstOfEach [] (d.harvest declaredCtes)).map Cte.bare, .query (d.change withoutCtes)⟩ := rfl
  rw [hhoist, hharvest, hchange]
  rfl

/-- **The rows of a chain.** The statement of a chain of operators over the table of an entity is read
as the rows that its operators, applied one after the other, make of the rows of the table: as many
rows in the same order, with the same value at each path.

**Proof sketch.** The passes leave the operators of the chain, and its value is a closed select that gives the
elements of the chain. It declares no common table expressions, so hoisting leaves it as it is. -/
theorem rows_of_chain (schema : Schema) (options : Options) {entity : String} {e : Expr}
    {ts : List Transform} {σ : Shape} {st : Statement} (h : Chain schema entity e ts σ)
    (hst : ({ schema, options } : Compiler).statement e = .ok st) (m : Scalars) (contents : Contents) :
    (st.read? m contents).map (·.map Cell.leaves) =
      some ((Transform.run m ts (Element.ofTable schema entity contents)).map (·.leaves [])) := by
  obtain ⟨e', b, he', hb, rfl⟩ := Compiler.statement_eq_ok hst
  have hchain : Chain schema entity e' ts σ := by
    split at he'
    · exact h.simplify he'
    · exact Except.ok.inj he' ▸ h
  obtain ⟨n, mid, cx, hn, hbody⟩ := Compiler.body_eq_ok hb
  obtain ⟨-, hvalue⟩ := hchain.lowersToChain hn rfl
  obtain ⟨d, rfl, hd⟩ := hvalue.statement hbody
  have hstatement : (if options.hoistCtes then Statement.hoist ⟨[], .query d⟩ else ⟨[], .query d⟩) =
      (⟨[], .query d⟩ : Statement) := by
    rw [hd.hoist_eq, ite_self]
  rw [hstatement]
  exact hd.rows m contents

namespace Sample

/-- An operator between whole numbers. -/
def onIntegers (f : Int → Int → Int) : Literal → Literal → Literal
  | .int a, .int b => .int (f a b)
  | _, _ => .null

/-- Whether a whole number comes before another one. -/
def precedes : Literal → Literal → Bool
  | .int a, .int b => decide (a < b)
  | _, _ => false

/-- A whole number with the other sign. -/
def negated : Literal → Literal
  | .int a => .int (-a)
  | _ => .null

/-- The arithmetic of whole numbers, with the equality of literals. -/
def integers : Scalars where
  same a b := a == b
  less := precedes
  plus := onIntegers (· + ·)
  minus := onIntegers (· - ·)
  times := onIntegers (· * ·)
  quotient := onIntegers (· / ·)
  remainder := onIntegers (· % ·)
  opposite := negated
  same_bool _ _ := rfl

/-- A schema of students only. -/
def studentSchema : Schema := ⟨[student.toEntity]⟩

/-- Whether a student is of age. -/
def isAdult (x : Expr) : Expr :=
  .binaryOf .greaterThanOrEqual (x.memberOf "Age" .int) (.constantOf (.int 18))

/-- A student with the course and the age of next year. -/
def placed (x : Expr) : Expr :=
  .construct .anonymous [("Who", x.memberOf "Name" .string),
    ("In", .construct .anonymous [("Course", x.memberOf "CourseId" .int),
      ("Next", .binaryOf .add (x.memberOf "Age" .int) (.constantOf (.int 1)))])]

/-- Whether a placed student has a course. -/
def isTaught (x : Expr) : Expr :=
  .binaryOf .notEqual ((x.memberOf "In" .anonymous).memberOf "Course" .int) (.constantOf .null)

/-- The courses that students of age are in, with their age of next year: the second condition is one
on a page, whose rows are objects in objects. -/
def nextCourses : Expr :=
  let page := ((((Query.ofEntity "Student").filter "x" isAdult).select "x" .anonymous placed).skip 1).take
    (.constantOf (.int 4))
  (((page.filter "x" isTaught).select "x" .anonymous fun x => x.memberOf "In" .anonymous).distinct.take
    (.constantOf (.int 2))).expr

/-- A row of the table of students. -/
def studentRow (name : String) (age : Int) (course : Literal) : String → Literal := fun column =>
  ([("FullName", .string name), ("Age", .int age), ("CourseId", course)].lookup column).getD .null

/-- Some students. -/
def students : Contents := fun _ =>
  [studentRow "Ada" 20 (.int 1), studentRow "Ben" 17 (.int 1), studentRow "Cleo" 19 (.int 2),
    studentRow "Dan" 30 .null, studentRow "Eve" 19 (.int 2), studentRow "Finn" 18 (.int 1),
    studentRow "Gil" 21 (.int 3)]

/-- The shape of placed students. -/
def placedShape : Shape := .record [("Who", .scalar), ("In", .record [("Course", .scalar), ("Next", .scalar)])]

theorem admits_isAdult (ty : Ty) (hty : ty.isRecord = true) :
    (isAdult (.parameter ⟨"x", ty⟩)).Admits "x" (.ofEntity studentSchema "Student") .scalar :=
  .operation _ rfl (.member _ (.parameter ty) hty rfl) (.constant _ rfl)

theorem admits_pair {υ : Shape} {k l : String} {a b : Expr} (ty : Ty) (hne : k ≠ l)
    (ha : a.Admits x σ τ) (hb : b.Admits x σ υ) :
    (Expr.construct ty [(k, a), (l, b)]).Admits x σ (.record [(k, τ), (l, υ)]) := by
  refine .construct ty rfl ?_ (forall_mem_cons.2 ⟨ha, forall_mem_singleton.2 hb⟩)
  exact nodup_cons.2 ⟨fun h => hne (mem_singleton.1 h), nodup_singleton l⟩

theorem admits_placed (ty : Ty) (hty : ty.isRecord = true) :
    (placed (.parameter ⟨"x", ty⟩)).Admits "x" (.ofEntity studentSchema "Student") placedShape :=
  admits_pair _ (by decide) (.member _ (.parameter ty) hty rfl)
    (admits_pair _ (by decide) (.member _ (.parameter ty) hty rfl)
      (.operation _ rfl (.member _ (.parameter ty) hty rfl) (.constant _ rfl)))

theorem admits_isTaught (ty : Ty) (hty : ty.isRecord = true) :
    (isTaught (.parameter ⟨"x", ty⟩)).Admits "x" placedShape .scalar :=
  .nullTest _ _ (.inr rfl) (.member _ (.member _ (.parameter ty) hty rfl) rfl rfl)

theorem exists_chain_nextCourses : ∃ ts σ, Chain studentSchema "Student" nextCourses ts σ ∧
    (Transform.run integers ts (Element.ofTable studentSchema "Student" students)).map (·.leaves []) =
      [[(["Course"], .int 2), (["Next"], .int 20)], [(["Course"], .int 1), (["Next"], .int 19)]] := by
  refine ⟨_, _, .take _ _ 2 (.distinct _ (.select _ (.filter _ (.take _ _ 4 (.skip _ _ 1 (.select _
    (.filter _ (.table (.constant _)) rfl rfl (admits_isAdult _ rfl)) rfl rfl (admits_placed _ rfl)) rfl) rfl)
    rfl rfl (admits_isTaught _ rfl)) rfl rfl (.member _ (.parameter _) rfl rfl)) rfl) rfl, ?_⟩
  rfl

/-- Of the students after the first one of age, the first two courses and ages are read. -/
theorem nextCourses_rows : ∃ st,
    ({ schema := studentSchema, options := {} } : Compiler).statement nextCourses = .ok st ∧
    (st.read? integers students).map (·.map Cell.leaves) =
      some [[(["Course"], .int 2), (["Next"], .int 20)], [(["Course"], .int 1), (["Next"], .int 19)]] := by
  obtain ⟨st, hst, -⟩ : ∃ st, ({ schema := studentSchema, options := {} } : Compiler).statement nextCourses = .ok st ∧
      True := Result.exists_ok (by decide +kernel)
  obtain ⟨ts, σ, hchain, hrows⟩ := exists_chain_nextCourses
  refine ⟨st, hst, ?_⟩
  rw [rows_of_chain _ _ hchain hst, hrows]

end Sample

end QueryLowering
