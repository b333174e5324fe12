import QueryLowering.Proofs.Composition

/-!
# Existence tests

Whether a query has rows is asked of its select with another value for each row, the number one. Duplicates
are dropped after that value is computed, so that a select without duplicates has one row at most. As long
as no row is skipped it has a row exactly if the query has one, and as soon as one is skipped it has none.

## Main results

* `Sql.Select.results_one_ne_nil_iff`: the rows of a select that shows the number one.
* `any_iff_results`: what an existence test over a chain of operators says.
-/

namespace QueryLowering

open Sql Lower

/-! ## Reading selects -/

/-- What the expressions of selects are for groups of rows. A row by itself is a group of one. -/
structure Sql.Evaluation where
  Row : Type
  Value : Type
  [decEq : DecidableEq Value]
  /-- The rows that data sources combine to. -/
  rows : List DataSource → List Cte → List Row
  value : List Row → Node → Value
  value_literal (g g' : List Row) (l : Literal) : value g (.literal l) = value g' (.literal l)
  holds : List Row → Node → Bool
  /-- The number of rows that a limit or an offset asks for. -/
  number : Node → Nat

namespace Sql.Select

variable (E : Evaluation)

instance : DecidableEq E.Value := E.decEq

/-- The groups of a select: the rows that its condition lets through, grouped by key, of which the condition on groups
lets some through. -/
def groups (s : Select) : List (List E.Row) :=
  let kept := (E.rows s.sources s.ctes).filter fun r => s.filter.all (E.holds [r])
  let grouped := match s.groupBy with
    | none => kept.map fun r => [r]
    | some key => (kept.map fun r => E.value [r] key).eraseDups.map fun k => kept.filter fun r => E.value [r] key = k
  grouped.filter fun g => s.having.all (E.holds g)

/-- How many rows a select leaves out. -/
def offset (s : Select) : Nat := (s.skip.map E.number).getD 0

/-- The output rows of a select that shows some values of each group. -/
def results (s : Select) (shown : List Node) : List (List E.Value) :=
  let found := (s.groups E).map fun g => shown.map (E.value g)
  page (s.skip.map E.number) (s.top.map E.number) (if s.distinct then found.eraseDups else found)

theorem results_withKeyProjection (s : Select) (shown : List Node) :
    s.withKeyProjection.results E shown = s.results E shown := by
  unfold withKeyProjection
  split <;> rfl

variable {E}

theorem page_ne_nil_iff {α : Type} {skip top : Option Nat} {l : List α} :
    page skip top l ≠ [] ↔ skip.getD 0 < l.length ∧ ∀ k ∈ top, 0 < k := by
  cases top <;> simp [page, and_comm, Nat.pos_iff_ne_zero]

theorem eraseDups_ne_nil_iff {α : Type} [BEq α] {l : List α} : l.eraseDups ≠ [] ↔ l ≠ [] := by
  cases l <;> simp [List.eraseDups_cons]

/-- A select that shows the number one has a row exactly if it has one whatever it shows, unless rows without
duplicates are skipped.

**Proof sketch.** All groups show the same row. So one row at most is left without duplicates, and it is there if some
group is. -/
theorem results_one_ne_nil_iff (s : Select) (shown : List Node) :
    s.results E [.literal (.int 1)] ≠ [] ↔ s.results E shown ≠ [] ∧ ¬ (s.distinct = true ∧ 0 < s.offset E) := by
  have hone : ∀ g ∈ s.groups E, [E.value g (.literal (.int 1))] = [E.value [] (.literal (.int 1))] := fun g _ => by
    rw [E.value_literal g []]
  simp only [results, page_ne_nil_iff, offset, List.map_cons, List.map_nil, List.map_congr_left hone]
  cases s.distinct with
  | false => simp
  | true =>
    have hlength : ((s.groups E).map fun _ => [E.value [] (.literal (.int 1))]).eraseDups.length =
        min 1 (s.groups E).length := by
      cases s.groups E <;> simp [List.eraseDups_cons]
    have hshown := eraseDups_ne_nil_iff (l := (s.groups E).map fun g => shown.map (E.value g))
    rw [← List.length_pos_iff, ← List.length_pos_iff, List.length_map] at hshown
    simp only [↓reduceIte, hlength, true_and]
    rw [and_right_comm]
    refine and_congr_left fun _ => ?_
    omega

end Sql.Select

/-- The output rows of a closed select. -/
def Sql.Derived.results (E : Evaluation) (d : Derived) : List (List E.Value) :=
  d.select.results E (d.columns.map (·.expr))

/-! ## Existence tests over chains -/

variable {schema : Schema} {cx cx' opened : Context} {s : Select} {q : Expr} {ops : List Operator} {n : Node}

/-- A chain by itself is the closed form of the select that an operator goes on with. -/
theorem Expr.Composed.select_of_closed (hq : q.Composed ops) (hs : Yields schema (selectOf q none) .empty s opened)
    {d : Derived} (hd : Yields schema (q.lower Recognizer.standard >>= closeQuery) .empty (.derived d) cx') :
    d.select = s.withKeyProjection := by
  obtain ⟨m, before, hvisit, hopen⟩ := yields_selectOf hs
  obtain ⟨m', mid, hlower, hclose⟩ := yields_bind.1 hd
  cases hq with
  | table he =>
    obtain ⟨rfl, entry, hentry, rfl⟩ := he.yields hvisit
    obtain ⟨rfl, entry', hentry', rfl⟩ := he.yields hlower
    obtain rfl := Option.mem_unique hentry hentry'
    simp only [closeQuery, selectFrom, closeSelect, yields_bind, yields_update, yields_attempt, yields_pure] at hclose
    obtain ⟨_, _, ⟨rfl, rfl⟩, _, _, ⟨sc, hclosed, rfl⟩, hderived, -⟩ := hclose
    obtain rfl := Node.derived.inj hderived
    rw [openQuery, selectFrom] at hopen
    obtain ⟨rfl, -⟩ := yields_update.1 hopen
    exact Select.select_of_close hclosed
  | call ty hsource hmethod hop =>
    obtain ⟨r, hrule, rfl | ⟨st, -, hst, rfl⟩⟩ := rule_composing hmethod hop
    · exact absurd hlower (not_yields_groupAggregate hrule rfl fun _ _ _ hm => hsource.not_grouping hm)
    · obtain ⟨s', d', mid', hselect, rfl, hd'⟩ := exists_closed_of_yields hrule hst hlower
      obtain ⟨rfl, -⟩ := hvisit.unique hselect
      obtain rfl := eq_of_yields_openQuery hopen
      obtain ⟨hderived, -⟩ := yields_pure.1 hclose
      exact Node.derived.inj hderived ▸ hd'

/-- An existence test asks whether the select of its query has rows if it shows the number one. -/
theorem yields_existence (hy : Yields schema (existence s) cx n cx') :
    ∃ d, n = .existence d ∧ ∀ E, d.results E = s.results E [.literal (.int 1)] := by
  simp only [existence, closeSelect, yields_bind, yields_attempt, yields_pure] at hy
  obtain ⟨d, _, ⟨sc, hd, rfl⟩, rfl, -⟩ := hy
  simp only [Select.close, Select.withKeyProjection, Select.currentShape, Option.isNone_some, Bool.false_eq_true,
    ↓reduceIte, Scope.flatten, Result.bind_eq_ok, Result.pure_eq_ok, Prod.mk.injEq] at hd
  obtain ⟨_, rfl, rfl, -⟩ := hd
  exact ⟨_, rfl, fun E => rfl⟩

/-- **Existence tests.** A test whether a chain of operators over a table has rows is true exactly if the chain has
rows, whatever it shows of them, unless the chain ends with skipping rows without duplicates: then it is false as soon
as one row is skipped. What the chain is by itself has the rows of the same select. -/
theorem any_iff_results (hq : q.Composed ops) {method : Method} (hmethod : Operator.ofMethod? method = some .any)
    {ty : Ty} (hy : Yields schema ((Expr.call method none [q] ty).lower Recognizer.standard) .empty n cx') :
    ∃ (s : Select) (opened : Context) (d : Derived), Yields schema (selectOf q none) .empty s opened ∧
      n = .existence d ∧
      (∀ d' last, Yields schema (q.lower Recognizer.standard >>= closeQuery) .empty (.derived d') last →
        ∀ E, d'.results E = s.results E (d'.columns.map (·.expr))) ∧
      ∀ E shown, d.results E ≠ [] ↔ s.results E shown ≠ [] ∧
        ¬ ((Paging.ofChain ops).distinct = true ∧ (Paging.ofChain ops).skip = true ∧ 0 < s.offset E) := by
  have hrule : Recognizer.standard.findSome? (·.rule? (.call method none [q] ty)) =
      some (.step (.quantify false false)) := rule_ungrouped hmethod rfl
  rw [Expr.lower, visit_eq_of_not_producesQuery hrule rfl] at hy
  obtain ⟨s, opened, ready, sc, after, hs, hprepare, hfinish, -⟩ := (yields_wholeQuery_iff hrule rfl).1 hy
  obtain ⟨rfl, rfl⟩ := Prod.mk.inj (Except.ok.inj hprepare)
  obtain ⟨d, rfl, hd⟩ := yields_existence hfinish
  refine ⟨s, opened, d, hs, rfl, fun d' last hd' E => ?_, fun E shown => ?_⟩
  · rw [Derived.results, hq.select_of_closed hs hd', Select.results_withKeyProjection]
  · obtain ⟨m, mid, hm, hopen⟩ := yields_selectOf hs
    have hpaging := (hq.built ⟨[], rfl⟩ hm hopen).paging_eq
    rw [hd, Select.results_one_ne_nil_iff s shown, ← hpaging]
    refine and_congr_right fun _ => not_congr (and_congr_right fun _ => ?_)
    cases hskip : s.skip <;> simp [Select.paging, Select.offset, hskip]

namespace Sample

/-- The ages of students, each once, but for the first one. -/
def otherAges : Expr := (((Query.ofEntity "Student").select "x" .int (·.memberOf "Age" .int)).distinct.skip 1).expr

/-- Whether there are students of different ages. -/
def agesDiffer : Expr := .call ⟨"Queryable", "Any", []⟩ none [otherAges] .bool

/-- Two students of different ages, of whom nothing but their ages is known. -/
def twoAges : Evaluation where
  Row := Int
  Value := Option Int
  rows _ _ := [20, 17]
  value
    | _, .literal (.int k) => some k
    | g, .column _ _ => g.head?
    | _, _ => none
  value_literal _ _ l := by cases l <;> rfl
  holds _ _ := true
  number
    | .literal (.int k) => k.toNat
    | _ => 0

theorem composed_otherAges : otherAges.Composed [.skip, .distinct, .select] :=
  .call _ (.call _ (.call _ (.table (.constant _)) rfl (by decide)) rfl (by decide)) rfl (by decide)

/-- What a query returns for two ages. -/
def returned : Node → List (List (Option Int))
  | .derived d => d.results twoAges
  | _ => []

/-- There are two ages, but the test whether they differ is false. -/
theorem agesDiffer_false : ∃ d d' cx' last,
    Yields studentSchema (agesDiffer.lower Recognizer.standard) .empty (.existence d) cx' ∧
    Yields studentSchema (otherAges.lower Recognizer.standard >>= closeQuery) .empty (.derived d') last ∧
    d.results twoAges = [] ∧ d'.results twoAges = [[some 17]] := by
  obtain ⟨n, cx', hn, -⟩ : ∃ n cx', Yields studentSchema (agesDiffer.lower Recognizer.standard) .empty n cx' ∧ True :=
    exists_yields (by decide +kernel)
  obtain ⟨m, last, hm, hself⟩ : ∃ m last, Yields studentSchema (otherAges.lower Recognizer.standard >>= closeQuery) .empty
      m last ∧ returned m = [[some 17]] := exists_yields (by decide +kernel)
  obtain ⟨s, opened, hs, hskipped⟩ : ∃ s opened, Yields studentSchema (selectOf otherAges none) .empty s opened ∧
      s.offset twoAges = 1 := exists_yields (by decide +kernel)
  obtain ⟨s', opened', d, hs', rfl, -, hiff⟩ := any_iff_results composed_otherAges rfl hn
  obtain ⟨rfl, -⟩ := hs.unique hs'
  cases m with
  | derived d' =>
    refine ⟨d, d', cx', last, hn, hm, ?_, hself⟩
    by_contra hrows
    exact ((hiff twoAges []).1 hrows).2 ⟨rfl, rfl, hskipped ▸ Nat.one_pos⟩
  | _ => cases hself

end Sample

end QueryLowering
