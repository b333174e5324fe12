import QueryLowering.Proofs.Reading
import QueryLowering.Proofs.Writer

/-!
# The rows that modifications modify

An update or a deletion finds the rows that it modifies with a select. One dialect writes the data sources
of the select as a chain of joins behind the modified alias, the other one writes the table in front and lists
the other data sources, with all conditions of joins in the condition on rows. This file says what the written
clauses mean, which combinations of rows they let through, and shows that both dialects let the same ones
through.

What a single condition means is left open. It is a truth value that may be unknown, and it hangs on the rows
of the data sources that the condition mentions.

## Main results

* `modified_rows_agree`: both dialects modify the same rows, and the dialect without joins refuses all other
  kinds of joins and targets.
-/

namespace QueryLowering

open Sql Result List

variable {cs : List Node} {clauses texts : List Fragment} {x : DataSource} {a target : Alias}
variable {before sources : List DataSource} {separator statement : String} {n c : Node} {text f : Fragment}
variable {split split' : SplitTarget} {b : Body} {s : Statement} {rows rows' : Alias → Option (String → Int)}

/-! ## Conditions -/

/-- What conditions mean: their truth, which may be unknown, for the rows that the aliases in scope stand for. -/
structure Conditions (Row : Type) where
  truth : Node → (Alias → Option Row) → Option Bool
  /-- The truth of a condition hangs on the aliases that it mentions. -/
  truth_congr : ∀ {c : Node} {rows rows' : Alias → Option Row},
    (∀ a, Mark.mention a ∈ c.harvest marks → rows a = rows' a) → truth c rows = truth c rows'

/-- The rows of a combination that belong to data sources of given aliases. -/
def visible {Row : Type} (names : List Alias) (rows : Alias → Row) : Alias → Option Row :=
  fun a => if a ∈ names then some (rows a) else none

/-- How strongly a condition holds together when it is written: connectives less than all other conditions. -/
def Sql.Node.conditionLevel : Node → Precedence
  | .binary .or _ _ => .or
  | .binary .and _ _ => .and
  | .unary .not _ => .not
  | _ => .comparison

section

variable {Row : Type} (k : Conditions Row) (contents : Alias → Row → Prop) (d : Dialect)

/-- What a text means as a condition, with how strongly it holds together. The operands of a conjunction hold
together no less than the conjunction. -/
inductive Means : Precedence → Fragment → ((Alias → Option Row) → Option Bool) → Prop
  | single {c : Node} {text : Fragment} : (c.form d).asCondition d = .ok text → Means c.conditionLevel text (k.truth c)
  | always : Means .comparison d.alwaysTrue fun _ => some true
  | parens {p : Precedence} {text : Fragment} {t : (Alias → Option Row) → Option Bool} : Means p text t →
      Means .atom text.parens t
  | both {p q : Precedence} {left right : Fragment} {t u : (Alias → Option Row) → Option Bool} :
      Means p left t → Means q right u → Precedence.and.rank ≤ p.rank → Precedence.and.rank ≤ q.rank →
      Means .and (left ++ " AND " ++ right) fun rows => conjoin (t rows) (u rows)

/-! ## Clauses -/

/-- A relation with the alias that it is read under. -/
def aliased (relation : Fragment) (a : Alias) : Fragment := relation ++ (" AS " ++ a.text)

/-- Clauses that join data sources, and the combinations of their rows that are let through. The condition of
a join is tested on the rows of the data sources up to its own. -/
inductive Joined : List DataSource → List Fragment → ((Alias → Row) → Prop) → Prop
  | first {x : DataSource} {relation : Fragment} : x.relation.text d = .ok relation →
      Joined [x] ["FROM " ++ aliased relation x.name] fun rows => contents x.name (rows x.name)
  | inner {before : List DataSource} {clauses : List Fragment} {A : (Alias → Row) → Prop} {x : DataSource}
      {relation on : Fragment} {p : Precedence} {t : (Alias → Option Row) → Option Bool} :
      Joined before clauses A → x.relation.text d = .ok relation → Means k d p on t →
      Joined (before ++ [x]) (clauses ++ ["INNER JOIN" ++ " " ++ aliased relation x.name ++ " ON " ++ on])
        fun rows => A rows ∧ contents x.name (rows x.name) ∧ t (visible ((before ++ [x]).map (·.name)) rows) = some true
  | cross {before : List DataSource} {clauses : List Fragment} {A : (Alias → Row) → Prop} {x : DataSource}
      {relation : Fragment} : Joined before clauses A → x.relation.text d = .ok relation →
      Joined (before ++ [x]) (clauses ++ ["CROSS JOIN" ++ " " ++ aliased relation x.name])
        fun rows => A rows ∧ contents x.name (rows x.name)

/-- A condition on rows, if there is one, and what it lets through. -/
inductive Filtered : List Fragment → ((Alias → Option Row) → Prop) → Prop
  | all : Filtered [] fun _ => True
  | only {p : Precedence} {text : Fragment} {t : (Alias → Option Row) → Option Bool} : Means k d p text t →
      Filtered ["WHERE " ++ text] fun rows => t rows = some true

/-! ## Modifications -/

/-- The words of a modification: those in front of an alias that is joined, in front of a table, and in front
of the other data sources. -/
structure Verb where
  joined : String
  plain : String
  also : String

namespace Sql

/-- The words of a modification and the alias of the data source that it modifies. -/
def Body.modification? : Body → Option (Verb × Alias)
  | .query _ => none
  | .update u => some (⟨"UPDATE ", "UPDATE ", "FROM "⟩, u.target)
  | .delete q => some (⟨"DELETE ", "DELETE FROM ", "USING "⟩, q.target)

/-- The assignments of an update. -/
def Body.setting : Body → Result (List Fragment)
  | .update u => do return [← assignmentList d u.assignments]
  | .query _ | .delete _ => pure []

/-- A modification written with a chain of joins, and the combinations of rows that it lets through. -/
inductive Statement.ModifiesJoined (s : Statement) : Fragment → ((Alias → Row) → Prop) → Prop
  | mk {verb : Verb} {target : Alias} {f : Fragment} {outer inner setting clauses filter : List Fragment}
      {A : (Alias → Row) → Prop} {T : (Alias → Option Row) → Prop} :
      s.body.modification? = some (verb, target) → CteForm.clause d (cteForms d s.ctes) = .ok outer →
      CteForm.clause d (cteForms d s.body.block.select.ctes) = .ok inner → s.body.setting d = .ok setting →
      Joined k contents d s.body.block.select.sources clauses A → Filtered k d filter T →
      f.tokens = (Fragment.join " " (outer ++ inner ++ [.raw (verb.joined ++ target.text)] ++ setting ++ clauses
        ++ filter)).tokens →
      s.ModifiesJoined f fun rows => A rows ∧ T (visible s.body.block.aliases rows)

/-- A modification written with the modified table in front and a list of the other data sources, and the
combinations of rows that it lets through. -/
inductive Statement.ModifiesListed (s : Statement) : Fragment → ((Alias → Row) → Prop) → Prop
  | mk {verb : Verb} {target : Alias} {table : TableName} {f : Fragment} {outer inner setting filter : List Fragment}
      {others : List (DataSource × Fragment)} {T : (Alias → Option Row) → Prop} :
      s.body.modification? = some (verb, target) → CteForm.clause d (cteForms d s.ctes) = .ok outer →
      CteForm.clause d (cteForms d s.body.block.select.ctes) = .ok inner → s.body.setting d = .ok setting →
      (∃ x ∈ s.body.block.select.sources, x.name = target ∧ x.relation.tableName? = some table) →
      others.map (·.1) = s.body.block.select.sources.filter (·.name ≠ target) →
      (∀ o ∈ others, o.1.relation.text d = .ok o.2) → Filtered k d filter T →
      f.tokens = (Fragment.join " " (outer ++ inner ++ [verb.plain ++ aliased table.text target] ++ setting
        ++ (if others = [] then [] else [verb.also ++ Fragment.join ", " (others.map fun o => aliased o.2 o.1.name)])
        ++ filter)).tokens →
      s.ModifiesListed f fun rows => contents target (rows target) ∧
        (∀ o ∈ others, contents o.1.name (rows o.1.name)) ∧ T (visible (target :: others.map (·.1.name)) rows)

/-- A data source is joined by an inner join, or by a cross join without a condition. -/
def DataSource.JoinsPlainly (x : DataSource) : Prop :=
  ∃ j ∈ x.join, j.kind = .inner ∨ j.kind = .cross ∧ j.condition = none

/-- A modification of a table among data sources of which the first is not joined and the others are joined
plainly. The condition of a join mentions no data source behind it. -/
structure Body.ModifiesPlainly (b : Body) (target : Alias) : Prop where
  present : target ∈ b.block.aliases
  table : ∀ x ∈ b.block.select.sources, x.name = target → ∃ t, x.relation = .table t
  joins : ∃ x rest, b.block.select.sources = x :: rest ∧ x.join = none ∧ ∀ y ∈ rest, y.JoinsPlainly
  backward : b.block.ReadsBackward

/-- Every part of a modification can be written. -/
structure Statement.Writable (s : Statement) : Prop where
  outer : ∃ cs, CteForm.clause d (cteForms d s.ctes) = .ok cs
  inner : ∃ cs, CteForm.clause d (cteForms d s.body.block.select.ctes) = .ok cs
  setting : ∃ cs, s.body.setting d = .ok cs
  relations : ∀ x ∈ s.body.block.select.sources, ∃ f, x.relation.text d = .ok f
  conditions : ∀ x ∈ s.body.block.select.sources, ∀ c ∈ x.condition?, ∃ f, (c.form d).asCondition d = .ok f
  filter : ∀ c ∈ s.body.block.select.filter, ∃ f, (c.form d).asCondition d = .ok f

end Sql

/-! ## The meaning of written conditions -/

variable {k contents d}

theorem Sql.Node.conditionLevel_form (c : Node) : (c.form d).conditionLevel = c.conditionLevel := by
  cases c with
  | binary op => cases op <;> rfl
  | unary op => cases op <;> rfl
  | literal l => cases l <;> rfl
  | inValues e vs negated =>
    rw [Node.form, Form.membership]
    split <;> rfl
  | function name args =>
    rw [Node.form]
    unfold Form.function
    split <;> rfl
  | _ => rfl

/-- The operand of a conjunction means its condition, and it holds together. -/
theorem exists_means_operand (h : (c.form d).conditionOperand d .and = .ok text) :
    ∃ p, Means k d p text (k.truth c) ∧ Precedence.and.rank ≤ p.rank := by
  simp only [Form.conditionOperand, bind_eq_ok, pure_eq_ok] at h
  obtain ⟨whole, hwhole, rfl⟩ := h
  have hmeans : Means k d c.conditionLevel whole (k.truth c) := .single hwhole
  rw [c.conditionLevel_form]
  split
  · exact ⟨.atom, .parens hmeans, by decide⟩
  · next hlevel => exact ⟨_, hmeans, not_lt.1 hlevel⟩

/-- Conditions with their texts as operands of a conjunction. -/
abbrev Conjuncts (d : Dialect) : List Node → List Fragment → Prop :=
  List.Forall₂ fun c text => (c.form d).conditionOperand d .and = .ok text

/-- Operands with conjunctions between them are true exactly if all their conditions are.

**Proof sketch.** Induction over the operands. What follows the first operand holds together like it, so that
no parentheses are needed around it. -/
theorem exists_means_join (hne : cs ≠ []) (h : Conjuncts d cs texts) :
    ∃ p t, Means k d p (Fragment.join " AND " texts) t ∧ Precedence.and.rank ≤ p.rank ∧
      ∀ rows, t rows = some true ↔ ∀ c ∈ cs, k.truth c rows = some true := by
  induction h with
  | nil => exact absurd rfl hne
  | @cons c text cs texts hc hcs ih =>
    obtain ⟨p, hmeans, hp⟩ := exists_means_operand (k := k) hc
    cases hcs with
    | nil => exact ⟨p, _, hmeans, hp, fun rows => by simp⟩
    | @cons c' text' cs texts hc' hcs =>
      obtain ⟨q, t, hrest, hq, ht⟩ := ih (cons_ne_nil _ _)
      refine ⟨.and, _, .both hmeans hrest hp hq, le_refl _, fun rows => ?_⟩
      simp [conjoin_eq_true, ht]

/-- The rows that a condition mentions are visible up to the data source that it belongs to. -/
theorem truth_visible {names all : List Alias} (rows : Alias → Row) (hsub : names ⊆ all)
    (hback : ∀ a ∈ all, Mark.mention a ∈ c.harvest marks → a ∈ names) :
    k.truth c (visible names rows) = k.truth c (visible all rows) := by
  refine k.truth_congr fun a ha => ?_
  have hiff : a ∈ names ↔ a ∈ all := ⟨fun h => hsub h, fun h => hback a h ha⟩
  simp only [visible, hiff]

/-! ## Chains of joins -/

/-- The written parts of a data source. -/
def Sql.DataSource.form (d : Dialect) (x : DataSource) : SourceForm :=
  ⟨x.name, x.relation.tableName?, x.relation.text d, joinForm d x.join⟩

open DataSource (form)

open Fragment (join)

theorem sourceForms_eq_map (sources : List DataSource) : sourceForms d sources = sources.map (form d) := by
  induction sources with
  | nil => rfl
  | cons x rest ih =>
    cases x
    rw [sourceForms, ih]
    rfl

theorem sources_form (s : Select) : (s.form d).sources = s.sources.map (form d) := by
  rw [← sourceForms_eq_map]
  cases s
  rfl

theorem ctes_form (s : Select) : (s.form d).ctes = cteForms d s.ctes := by
  cases s
  rfl

theorem filter_form (s : Select) : (s.form d).filter = s.filter.map (Node.form d) := by
  cases s with
  | mk sources projection filter =>
    cases filter <;> rfl

theorem Sql.DataSource.mentions_of_condition (hc : c ∈ x.condition?)
    (ha : Mark.mention a ∈ c.harvest marks) : x.Mentions a := by
  obtain ⟨⟨kind, condition⟩, hj, rfl⟩ := Option.bind_eq_some_iff.1 hc
  rwa [DataSource.Mentions, hj]

/-- One more data source in a chain of joins. -/
theorem Joined.exists_snoc {A : (Alias → Row) → Prop} (h : Joined k contents d before clauses A) (hx : x.JoinsPlainly)
    (htext : (x.form d).text d = .ok text) : ∃ A', Joined k contents d (before ++ [x]) (clauses ++ [text]) A' ∧
      ∀ rows, A' rows ↔ A rows ∧ contents x.name (rows x.name) ∧
        ∀ c ∈ x.condition?, k.truth c (visible ((before ++ [x]).map (·.name)) rows) = some true := by
  obtain ⟨⟨kind, condition⟩, hjoin, hplain⟩ := hx
  rw [Option.mem_def] at hjoin
  simp only [SourceForm.text, SourceForm.named, form, hjoin, joinForm, bind_eq_ok, pure_eq_ok] at htext
  obtain ⟨_, ⟨relation, hrelation, rfl⟩, htext⟩ := htext
  simp only [DataSource.condition?, hjoin, Option.bind_some]
  rcases hplain with hkind | ⟨hkind, hnone⟩
  · simp only at hkind
    subst hkind
    cases condition with
    | none =>
      simp only [optionForm, SourceForm.joinText, Dialect.joinKeyword, pure_eq_ok] at htext
      subst htext
      have hjoined := h.inner (x := x) hrelation .always
      rw [Fragment.append_assoc] at hjoined
      exact ⟨_, hjoined, fun rows => by simp⟩
    | some c =>
      simp only [optionForm, SourceForm.joinText, Dialect.joinKeyword, bind_eq_ok, pure_eq_ok] at htext
      obtain ⟨on, hon, rfl⟩ := htext
      exact ⟨_, h.inner hrelation (.single hon), fun rows => by simp⟩
  · simp only at hkind hnone
    subst hkind hnone
    simp only [optionForm, SourceForm.joinText, Dialect.joinKeyword, pure_eq_ok] at htext
    subst htext
    exact ⟨_, h.cross hrelation, fun rows => by simp⟩

/-- Further data sources in a chain of joins. If the condition of each mentions no data source behind it, the
conditions can as well be tested on the rows of all data sources.

**Proof sketch.** Induction over the further data sources; each one moves to the front of the chain. -/
theorem Joined.exists_append {rest : List DataSource}
    {A : (Alias → Row) → Prop} (h : Joined k contents d before clauses A) (hrest : ∀ x ∈ rest, x.JoinsPlainly)
    (htexts : List.Forall₂ (fun x text => (form d x).text d = .ok text) rest texts)
    (hback : ∀ (i : Nat) (x : DataSource), rest[i]? = some x → ∀ a ∈ (before ++ rest).map (·.name), x.Mentions a →
      a ∈ (before ++ rest.take (i + 1)).map (·.name)) :
    ∃ A', Joined k contents d (before ++ rest) (clauses ++ texts) A' ∧
      ∀ rows, A' rows ↔ A rows ∧ ∀ x ∈ rest, contents x.name (rows x.name) ∧
        ∀ c ∈ x.condition?, k.truth c (visible ((before ++ rest).map (·.name)) rows) = some true := by
  induction htexts generalizing before clauses A with
  | nil =>
    refine ⟨A, ?_, fun rows => by simp⟩
    simpa using h
  | @cons x text rest texts hx htexts ih =>
    rw [forall_mem_cons] at hrest
    have hassoc : before ++ x :: rest = before ++ [x] ++ rest := by simp
    rw [hassoc] at hback ⊢
    obtain ⟨A₁, hA₁, hiff₁⟩ := h.exists_snoc hrest.1 hx
    obtain ⟨A₂, hA₂, hiff₂⟩ := ih hA₁ hrest.2 fun i y hy a ha hmention => by
      simpa using hback (i + 1) y hy a ha hmention
    refine ⟨A₂, by simpa using hA₂, fun rows => ?_⟩
    have htruth : ∀ c ∈ x.condition?, k.truth c (visible ((before ++ [x]).map (·.name)) rows) =
        k.truth c (visible ((before ++ [x] ++ rest).map (·.name)) rows) := by
      intro c hc
      refine truth_visible rows (by simp) fun a ha hmention => ?_
      simpa using hback 0 x rfl a ha (DataSource.mentions_of_condition hc hmention)
    rw [hiff₂, hiff₁, forall_mem_cons, and_assoc]
    refine and_congr_right fun _ => and_congr_left fun _ => and_congr_right fun _ => ?_
    exact forall₂_congr fun c hc => by rw [htruth c hc]

/-! ## Taking joins apart -/

/-- A data source is not joined, or by a join that can be taken apart, and the modified one is a table. -/
structure Sql.DataSource.SplitsFrom (target : Alias) (x : DataSource) : Prop where
  join : ∀ j ∈ x.join, j.kind = .inner ∨ j.kind = .cross
  table : x.name = target → ∃ t, x.relation = .table t

theorem Sql.Relation.eq_table {r : Relation} {name : TableName} (h : r.tableName? = some name) : ∃ t, r = .table t := by
  cases r with
  | table t => exact ⟨t, rfl⟩
  | derived | union | cte => cases h

namespace SplitTarget

theorem joinCondition_eq_ok {cs : List Fragment} : joinCondition d statement (x.form d) = .ok cs ↔
    (∀ j ∈ x.join, j.kind = .inner ∨ j.kind = .cross) ∧ Conjuncts d x.condition?.toList cs := by
  rw [DataSource.condition?, joinCondition, form]
  cases x.join with
  | none => simp [joinForm, eq_comm (a := ([] : List Fragment))]
  | some j =>
    obtain ⟨kind, condition⟩ := j
    by_cases hkind : kind = .inner ∨ kind = .cross
    · have hpass : ¬ (kind ≠ .inner ∧ kind ≠ .cross) := by tauto
      cases condition with
      | none => simp [joinForm, optionForm, hkind, hpass, eq_comm (a := ([] : List Fragment))]
      | some c =>
        simp [joinForm, optionForm, hkind, hpass, forall₂_cons_left_iff, eq_comm (a := cs), -bind_pure_comp]
    · have hstop : kind ≠ .inner ∧ kind ≠ .cross := not_or.1 hkind
      simp [joinForm, hstop]

/-- One data source of a modification that is taken apart. -/
theorem add_eq_ok : add d statement target split (x.form d) = .ok split' ↔
    ∃ cs, joinCondition d statement (x.form d) = .ok cs ∧
      (x.name = target ∧ (∃ t, x.relation.tableName? = some t ∧ split' = ⟨some (aliased t.text x.name), split.others,
        split.conditions ++ cs, split.met ++ cs⟩) ∨
      x.name ≠ target ∧ ∃ r, x.relation.text d = .ok r ∧ split' = ⟨split.target, split.others ++ [aliased r x.name],
        split.conditions ++ cs, split.met ++ cs ++ [aliased r x.name]⟩) := by
  rw [add, bind_eq_ok]
  refine exists_congr fun cs => and_congr_right fun _ => ?_
  by_cases hname : x.name = target
  · simp only [form, hname, if_true, true_and, ne_eq, not_true, false_and, or_false]
    cases x.relation.tableName? with
    | none => simp
    | some t => simp [aliased, eq_comm (a := split')]
  · simp [form, hname, SourceForm.named, aliased, eq_comm (a := split'), -bind_pure_comp]

/-- What is left of the data sources of a modification when they are taken apart: their conditions, those of other
aliases, and the table of the modified one.

**Proof sketch.** Induction over the data sources, each of which adds its own parts. -/
theorem parts_of_foldlM (h : (sources.map (form d)).foldlM (add d statement target) split = .ok split') :
    (∀ x ∈ sources, x.SplitsFrom target) ∧
    (∃ cs, Conjuncts d (sources.flatMap (·.condition?.toList)) cs ∧ split'.conditions = split.conditions ++ cs) ∧
    (∃ others : List (DataSource × Fragment), others.map (·.1) = sources.filter (·.name ≠ target) ∧
      (∀ o ∈ others, o.1.relation.text d = .ok o.2) ∧
      split'.others = split.others ++ others.map fun o => aliased o.2 o.1.name) ∧
    (target ∉ sources.map (·.name) ∧ split'.target = split.target ∨
      ∃ x ∈ sources, x.name = target ∧ ∃ t, x.relation.tableName? = some t ∧
        split'.target = some (aliased t.text target)) := by
  induction sources generalizing split with
  | nil =>
    simp only [map_nil, foldlM_nil, pure_eq_ok] at h
    subst h
    exact ⟨by simp, ⟨[], .nil, by simp⟩, ⟨[], rfl, by simp, by simp⟩, .inl ⟨by simp, rfl⟩⟩
  | cons x rest ih =>
    simp only [map_cons, foldlM_cons, bind_eq_ok, add_eq_ok, joinCondition_eq_ok] at h
    obtain ⟨next, ⟨cs, ⟨hjoin, hcs⟩, hname⟩, hrest⟩ := h
    obtain ⟨hsplits, ⟨cs', hcs', hconditions⟩, ⟨others, hnames, hothers, hsplit⟩, htarget⟩ := ih hrest
    have hall : Conjuncts d ((x :: rest).flatMap (·.condition?.toList)) (cs ++ cs') := by
      rw [flatMap_cons]
      exact rel_append hcs hcs'
    rcases hname with ⟨rfl, t, ht, rfl⟩ | ⟨hne, r, hr, rfl⟩
    · refine ⟨forall_mem_cons.2 ⟨⟨hjoin, fun _ => Relation.eq_table ht⟩, hsplits⟩,
        ⟨cs ++ cs', hall, by simp [hconditions]⟩, ⟨others, by simpa using hnames, hothers, by simp [hsplit]⟩, .inr ?_⟩
      rcases htarget with ⟨-, h⟩ | ⟨y, hy, h⟩
      · exact ⟨x, mem_cons_self, rfl, t, ht, h⟩
      · exact ⟨y, mem_cons_of_mem _ hy, h⟩
    · refine ⟨forall_mem_cons.2 ⟨⟨hjoin, fun h => absurd h hne⟩, hsplits⟩,
        ⟨cs ++ cs', hall, by simp [hconditions]⟩, ⟨(x, r) :: others, ?_, ?_, by simp [hsplit]⟩, ?_⟩
      · simpa [hne] using hnames
      · exact forall_mem_cons.2 ⟨hr, hothers⟩
      · refine htarget.imp (fun h => ⟨by simpa [Ne.symm hne] using h.1, h.2⟩) ?_
        rintro ⟨y, hy, h⟩
        exact ⟨y, mem_cons_of_mem _ hy, h⟩

/-- Data sources can be taken apart if their parts can be written. -/
theorem exists_foldlM (hsplits : ∀ x ∈ sources, x.SplitsFrom target)
    (hrelations : ∀ x ∈ sources, ∃ r, x.relation.text d = .ok r)
    (hconditions : ∀ x ∈ sources, ∀ c ∈ x.condition?, ∃ text, (c.form d).conditionOperand d .and = .ok text) :
    ∃ split', (sources.map (form d)).foldlM (add d statement target) split = .ok split' := by
  induction sources generalizing split with
  | nil => exact ⟨split, rfl⟩
  | cons x rest ih =>
    rw [forall_mem_cons] at hsplits hrelations hconditions
    obtain ⟨cs, hcs⟩ : ∃ cs, joinCondition d statement (x.form d) = .ok cs := by
      rw [exists_congr fun _ => joinCondition_eq_ok, exists_and_left]
      refine ⟨hsplits.1.join, ?_⟩
      cases hc : x.condition? with
      | none => exact ⟨[], .nil⟩
      | some c =>
        obtain ⟨text, htext⟩ := hconditions.1 c hc
        exact ⟨[text], .cons htext .nil⟩
    obtain ⟨next, hnext⟩ : ∃ next, add d statement target split (x.form d) = .ok next := by
      simp only [add_eq_ok]
      by_cases hname : x.name = target
      · obtain ⟨t, ht⟩ := hsplits.1.table hname
        exact ⟨_, cs, hcs, .inl ⟨hname, t.name, by rw [ht]; rfl, rfl⟩⟩
      · obtain ⟨r, hr⟩ := hrelations.1
        exact ⟨_, cs, hcs, .inr ⟨hname, r, hr, rfl⟩⟩
    obtain ⟨split', hsplit'⟩ := ih hsplits.2 hrelations.2 hconditions.2
    exact ⟨split', by rw [map_cons, foldlM_cons, hnext]; exact hsplit'⟩

end SplitTarget

/-! ## Written modifications -/

theorem Fragment.join_cons_of_ne_nil (f : Fragment) {rest : List Fragment} (h : rest ≠ []) :
    join separator (f :: rest) = f ++ separator ++ join separator rest := by
  obtain ⟨g, rest, rfl⟩ := exists_cons_of_ne_nil h
  rfl

theorem Fragment.tokens_metLike (f : Fragment) (order : List Fragment) : (f.metLike order).tokens = f.tokens := rfl

/-- Texts that are joined with others can be joined one by one. -/
theorem Fragment.tokens_join_append {fs gs : List Fragment} (hgs : gs ≠ [])
    (h : text.tokens = (join separator gs).tokens) :
    (join separator (fs ++ [text])).tokens = (join separator (fs ++ gs)).tokens := by
  induction fs with
  | nil => exact h
  | cons f fs ih =>
    rw [cons_append, cons_append, join_cons_of_ne_nil f (by simp), join_cons_of_ne_nil f (by simp [hgs])]
    simp only [tokens_append, ih]

namespace Sql

variable {verb : Verb}

/-- A modification written with joins. -/
theorem Body.text_sqlServer (hb : b.modification? = some (verb, target)) : b.text .sqlServer = .ok f ↔
    ∃ inner, CteForm.clause .sqlServer (cteForms .sqlServer b.block.select.ctes) = .ok inner ∧
      ∃ setting, b.setting .sqlServer = .ok setting ∧
      ∃ clauses, (b.block.select.sources.map (form .sqlServer)).mapM (·.text .sqlServer) = .ok clauses ∧
      ∃ filter, SelectForm.conditionClause .sqlServer "WHERE " (b.block.select.filter.map (Node.form .sqlServer)) =
        .ok filter ∧
        f = .join " " (inner ++ [.raw (verb.joined ++ target.text)] ++ setting ++ clauses ++ filter) := by
  cases b with
  | query q => cases hb
  | update | delete =>
    cases hb
    simp [Body.text, Update.text, Delete.text, Body.setting, Body.block, Update.block, Delete.block, joinedClauses,
      Dialect.modifiesThroughJoins, sources_form, filter_form, ctes_form, eq_comm (b := f), -bind_pure_comp]

/-- A modification written with a list of the other data sources. -/
theorem Body.exists_text_postgres (hb : b.modification? = some (verb, target)) : ∃ statement, ∀ f,
    b.text .postgres = .ok f ↔ ∃ inner, CteForm.clause .postgres (cteForms .postgres b.block.select.ctes) = .ok inner ∧
      ∃ table split,
        SplitTarget.ofSelect .postgres statement target (b.block.select.form .postgres) = .ok (table, split) ∧
      ∃ setting, b.setting .postgres = .ok setting ∧
        f = (join " " (inner ++ [verb.plain ++ table] ++ setting ++ split.clauses verb.also)).metLike
          (inner ++ split.met ++ setting) := by
  cases b with
  | query q => cases hb
  | update u =>
    cases hb
    refine ⟨"UPDATE", fun f => ?_⟩
    simp [Body.text, Update.text, Body.setting, Body.block, Update.block, Dialect.modifiesThroughJoins,
      ctes_form, eq_comm (b := f), -bind_pure_comp]
  | delete q =>
    cases hb
    refine ⟨"DELETE", fun f => ?_⟩
    simp [Body.text, Delete.text, Body.setting, Body.block, Delete.block, Dialect.modifiesThroughJoins,
      ctes_form, eq_comm (b := f), -bind_pure_comp]

/-! ## The rows that are let through -/

/-- A combination has a row of each data source, and all conditions on these rows are true. -/
@[mk_iff]
structure Select.Accepts (k : Conditions Row) (contents : Alias → Row → Prop) (s : Select) (rows : Alias → Row) :
    Prop where
  present : ∀ x ∈ s.sources, contents x.name (rows x.name)
  joins : ∀ x ∈ s.sources, ∀ c ∈ x.condition?, k.truth c (visible s.aliases rows) = some true
  filter : ∀ c ∈ s.filter, k.truth c (visible s.aliases rows) = some true

theorem exists_filtered {o : Option Node} {clause : List Fragment}
    (h : SelectForm.conditionClause d "WHERE " (o.map (Node.form d)) = .ok clause) :
    ∃ T, Filtered k d clause T ∧ ∀ rows, T rows ↔ ∀ c ∈ o, k.truth c rows = some true := by
  cases o with
  | none =>
    simp only [Option.map_none, SelectForm.conditionClause, pure_eq_ok] at h
    subst h
    exact ⟨_, .all, fun rows => by simp⟩
  | some c =>
    simp only [Option.map_some, SelectForm.conditionClause, bind_eq_ok, pure_eq_ok] at h
    obtain ⟨text, htext, rfl⟩ := h
    exact ⟨_, .only (.single htext), fun rows => by simp⟩

/-- The dialect with joins lets through what the select accepts. -/
theorem Statement.exists_modifiesJoined (hs : s.body.modification? = some (verb, target))
    (hplain : s.body.ModifiesPlainly target) (hf : s.fragment .sqlServer = .ok f) :
    ∃ A, s.ModifiesJoined k contents .sqlServer f A ∧ ∀ rows, A rows ↔ s.body.block.select.Accepts k contents rows := by
  simp only [Statement.fragment, bind_eq_ok, pure_eq_ok] at hf
  obtain ⟨outer, houter, text, htext, rfl⟩ := hf
  obtain ⟨inner, hinner, setting, hsetting, clauses, hclauses, filter, hfilter, rfl⟩ := (Body.text_sqlServer hs).1 htext
  obtain ⟨x, rest, hsources, hx, hrest⟩ := hplain.joins
  obtain ⟨T, hT, hiffT⟩ := exists_filtered (k := k) hfilter
  rw [hsources, map_cons, mapM_eq_ok] at hclauses
  cases hclauses with
  | @cons _ first _ texts hfirst htexts =>
    simp only [SourceForm.text, SourceForm.named, form, hx, joinForm, bind_eq_ok, pure_eq_ok] at hfirst
    obtain ⟨_, ⟨relation, hrelation, rfl⟩, rfl⟩ := hfirst
    have hnames : s.body.block.aliases = ([x] ++ rest).map (·.name) := by
      simp [Block.aliases, Select.aliases, hsources]
    have hback : ∀ (i : Nat) (y : DataSource), rest[i]? = some y → ∀ a ∈ ([x] ++ rest).map (·.name), y.Mentions a →
        a ∈ ([x] ++ rest.take (i + 1)).map (·.name) := by
      intro i y hy a ha hmention
      have hmem := hplain.backward (i + 1) y (by rw [hsources]; exact hy) a (hnames ▸ ha) hmention
      simpa [hnames, map_take] using hmem
    have hchain : Joined k contents .sqlServer [x] ["FROM " ++ aliased relation x.name] _ := .first hrelation
    obtain ⟨A, hA, hiffA⟩ := hchain.exists_append hrest (forall₂_map_left_iff.1 htexts) hback
    rw [← hnames] at hiffA
    rw [singleton_append, ← hsources] at hA
    refine ⟨_, .mk hs houter hinner hsetting hA hT ?_, fun rows => ?_⟩
    · rw [Fragment.tokens_join_append (by simp) rfl]
      simp [aliased]
    · rw [hiffA, hiffT]
      have hcondition : x.condition? = none := by rw [DataSource.condition?, hx]; rfl
      constructor
      · rintro ⟨⟨hfirst, hrest⟩, hfilter⟩
        refine ⟨?_, ?_, hfilter⟩
        · rw [hsources]
          exact forall_mem_cons.2 ⟨hfirst, fun y hy => (hrest y hy).1⟩
        · rw [hsources]
          exact forall_mem_cons.2 ⟨by simp [hcondition], fun y hy => (hrest y hy).2⟩
      · rintro ⟨hrows, hjoins, hfilter⟩
        rw [hsources, forall_mem_cons] at hrows hjoins
        exact ⟨⟨hrows.1, fun y hy => ⟨hrows.2 y hy, hjoins.2 y hy⟩⟩, hfilter⟩

/-- The clauses of a modification that is taken apart. -/
theorem exists_filtered_join (h : Conjuncts d cs texts) :
    ∃ T, Filtered k d (if texts.isEmpty then [] else ["WHERE " ++ join " AND " texts]) T ∧
      ∀ rows, T rows ↔ ∀ c ∈ cs, k.truth c rows = some true := by
  cases h with
  | nil => exact ⟨_, .all, fun rows => by simp⟩
  | @cons c text cs texts hc hcs =>
    obtain ⟨p, t, hmeans, -, ht⟩ := exists_means_join (k := k) (cons_ne_nil c cs) (.cons hc hcs)
    exact ⟨_, .only hmeans, ht⟩

/-- A modification that is taken apart: the table, the other data sources, and all conditions. -/
theorem parts_of_ofSelect {select : Select} {table : Fragment}
    (h : SplitTarget.ofSelect d statement target (select.form d) = .ok (table, split)) :
    (∀ x ∈ select.sources, x.SplitsFrom target) ∧
    (∃ x ∈ select.sources, x.name = target ∧ ∃ t, x.relation.tableName? = some t ∧ table = aliased t.text target) ∧
    Conjuncts d (select.sources.flatMap (·.condition?.toList) ++ select.filter.toList) split.conditions ∧
    ∃ others : List (DataSource × Fragment), others.map (·.1) = select.sources.filter (·.name ≠ target) ∧
      (∀ o ∈ others, o.1.relation.text d = .ok o.2) ∧ split.others = others.map fun o => aliased o.2 o.1.name := by
  simp only [SplitTarget.ofSelect, sources_form, filter_form, bind_eq_ok, orThrow_eq_ok] at h
  obtain ⟨split', hsplit, table', htable, h⟩ := h
  obtain ⟨hsplits, ⟨cs, hcs, hconditions⟩, ⟨others, hnames, hothers, heq⟩, htarget⟩ :=
    SplitTarget.parts_of_foldlM hsplit
  rw [nil_append] at hconditions heq
  have hmodified : ∃ x ∈ select.sources, x.name = target ∧ ∃ t, x.relation.tableName? = some t ∧
      table' = aliased t.text target := by
    rcases htarget with ⟨-, hnone⟩ | ⟨x, hx, hname, t, ht, h⟩
    · cases hnone.symm.trans htable
    · exact ⟨x, hx, hname, t, ht, Option.mem_unique htable h⟩
  have hparts : table = table' ∧ split.others = split'.others ∧
      Conjuncts d (select.sources.flatMap (·.condition?.toList) ++ select.filter.toList) split.conditions := by
    cases hfilter : select.filter with
    | none =>
      simp only [hfilter, Option.map_none, pure_eq_ok, Prod.mk.injEq] at h
      obtain ⟨rfl, rfl⟩ := h
      exact ⟨rfl, rfl, by simpa [hconditions] using hcs⟩
    | some c =>
      simp only [hfilter, Option.map_some, bind_eq_ok, pure_eq_ok, Prod.mk.injEq] at h
      obtain ⟨text, htext, rfl, rfl⟩ := h
      exact ⟨rfl, rfl, by simpa [hconditions] using rel_append hcs (.cons htext .nil)⟩
  obtain ⟨rfl, hsame, hall⟩ := hparts
  exact ⟨hsplits, hmodified, hall, others, hnames, hothers, hsame.trans heq⟩

/-- The target and the data sources of other aliases are all data sources. -/
theorem mem_target_cons (hx : x ∈ sources) (hname : x.name = target) :
    a ∈ target :: (sources.filter (·.name ≠ target)).map (·.name) ↔ a ∈ sources.map (·.name) := by
  constructor
  · intro ha
    rcases mem_cons.1 ha with rfl | ha
    · exact hname ▸ mem_map_of_mem hx
    · exact map_subset _ (filter_subset_self _) ha
  · intro ha
    obtain ⟨y, hy, rfl⟩ := mem_map.1 ha
    by_cases htarget : y.name = target
    · exact htarget ▸ mem_cons_self
    · exact mem_cons_of_mem _ (mem_map_of_mem (mem_filter.2 ⟨hy, by simpa using htarget⟩))

/-- The dialect with lists lets through what the select accepts. -/
theorem Statement.exists_modifiesListed (hs : s.body.modification? = some (verb, target))
    (hf : s.fragment .postgres = .ok f) : ∃ B, s.ModifiesListed k contents .postgres f B ∧
      ∀ rows, B rows ↔ s.body.block.select.Accepts k contents rows := by
  obtain ⟨statement, hbody⟩ := Body.exists_text_postgres hs
  simp only [Statement.fragment, bind_eq_ok, pure_eq_ok] at hf
  obtain ⟨outer, houter, text, htext, rfl⟩ := hf
  obtain ⟨inner, hinner, table, split, hsplit, setting, hsetting, rfl⟩ := (hbody text).1 htext
  obtain ⟨-, ⟨x, hx, hname, t, ht, rfl⟩, hconditions, others, hothers, hrelations, heq⟩ := parts_of_ofSelect hsplit
  obtain ⟨T, hT, hiff⟩ := exists_filtered_join (k := k) hconditions
  refine ⟨_, .mk hs houter hinner hsetting ⟨x, hx, hname, ht⟩ hothers hrelations hT ?_, fun rows => ?_⟩
  · rw [Fragment.tokens_join_append (by simp) (Fragment.tokens_metLike _ _)]
    cases others <;> simp [SplitTarget.clauses, heq]
  · have hnames : ∀ a, a ∈ target :: others.map (·.1.name) ↔ a ∈ s.body.block.select.aliases := by
      intro a
      rw [Select.aliases, ← mem_target_cons hx hname, ← hothers, map_map]
      rfl
    have hvisible : visible (target :: others.map (·.1.name)) rows = visible s.body.block.select.aliases rows := by
      funext a
      simp only [visible, hnames]
    have hpresent : (contents target (rows target) ∧ ∀ o ∈ others, contents o.1.name (rows o.1.name)) ↔
        ∀ x ∈ s.body.block.select.sources, contents x.name (rows x.name) := by
      calc (contents target (rows target) ∧ ∀ o ∈ others, contents o.1.name (rows o.1.name))
          ↔ ∀ a ∈ target :: others.map (·.1.name), contents a (rows a) := by
            rw [forall_mem_cons, forall_mem_map]
        _ ↔ ∀ a ∈ s.body.block.select.aliases, contents a (rows a) := forall_congr' fun a => by rw [hnames]
        _ ↔ ∀ x ∈ s.body.block.select.sources, contents x.name (rows x.name) := forall_mem_map
    rw [hvisible, hiff, ← and_assoc, hpresent, forall_mem_append, forall_mem_flatMap, Select.accepts_iff]
    simp only [Option.mem_toList, Option.mem_def]

/-- What the dialect without joins writes can be taken apart, and the target is a table among the data sources. -/
theorem Statement.splits_of_render {r : Rendered} (hs : s.body.modification? = some (verb, target))
    (hr : s.render .postgres = .ok r) :
    (∀ x ∈ s.body.block.select.sources, x.SplitsFrom target) ∧ target ∈ s.body.block.aliases := by
  obtain ⟨statement, htext⟩ := Body.exists_text_postgres hs
  simp only [Statement.render, Statement.fragment, bind_eq_ok, pure_eq_ok, htext] at hr
  obtain ⟨-, ⟨-, -, -, ⟨-, -, table, split, hsplit, -⟩, -⟩, -⟩ := hr
  obtain ⟨hsplits, ⟨x, hx, hname, -⟩, -⟩ := parts_of_ofSelect hsplit
  exact ⟨hsplits, hname ▸ mem_map_of_mem hx⟩

/-! ## Modifications that can be written -/

theorem exists_conditionOperand {level : Precedence} (h : ∃ text, (c.form d).asCondition d = .ok text) :
    ∃ text, (c.form d).conditionOperand d level = .ok text := by
  obtain ⟨text, htext⟩ := h
  rw [Form.conditionOperand, htext]
  exact ⟨_, rfl⟩

theorem DataSource.exists_text (hx : x.join = none ∨ x.JoinsPlainly) (hrelation : ∃ r, x.relation.text d = .ok r)
    (hcondition : ∀ c ∈ x.condition?, ∃ text, (c.form d).asCondition d = .ok text) :
    ∃ text, (x.form d).text d = .ok text := by
  obtain ⟨r, hr⟩ := hrelation
  rcases hx with hx | ⟨⟨kind, condition⟩, hjoin, hplain⟩
  · simp [SourceForm.text, SourceForm.named, form, hr, hx, joinForm, -bind_pure_comp]
  · rw [Option.mem_def] at hjoin
    simp only [DataSource.condition?, hjoin, Option.bind_some] at hcondition
    simp only [SourceForm.text, SourceForm.named, form, hr, hjoin, joinForm]
    rcases hplain with rfl | ⟨rfl, rfl⟩
    · cases condition with
      | none => exact ⟨_, rfl⟩
      | some c =>
        obtain ⟨text, htext⟩ := hcondition c rfl
        simp [optionForm, SourceForm.joinText, Dialect.joinKeyword, htext, -bind_pure_comp]
    · exact ⟨_, rfl⟩

/-- A plain modification whose parts can be written can be written with joins. -/
theorem Statement.exists_fragment_sqlServer (hs : s.body.modification? = some (verb, target))
    (hplain : s.body.ModifiesPlainly target) (hw : s.Writable .sqlServer) : ∃ f, s.fragment .sqlServer = .ok f := by
  obtain ⟨outer, houter⟩ := hw.outer
  obtain ⟨inner, hinner⟩ := hw.inner
  obtain ⟨setting, hsetting⟩ := hw.setting
  obtain ⟨x, rest, hsources, hx, hrest⟩ := hplain.joins
  have hjoined : ∀ y ∈ s.body.block.select.sources, y.join = none ∨ y.JoinsPlainly := by
    rw [hsources]
    exact forall_mem_cons.2 ⟨.inl hx, fun y hy => .inr (hrest y hy)⟩
  obtain ⟨clauses, hclauses⟩ : ∃ clauses,
      (s.body.block.select.sources.map (form .sqlServer)).mapM (·.text .sqlServer) = .ok clauses :=
    exists_mapM (forall_mem_map.2 fun y hy =>
      DataSource.exists_text (hjoined y hy) (hw.relations y hy) (hw.conditions y hy))
  obtain ⟨filter, hfilter⟩ : ∃ filter, SelectForm.conditionClause .sqlServer "WHERE "
      (s.body.block.select.filter.map (Node.form .sqlServer)) = .ok filter := by
    cases hf : s.body.block.select.filter with
    | none => exact ⟨_, rfl⟩
    | some c =>
      obtain ⟨text, htext⟩ := hw.filter c hf
      rw [Option.map_some, SelectForm.conditionClause, htext]
      exact ⟨_, rfl⟩
  have hbody := (Body.text_sqlServer hs).2 ⟨inner, hinner, setting, hsetting, clauses, hclauses, filter, hfilter, rfl⟩
  rw [Statement.fragment, houter, hbody]
  exact ⟨_, rfl⟩

/-- The data sources of a plain modification can be taken apart. -/
theorem Body.ModifiesPlainly.splits (h : b.ModifiesPlainly target) :
    ∀ x ∈ b.block.select.sources, x.SplitsFrom target := by
  obtain ⟨x, rest, hsources, hx, hrest⟩ := h.joins
  refine fun y hy => ⟨fun j hj => ?_, h.table y hy⟩
  rw [hsources] at hy
  rcases mem_cons.1 hy with rfl | hy
  · cases hx.symm.trans hj
  · obtain ⟨j', hj', hkind⟩ := hrest y hy
    obtain rfl := Option.mem_unique hj' hj
    exact hkind.imp_right (·.1)

theorem exists_ofSelect (hplain : s.body.ModifiesPlainly target) (hw : s.Writable d) :
    ∃ table split, SplitTarget.ofSelect d statement target (s.body.block.select.form d) = .ok (table, split) := by
  obtain ⟨split, hsplit⟩ : ∃ split, (s.body.block.select.sources.map (form d)).foldlM
      (SplitTarget.add d statement target) ⟨none, [], [], []⟩ = .ok split :=
    SplitTarget.exists_foldlM hplain.splits hw.relations fun x hx c hc =>
      exists_conditionOperand (hw.conditions x hx c hc)
  obtain ⟨-, -, -, htable⟩ := SplitTarget.parts_of_foldlM hsplit
  obtain ⟨-, -, -, t, -, htable⟩ := htable.resolve_left fun h => h.1 hplain.present
  rw [SplitTarget.ofSelect, sources_form, filter_form, hsplit]
  cases hf : s.body.block.select.filter with
  | none => simp [htable, -bind_pure_comp]
  | some c =>
    obtain ⟨text, htext⟩ : ∃ text, (c.form d).conditionOperand d .and = .ok text :=
      exists_conditionOperand (hw.filter c hf)
    simp [htable, htext, -bind_pure_comp]

/-- A plain modification whose parts can be written can be written without joins. -/
theorem Statement.exists_fragment_postgres (hs : s.body.modification? = some (verb, target))
    (hplain : s.body.ModifiesPlainly target) (hw : s.Writable .postgres) : ∃ f, s.fragment .postgres = .ok f := by
  obtain ⟨outer, houter⟩ := hw.outer
  obtain ⟨inner, hinner⟩ := hw.inner
  obtain ⟨setting, hsetting⟩ := hw.setting
  obtain ⟨statement, htext⟩ := Body.exists_text_postgres hs
  obtain ⟨table, split, hsplit⟩ : ∃ table split,
      SplitTarget.ofSelect .postgres statement target (s.body.block.select.form .postgres) = .ok (table, split) :=
    exists_ofSelect hplain hw
  have hbody := (htext _).2 ⟨inner, hinner, table, split, hsplit, setting, hsetting, rfl⟩
  rw [Statement.fragment, houter, hbody]
  exact ⟨_, rfl⟩

end Sql

/-! ## Both dialects -/

/-- Both dialects modify the same rows: of a plain modification, the text with joins and the text without joins
let the same combinations of rows through, whatever rows the data sources hold and whatever single conditions
mean. Each dialect writes every plain modification whose parts it can write. The dialect without joins refuses a
modification that has a join of another kind, whose target is no table, or whose target is none of its data
sources.

**Proof sketch.** Both texts let through the combinations on which all conditions are true. In a chain of joins
a condition is tested on the rows up to its data source, and it mentions no later one. Without joins all
conditions are operands of one conjunction. -/
theorem modified_rows_agree (k : Conditions Row) (contents : Alias → Row → Prop) (s : Statement) (verb : Verb)
    (target : Alias) (hs : s.body.modification? = some (verb, target)) : (s.body.ModifiesPlainly target →
      (∀ d, s.Writable d → ∃ f, s.fragment d = .ok f) ∧
      ∀ f g, s.fragment .sqlServer = .ok f → s.fragment .postgres = .ok g →
        ∃ A B, s.ModifiesJoined k contents .sqlServer f A ∧ s.ModifiesListed k contents .postgres g B ∧
          ∀ rows, A rows ↔ B rows) ∧
    ((∃ x ∈ s.body.block.select.sources, ∃ j ∈ x.join, j.kind ≠ .inner ∧ j.kind ≠ .cross) ∨
      (∃ x ∈ s.body.block.select.sources, x.name = target ∧ ∀ t, x.relation ≠ .table t) ∨
      target ∉ s.body.block.aliases → ∃ e, s.render .postgres = .error e ∧ e.IsRefusal) := by
  refine ⟨fun hplain => ⟨fun d hw => ?_, fun f g hf hg => ?_⟩, fun hbad => ?_⟩
  · cases d with
    | sqlServer => exact s.exists_fragment_sqlServer hs hplain hw
    | postgres => exact s.exists_fragment_postgres hs hplain hw
  · obtain ⟨A, hA, hiffA⟩ := s.exists_modifiesJoined hs hplain hf
    obtain ⟨B, hB, hiffB⟩ := s.exists_modifiesListed hs hg
    exact ⟨A, B, hA, hB, fun rows => (hiffA rows).trans (hiffB rows).symm⟩
  · cases hrender : s.render .postgres with
    | error e => exact ⟨e, rfl, s.refuses_render e hrender⟩
    | ok r =>
      obtain ⟨hsplits, hmem⟩ := s.splits_of_render hs hrender
      rcases hbad with ⟨x, hx, j, hj, hinner, hcross⟩ | ⟨x, hx, hname, hnone⟩ | htarget
      · exact absurd ((hsplits x hx).join j hj) (by simp [hinner, hcross])
      · obtain ⟨t, ht⟩ := (hsplits x hx).table hname
        exact absurd ht (hnone t)
      · exact absurd hmem htarget

end

namespace Sample

/-- The value of a column or of an integer. -/
def cell (rows : Alias → Option (String → Int)) : Node → Option Int
  | .column a name => (rows a).map (· name)
  | .literal (.int n) => some n
  | _ => none

/-- The truth of comparisons between columns and integers and of their connectives. -/
def compare (rows : Alias → Option (String → Int)) : Node → Option Bool
  | .binary .and left right => conjoin (compare rows left) (compare rows right)
  | .binary .or left right => disjoin (compare rows left) (compare rows right)
  | .binary .eq left right => do return (← cell rows left) == (← cell rows right)
  | _ => none

theorem cell_congr (h : ∀ a, Mark.mention a ∈ n.harvest marks → rows a = rows' a) : cell rows n = cell rows' n := by
  cases n with
  | column a name => rw [cell, cell, h a (by simp [Node.harvest, mentionOf?])]
  | literal l => cases l <;> rfl
  | _ => rfl

theorem compare_congr
    (h : ∀ a, Mark.mention a ∈ n.harvest marks → rows a = rows' a) : compare rows n = compare rows' n := by
  fun_induction compare rows n with
  | case1 left right ihl ihr | case2 left right ihl ihr =>
    simp only [Node.harvest, marks_node, mentionOf?, mem_append] at h
    rw [compare, ihl fun a ha => h a (.inl ha), ihr fun a ha => h a (.inr ha)]
  | case3 left right =>
    simp only [Node.harvest, marks_node, mentionOf?, mem_append] at h
    rw [compare, cell_congr fun a ha => h a (.inl ha), cell_congr fun a ha => h a (.inr ha)]
  | case4 n hand hor heq =>
    rw [compare]
    · exact hand
    · exact hor
    · exact heq

/-- Conditions that compare columns and integers. -/
def comparisons : Conditions (String → Int) := ⟨fun c rows => compare rows c, compare_congr⟩

/-- The equality of columns of two data sources. -/
def sameColumn (name : String) (a b : Nat) : Node := .binary .eq (.column ⟨a⟩ name) (.column ⟨b⟩ name)

/-- Sets the level of courses from a scale, for courses that a student takes or that have the level of one. The
course is joined to students by a given kind of join. -/
def relevel (kind : JoinKind) : Statement :=
  let source (a : Nat) (table : String) (join : Option Join) : DataSource :=
    ⟨⟨a⟩, .table ⟨table, ⟨none, table⟩⟩, join, none⟩
  let select : Select := { Select.empty with
    sources := [source 1 "Student" none,
      source 2 "Course" (some ⟨kind, some (.binary .or (sameColumn "CourseId" 1 2) (sameColumn "Level" 1 2))⟩),
      source 3 "Scale" (some ⟨.cross, none⟩)]
    filter := some (.binary .or (sameColumn "Level" 2 3) (.binary .eq (.column ⟨3⟩ "Level") (.literal (.int 1)))) }
  ⟨[], .update ⟨⟨2⟩, select, [("Level", .column ⟨3⟩ "Level")]⟩⟩

theorem relevel_modifiesPlainly : (relevel .inner).body.ModifiesPlainly ⟨2⟩ where
  present := by decide
  table := forall_mem_cons.2 ⟨fun _ => ⟨_, rfl⟩, forall_mem_cons.2 ⟨fun _ => ⟨_, rfl⟩,
    forall_mem_singleton.2 fun _ => ⟨_, rfl⟩⟩⟩
  joins := by
    refine ⟨_, _, rfl, rfl, forall_mem_cons.2 ⟨⟨_, rfl, .inl rfl⟩, ?_⟩⟩
    exact forall_mem_singleton.2 ⟨_, rfl, .inr ⟨rfl, rfl⟩⟩
  backward := by
    intro i x hx a _ hmention
    match i with
    | 0 =>
      cases hx
      simp [DataSource.Mentions, harvestJoin] at hmention
    | 1 =>
      cases hx
      have ha : a = ⟨1⟩ ∨ a = ⟨2⟩ := by
        simp only [DataSource.Mentions, harvestJoin, harvestOption, Node.harvest, sameColumn, marks_node, mentionOf?,
          mem_append, mem_singleton, Mark.mention.injEq] at hmention
        tauto
      rcases ha with rfl | rfl <;> decide
    | 2 =>
      cases hx
      simp [DataSource.Mentions, harvestJoin, harvestOption] at hmention
    | i + 3 => cases hx

theorem relevel_writable (d : Dialect) : (relevel .inner).Writable d where
  outer := ⟨_, rfl⟩
  inner := ⟨_, rfl⟩
  setting := ⟨_, rfl⟩
  relations := forall_mem_cons.2 ⟨⟨_, rfl⟩, forall_mem_cons.2 ⟨⟨_, rfl⟩,
    forall_mem_singleton.2 ⟨_, rfl⟩⟩⟩
  conditions := by
    refine forall_mem_cons.2 ⟨?_, forall_mem_cons.2 ⟨?_, forall_mem_singleton.2 ?_⟩⟩
    · rintro c ⟨⟩
    · rintro c ⟨⟩
      exact ⟨_, rfl⟩
    · rintro c ⟨⟩
  filter := by
    rintro c ⟨⟩
    exact ⟨_, rfl⟩

/-- Scales have a level, students and courses belong to a course. -/
def rowsOf (a : Alias) (row : String → Int) : Prop := if a = ⟨3⟩ then 0 < row "Level" else 0 < row "CourseId"

/-- The inner join is written in both dialects, and both texts modify the same rows. An outer join in its place is
refused. -/
theorem relevel_rows_agree : (relevel .inner).body.ModifiesPlainly ⟨2⟩ ∧
    (∃ f g A B, (relevel .inner).fragment .sqlServer = .ok f ∧ (relevel .inner).fragment .postgres = .ok g ∧
      (relevel .inner).ModifiesJoined comparisons rowsOf .sqlServer f A ∧
      (relevel .inner).ModifiesListed comparisons rowsOf .postgres g B ∧ ∀ rows, A rows ↔ B rows) ∧
    ∃ e, (relevel .left).render .postgres = .error e ∧ e.IsRefusal := by
  obtain ⟨hwritten, hagree⟩ :=
    (modified_rows_agree comparisons rowsOf (relevel .inner) _ ⟨2⟩ rfl).1 relevel_modifiesPlainly
  obtain ⟨f, hf⟩ := hwritten .sqlServer (relevel_writable _)
  obtain ⟨g, hg⟩ := hwritten .postgres (relevel_writable _)
  obtain ⟨A, B, hA, hB, hiff⟩ := hagree f g hf hg
  refine ⟨relevel_modifiesPlainly, ⟨f, g, A, B, hf, hg, hA, hB, hiff⟩, ?_⟩
  refine (modified_rows_agree comparisons rowsOf (relevel .left) _ ⟨2⟩ rfl).2 (.inl ?_)
  exact ⟨_, mem_cons_of_mem _ mem_cons_self, _, rfl, by decide, by decide⟩

end Sample

end QueryLowering
