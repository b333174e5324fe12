import QueryLowering.Proofs.Scan
import QueryLowering.Proofs.Within

/-!
# What holds of all written texts

A condition on texts that is kept by every way of putting texts together holds of all texts that a
dialect makes of a tree, as soon as it holds of the texts that hang on the nodes of the tree: parameters,
the names of functions, and negations. A tree that cannot be written has something that the dialect has
no text for, or something that is in no state to be written. The lemmas follow the way a text is put
together: tokens, what dialects make of expressions, clauses, trees, statements.

## Main results

* `Sql.Node.holds_form`, `Sql.Derived.holds_text`: expressions and queries.
* `Sql.Statement.holds_fragment`, `Sql.Statement.refuses_render`: statements.
-/

namespace QueryLowering

open Sql Result List

variable {keyword separator : String} {fs : List Fragment} {p : String × Value} {columns : List (Form × String)}
variable {assignments : List (String × Node)} {P : Fragment → Prop} {f g : Fragment} {fm fm' : Form} {o : Option Form}
variable {s : SelectForm} {Q : Node → Prop} {t : SplitTarget}

namespace Fragment

@[simp]
theorem tokens_append (f g : Fragment) : (f ++ g).tokens = f.tokens ++ g.tokens := rfl

@[simp]
theorem parameters_append (f g : Fragment) : (f ++ g).parameters = f.parameters ++ g.parameters := rfl

theorem append_assoc (f g h : Fragment) : f ++ g ++ h = f ++ (g ++ h) := by
  have happend : ∀ a b : Fragment, a ++ b = ⟨a.tokens ++ b.tokens, a.parameters ++ b.parameters⟩ := fun _ _ => rfl
  simp only [happend, List.append_assoc]

theorem append_empty (f : Fragment) : f ++ (⟨[], []⟩ : Fragment) = f := by
  have happend : f ++ (⟨[], []⟩ : Fragment) = ⟨f.tokens ++ [], f.parameters ++ []⟩ := rfl
  rw [happend, append_nil, append_nil]

theorem mem_parameters_join :
    p ∈ (Fragment.join separator fs).parameters ↔ ∃ f ∈ fs, p ∈ f.parameters := by
  fun_induction Fragment.join separator fs with
  | case1 => simp
  | case2 f => simp
  | case3 f g rest ih =>
    simp only [parameters_append, mem_append, ih, mem_cons, exists_eq_or_imp]
    simp [Fragment.raw]

/-- A condition on texts that is kept where texts are put together. Two texts stand side by side only if
one that separates them stands between them, and an empty text can stand anywhere. The order in which
parameters were met may differ from the order of the text, as long as the same parameters were met. -/
structure Kept (P : Fragment → Prop) : Prop where
  empty : P ⟨[], []⟩
  raw : ∀ {text : String}, Scan.Lands text → P (.raw text)
  identifier : ∀ name, P (.identifier name)
  string : ∀ text, P (.string text)
  between : ∀ {f g : Fragment} (text : String), P f → Scan.Resets text → P g → P (f ++ Fragment.raw text ++ g)
  blank : ∀ {f g : Fragment}, P (f ++ g) → P (f ++ Fragment.raw "" ++ g)
  metLike : ∀ {f : Fragment} {order : List Fragment}, P f →
    (∀ p, p ∈ f.parameters ↔ ∃ g ∈ order, p ∈ g.parameters) → P (f.metLike order)

namespace Kept

variable (hP : Kept P) (text : String)

include hP

theorem mid (h : Scan.Resets text) (hf : P f) (hg : P g) : P (f ++ Fragment.raw text ++ g) :=
  hP.between text hf h hg

theorem front (h : Scan.Resets text) (hg : P g) : P (Fragment.raw text ++ g) := hP.mid text h hP.empty hg

theorem back (h : Scan.Resets text) (hf : P f) : P (f ++ Fragment.raw text) := by
  have hback := hP.mid text h hf hP.empty
  rwa [append_empty] at hback

theorem parens (hf : P f) : P f.parens := hP.back _ (by decide) (hP.front _ (by decide) hf)

/-- A text with one behind it that starts with what separates the two. -/
theorem tail (h : Scan.Resets text) (hf : P f) (hg : P g) : P (f ++ (Fragment.raw text ++ g)) := by
  rw [← append_assoc]
  exact hP.mid text h hf hg

theorem call (hf : P f) (hg : P g) : P (f ++ g.parens) := by
  have hcall := hP.back ")" (by decide) (hP.mid "(" (by decide) hf hg)
  rwa [append_assoc, append_assoc, ← append_assoc (Fragment.raw "(")] at hcall

/-- Two texts with a sign between them. -/
theorem spaced {sign : String} (hf : P f) (hsign : Scan.Lands sign) (hg : P g) :
    P (f ++ (Fragment.raw " " ++ Fragment.raw sign ++ Fragment.raw " ") ++ g) := by
  have hspaced := hP.mid " " (by decide) (hP.mid " " (by decide) hf (hP.raw hsign)) hg
  rwa [append_assoc f, append_assoc f] at hspaced

theorem join (h : Scan.Resets separator) (hfs : ∀ f ∈ fs, P f) : P (Fragment.join separator fs) := by
  fun_induction Fragment.join separator fs with
  | case1 => exact hP.empty
  | case2 f => exact hfs f mem_cons_self
  | case3 f g rest ih =>
    rw [forall_mem_cons] at hfs
    exact hP.mid _ h hfs.1 (ih hfs.2)

end Kept

end Fragment

open Fragment (join)

/-! ## Texts that the dialects make -/

section

variable (hP : Fragment.Kept P) (d : Dialect)

theorem Dialect.offsetRows_parameters (ordered : Bool) : (Dialect.offsetRows ordered f).parameters = f.parameters := by
  cases ordered <;> simp [Dialect.offsetRows, Fragment.raw]

/-- Both dates occur in the difference in every unit. -/
theorem Dialect.difference_parameters (part : DatePart) (p : String × Value) :
    p ∈ (Dialect.difference f g part).parameters ↔ p ∈ f.parameters ∨ p ∈ g.parameters := by
  cases part <;>
    simp [Dialect.difference, Dialect.years, Dialect.seconds, Fragment.raw] <;> tauto

include hP

theorem Dialect.holds_truthy (hf : P f) : P (d.truthy f) := by
  cases d with
  | sqlServer => exact hP.back _ (by decide) hf
  | postgres => exact hf

theorem Dialect.holds_predicateValue (hf : P f) : P (d.predicateValue f) := by
  cases d with
  | sqlServer => exact hP.back _ (by decide) (hP.front _ (by decide) hf)
  | postgres => exact hP.parens hf

theorem Dialect.holds_datePart (part : DatePart) (hf : P f) : P (d.datePart part f) := by
  cases d with
  | sqlServer =>
    have hname : P (.raw part.name) := hP.raw (by cases part <;> decide)
    exact hP.back _ (by decide) (hP.mid _ (by decide) (hP.front _ (by decide) hname) hf)
  | postgres =>
    have hfield : P (.raw (Dialect.field part)) := hP.raw (by cases part <;> decide)
    exact hP.back _ (by decide) (hP.mid _ (by decide) (hP.front _ (by decide) hfield) hf)

theorem Dialect.holds_dateAdd (part : DatePart) (hf : P f) (hg : P g) : P (d.dateAdd part f g) := by
  cases d with
  | sqlServer =>
    have hname : P (.raw part.name) := hP.raw (by cases part <;> decide)
    have hamount := hP.mid ", " (by decide) (hP.front "DATEADD(" (by decide) hname) hf
    exact hP.back _ (by decide) (hP.mid _ (by decide) hamount hg)
  | postgres =>
    refine hP.metLike ?_ fun p => ?_
    · have hunit : P (.raw (Quoted.string ("1 " ++ part.name))) := hP.raw (by cases part <;> decide)
      have hamount := hP.mid " + " (by decide) hg (hP.parens hf)
      exact hP.parens (hP.mid _ (by decide) hamount hunit)
    · simp [Fragment.parens, Fragment.raw, or_comm]

theorem Dialect.holds_years (hf : P f) (hg : P g) : P (Dialect.years f g) :=
  hP.back _ (by decide) (hP.mid _ (by decide) (hP.front _ (by decide) hg) hf)

theorem Dialect.holds_seconds (hf : P f) (hg : P g) : P (Dialect.seconds f g) :=
  hP.back _ (by decide) (hP.mid _ (by decide) (hP.front _ (by decide) hg) hf)

theorem Dialect.holds_difference (part : DatePart) (hf : P f) (hg : P g) : P (Dialect.difference f g part) := by
  have hyears := Dialect.holds_years hP hf hg
  have hseconds := Dialect.holds_seconds hP hf hg
  cases part with
  | year => exact hyears
  | month =>
    have hmonths := hP.mid " * 12 + EXTRACT(MONTH FROM " (by decide) (hP.front "(" (by decide) hyears) hg
    exact hP.back _ (by decide) (hP.mid _ (by decide) hmonths hf)
  | day => exact hP.back _ (by decide) (hP.mid _ (by decide) (hP.front _ (by decide) hg) hf)
  | hour | minute | second | millisecond => exact hP.back _ (by decide) (hP.front _ (by decide) hseconds)

theorem Dialect.holds_dateDiff (part : DatePart) (hf : P f) (hg : P g) : P (d.dateDiff part f g) := by
  cases d with
  | sqlServer =>
    have hname : P (.raw part.name) := hP.raw (by cases part <;> decide)
    have hstart := hP.mid ", " (by decide) (hP.front "DATEDIFF(" (by decide) hname) hf
    exact hP.back _ (by decide) (hP.mid _ (by decide) hstart hg)
  | postgres =>
    refine hP.metLike (Dialect.holds_difference hP part hf hg) fun p => ?_
    simp [Dialect.difference_parameters]

theorem Dialect.holds_offsetRows (ordered : Bool) (hf : P f) : P (Dialect.offsetRows ordered f) := by
  have horder : P (.raw (if ordered then "" else "ORDER BY (SELECT NULL) ")) :=
    hP.raw (by cases ordered <;> decide)
  exact hP.back _ (by decide) (hP.mid _ (by decide) horder hf)

theorem Dialect.holds_paging {top skip : Option Fragment} (ordered : Bool) (htop : ∀ t ∈ top, P t)
    (hskip : ∀ s ∈ skip, P s) : ∀ p ∈ d.paging top skip ordered, P p := by
  intro p hp
  cases d <;> cases top <;> cases skip <;>
    simp only [Dialect.paging, Option.mem_def, Option.some.injEq, reduceCtorEq,
      forall_eq'] at hp htop hskip <;> subst hp
  · exact Dialect.holds_offsetRows hP ordered hskip
  · refine hP.metLike ?_ fun q => ?_
    · have hrows := Dialect.holds_offsetRows hP ordered hskip
      exact hP.back _ (by decide) (hP.mid _ (by decide) hrows htop)
    · simp [Dialect.offsetRows_parameters, Fragment.raw, or_comm]
  · exact hP.front _ (by decide) hskip
  · exact hP.front _ (by decide) htop
  · exact hP.mid _ (by decide) (hP.front _ (by decide) htop) hskip

end

/-! ## Forms -/

/-- Something has no text in the dialect, or is in no state to be written. -/
def Error.IsRefusal : Error → Prop
  | .unsupported _ => True
  | .invalidState _ => True
  | _ => False

/-- A result that satisfies a condition, if it was not refused. -/
abbrev OrRefused {α : Type} (P : α → Prop) (r : Result α) : Prop := Ensures Error.IsRefusal P r

namespace Form

/-- A condition on the texts of an expression, whatever place it is put into. -/
def Holds (P : Fragment → Prop) : Form → Prop
  | condition _ text | value _ text => OrRefused P text
  | boolean _ => True
  | leaves texts => OrRefused (fun fs => ∀ f ∈ fs, P f) texts

variable (hP : Fragment.Kept P) (d : Dialect)

include hP

theorem holds_asValue (h : fm.Holds P) : OrRefused P (fm.asValue d) := by
  cases fm with
  | condition level text => exact Ensures.andThen h fun _ => d.holds_predicateValue hP
  | boolean b => exact ensures_pure (hP.raw (by cases d <;> cases b <;> decide))
  | value level text => exact h
  | leaves texts => exact ensures_throw trivial

theorem holds_asCondition (h : fm.Holds P) : OrRefused P (fm.asCondition d) := by
  cases fm with
  | condition level text => exact h
  | boolean b => exact ensures_pure (hP.raw (by cases d <;> cases b <;> decide))
  | value level text => exact Ensures.andThen h fun _ => d.holds_truthy hP
  | leaves texts => exact ensures_throw trivial

theorem holds_asLeaves (h : fm.Holds P) : OrRefused (fun fs => ∀ f ∈ fs, P f) (fm.asLeaves d) := by
  cases fm with
  | leaves texts => exact h
  | condition | boolean | value => exact (holds_asValue hP d h).andThen fun _ => forall_mem_singleton.2

theorem holds_operand (level : Precedence) (right : Bool) (h : fm.Holds P) :
    OrRefused P (fm.operand d level right) := by
  refine (holds_asValue hP d h).andThen fun g hg => ?_
  split
  · exact hP.parens hg
  · exact hg

theorem holds_conditionOperand (level : Precedence) (h : fm.Holds P) : OrRefused P (fm.conditionOperand d level) := by
  refine (holds_asCondition hP d h).andThen fun g hg => ?_
  split
  · exact hP.parens hg
  · exact hg

theorem holds_valueList {fs : List Form} (h : ∀ fm ∈ fs, fm.Holds P) : OrRefused P (valueList d fs) :=
  (ensures_mapM fun fm hfm => holds_asValue hP d (h fm hfm)).andThen fun _ hg => hP.join (by decide) hg

theorem holds_binary (op : BinaryOperator) (h : fm.Holds P) (h' : fm'.Holds P) : (binary d op fm fm').Holds P := by
  have hsign : Scan.Lands (sign d op) := by
    cases d <;> cases op <;> decide
  have htext : OrRefused P (binaryText d op fm fm') := by
    cases hconnects : connects op with
    | true =>
      simp only [binaryText, hconnects, if_true]
      exact (holds_conditionOperand hP d _ h).bind fun a ha =>
        (holds_conditionOperand hP d _ h').andThen fun b hb => hP.spaced ha hsign hb
    | false =>
      simp only [binaryText, hconnects, Bool.false_eq_true, if_false]
      exact (holds_operand hP d _ _ h).bind fun a ha =>
        (holds_operand hP d _ _ h').andThen fun b hb => hP.spaced ha hsign hb
  rw [binary]
  split <;> exact htext

theorem holds_membership {values : List Form} (negated : Bool) (h : fm.Holds P)
    (hvs : ∀ v ∈ values, v.Holds P) : (membership d fm values negated).Holds P := by
  rw [membership]
  split
  · exact hP.raw (by cases d <;> cases negated <;> decide)
  · refine (holds_operand hP d _ _ h).bind fun g hg => (holds_valueList hP d hvs).andThen fun vs hvs => ?_
    exact hP.back _ (by decide) (hP.mid _ (by cases negated <;> decide) hg hvs)

theorem holds_choice {test : Form} (ht : test.Holds P) (h : fm.Holds P) (h' : fm'.Holds P) :
    (choice d test fm fm').Holds P := by
  refine (holds_asCondition hP d ht).bind fun t ht => (holds_asValue hP d h).bind fun a ha =>
    (holds_asValue hP d h').andThen fun b hb => ?_
  have ha := hP.mid " THEN " (by decide) (hP.front "CASE WHEN " (by decide) ht) ha
  exact hP.back _ (by decide) (hP.mid _ (by decide) ha hb)

theorem holds_function {name : String} (hname : P (.raw (d.functionName name))) {args : List Form}
    (h : ∀ a ∈ args, a.Holds P) : (function d name args).Holds P := by
  unfold function
  split
  · next text htext =>
    refine hP.raw ?_
    unfold Dialect.niladic? at htext
    split at htext <;> cases htext <;> decide
  · exact (holds_valueList hP d h).andThen fun _ => hP.call hname

theorem holds_aggregate (function : AggregateFunction) {arg : Option Form} (h : ∀ a ∈ arg, a.Holds P) :
    (aggregate d function arg).Holds P := by
  have harg : OrRefused P (aggregateArgument d function arg) := by
    cases arg with
    | some a => exact holds_asValue hP d (h a rfl)
    | none =>
      rw [aggregateArgument]
      split
      · exact ensures_pure (hP.raw (by decide))
      · exact ensures_throw trivial
  exact harg.andThen fun _ => hP.call (hP.raw (by cases d <;> cases function <;> decide))

theorem holds_cast (type : DataType) (h : fm.Holds P) : (cast d fm type).Holds P := by
  refine (holds_asValue hP d h).andThen fun g hg => ?_
  have htype : P (.raw (d.dataType type)) := hP.raw (by cases d <;> cases type <;> decide)
  exact hP.back _ (by decide) (hP.mid _ (by decide) (hP.front _ (by decide) hg) htype)

omit hP in
theorem lands_dateTime (t : DateTime) : Scan.Lands (d.dateTime t) := by
  cases d with
  | sqlServer =>
    rw [Scan.Lands, Dialect.dateTime, Scan.run_string]
    decide
  | postgres =>
    rw [Scan.Lands, Dialect.dateTime, String.toList_append, Scan.run_append,
      show Scan.run .plain "TIMESTAMP ".toList = .plain by decide, Scan.run_string]
    decide

theorem holds_literal (l : Literal) : (literal d l).Holds P := by
  cases l with
  | bool b => trivial
  | float x =>
    change OrRefused P (floatText x)
    rw [floatText]
    split
    · exact ensures_pure (hP.raw (Scan.lands_float x))
    · exact ensures_throw trivial
  | null => exact hP.raw (by decide)
  | int n => exact hP.raw (Scan.lands_int n)
  | string s => exact hP.string s
  | dateTime t => exact hP.raw (lands_dateTime d t)

theorem holds_composite {entries : List Form} (h : ∀ e ∈ entries, e.Holds P) : (composite d entries).Holds P :=
  (ensures_mapM fun e he => holds_asLeaves hP d (h e he)).andThen fun _ => forall_mem_flatten.2

end Form

/-! ## Clauses -/

/-- A word and a number are a word. -/
theorem isCalm_numbered {word : String} (h : word.toList.all Scan.isCalm = true) (n : Nat) :
    ∀ c ∈ (word ++ toString n).toList, Scan.isCalm c = true := by
  rw [String.toList_append]
  refine forall_mem_append.2 ⟨all_eq_true.1 h, fun c hc => ?_⟩
  exact Scan.isCalm_of_isNumeral (isNumeral_of_mem_toString hc)

theorem isCalm_alias (a : Alias) : ∀ c ∈ a.text.toList, Scan.isCalm c = true := isCalm_numbered (by decide) a.index

theorem lands_alias (a : Alias) : Scan.Lands a.text := Scan.lands_of_calm (isCalm_alias a)

theorem lands_cteName (a : Alias) : Scan.Lands (cteName a) := Scan.lands_of_calm (isCalm_numbered (by decide) a.index)

/-- A keyword and an alias in one text. -/
theorem lands_keyword_alias (h : keyword.toList.all Scan.isCalm = true) (a : Alias) :
    Scan.Lands (keyword ++ a.text) := by
  refine Scan.lands_of_calm ?_
  rw [String.toList_append]
  exact forall_mem_append.2 ⟨all_eq_true.1 h, isCalm_alias a⟩

/-- A condition on the texts of a common table expression. -/
structure CteForm.Holds (P : Fragment → Prop) (c : CteForm) : Prop where
  anchor : OrRefused P c.anchor
  recursive : ∀ r ∈ c.recursive, OrRefused P r

/-- A condition on the texts of a data source. -/
structure SourceForm.Holds (P : Fragment → Prop) (s : SourceForm) : Prop where
  relation : OrRefused P s.relation
  condition : ∀ kind c, s.join = some (kind, some c) → c.Holds P

/-- A condition on the texts of the parts of a select. -/
structure SelectForm.Holds (P : Fragment → Prop) (s : SelectForm) : Prop where
  ctes : ∀ c ∈ s.ctes, c.Holds P
  sources : ∀ c ∈ s.sources, c.Holds P
  filter : ∀ f ∈ s.filter, f.Holds P
  groupBy : ∀ f ∈ s.groupBy, f.Holds P
  having : ∀ f ∈ s.having, f.Holds P
  orderBy : ∀ k ∈ s.orderBy, k.1.Holds P
  top : ∀ f ∈ s.top, f.Holds P
  skip : ∀ f ∈ s.skip, f.Holds P

section

variable (hP : Fragment.Kept P) (d : Dialect)

include hP

theorem TableName.holds_text (t : TableName) : P t.text := by
  rw [TableName.text]
  split
  · exact hP.mid _ (by decide) (hP.identifier _) (hP.identifier _)
  · exact hP.identifier _

theorem CteForm.holds_text {c : CteForm} (h : c.Holds P) : OrRefused P c.text := by
  have hbody : OrRefused P c.body := by
    refine h.anchor.bind fun anchor hanchor => ?_
    split
    · next r hr => exact (h.recursive _ hr).andThen fun g hg => hP.mid _ (by decide) hanchor hg
    · exact ensures_pure hanchor
  refine hbody.andThen fun body hbody => ?_
  have hcolumns : P (join ", " (c.columns.map Fragment.identifier)) :=
    hP.join (by decide) (forall_mem_map.2 fun name _ => hP.identifier name)
  have hname := hP.mid " (" (by decide) (hP.raw (lands_cteName c.name)) hcolumns
  exact hP.back _ (by decide) (hP.mid _ (by decide) hname hbody)

theorem CteForm.holds_clause {cs : List CteForm} (h : ∀ c ∈ cs, c.Holds P) :
    OrRefused (fun fs => ∀ f ∈ fs, P f) (CteForm.clause d cs) := by
  rw [CteForm.clause]
  split
  · exact ensures_pure (forall_mem_nil _)
  · refine (ensures_mapM fun c hc => CteForm.holds_text hP (h c hc)).andThen fun texts htexts => ?_
    have htexts : P (join ", " texts) := hP.join (by decide) htexts
    -- The keyword of a recursive declaration is empty in some dialects, and where none is recursive.
    have hkeyword : ∀ keyword : String, keyword = "" ∨ Scan.Resets keyword →
        P (Fragment.raw "WITH " ++ Fragment.raw keyword ++ join ", " texts) := by
      rintro keyword (rfl | hkeyword)
      · exact hP.blank (hP.front _ (by decide) htexts)
      · exact hP.mid _ hkeyword (hP.raw (by decide)) htexts
    refine forall_mem_singleton.2 (hkeyword _ ?_)
    split
    · cases d with
      | sqlServer => exact .inl rfl
      | postgres => exact .inr (by decide)
    · exact .inl rfl

theorem SourceForm.holds_named {s : SourceForm} (h : s.Holds P) : OrRefused P s.named :=
  h.relation.andThen fun _ hg => hP.tail _ (by decide) hg (hP.raw (lands_alias _))

theorem SourceForm.holds_text {s : SourceForm} (h : s.Holds P) : OrRefused P (s.text d) := by
  refine (SourceForm.holds_named hP h).bind fun relation hrelation => ?_
  split
  · exact ensures_pure (hP.front _ (by decide) hrelation)
  · next kind condition hjoin =>
    have hkeyword : P (Fragment.raw (d.joinKeyword kind).1) := hP.raw (by cases d <;> cases kind <;> decide)
    have hjoined := hP.mid " " (by decide) hkeyword hrelation
    simp only [SourceForm.joinText]
    split
    · next c _ =>
      refine (Form.holds_asCondition hP d (h.condition kind c hjoin)).andThen fun g hg => ?_
      exact hP.mid _ (by decide) hjoined hg
    · exact ensures_pure (hP.tail _ (by decide) hjoined (hP.raw (by cases d <;> decide)))
    · exact ensures_pure hjoined
    · exact ensures_throw trivial

namespace SelectForm

theorem holds_conditionClause (hkeyword : Scan.Resets keyword)
    (h : ∀ fm ∈ o, fm.Holds P) : OrRefused (fun fs => ∀ f ∈ fs, P f) (conditionClause d keyword o) := by
  cases o with
  | none => exact ensures_pure (forall_mem_nil _)
  | some fm =>
    refine (Form.holds_asCondition hP d (h fm rfl)).andThen fun f hf => ?_
    exact forall_mem_singleton.2 (hP.front _ hkeyword hf)

theorem holds_columnList (h : ∀ c ∈ columns, c.1.Holds P) :
    OrRefused P (columnList d columns) := by
  refine Ensures.andThen (ensures_mapM fun c hc => (Form.holds_asValue hP d (h c hc)).andThen fun value hvalue =>
    hP.mid _ (by decide) hvalue (hP.identifier _)) fun items hitems => ?_
  split
  · exact hP.raw (by decide)
  · exact hP.join (by decide) hitems

theorem holds_groupClause (h : ∀ fm ∈ o, fm.Holds P) : OrRefused (fun fs => ∀ f ∈ fs, P f) (groupClause d o) := by
  cases o with
  | none => exact ensures_pure (forall_mem_nil _)
  | some fm =>
    refine (Form.holds_asLeaves hP d (h fm rfl)).andThen fun leaves hleaves => ?_
    exact forall_mem_singleton.2 (hP.front _ (by decide) (hP.join (by decide) hleaves))

theorem holds_orderKey {key : Form × Bool} (h : key.1.Holds P) :
    OrRefused (fun fs => ∀ f ∈ fs, P f) (orderKey d key) := by
  refine (Form.holds_asLeaves hP d h).andThen fun leaves hleaves => forall_mem_map.2 fun leaf hleaf => ?_
  split
  · exact hP.back _ (by decide) (hleaves leaf hleaf)
  · exact hleaves leaf hleaf

theorem holds_orderClause {keys : List (Form × Bool)} (h : ∀ k ∈ keys, k.1.Holds P) :
    OrRefused P (orderClause d keys) := by
  refine (ensures_mapM fun key hkey => holds_orderKey hP d (h key hkey)).andThen fun items hitems => ?_
  exact hP.front _ (by decide) (hP.join (by decide) (forall_mem_flatten.2 hitems))

theorem holds_optionalValue (h : ∀ fm ∈ o, fm.Holds P) :
    OrRefused (fun value => ∀ f ∈ value, P f) (optionalValue d o) := by
  cases o with
  | none => exact ensures_pure nofun
  | some fm => exact (Form.holds_asValue hP d (h fm rfl)).andThen fun f hf g hg => Option.mem_some_iff.1 hg ▸ hf

theorem holds_headClause (h : s.Holds P) : OrRefused (fun fs => ∀ f ∈ fs, P f) (s.headClause d) := by
  rw [headClause]
  split
  · refine (holds_optionalValue hP d h.top).bind fun value hvalue => ?_
    split
    · next top =>
      exact ensures_pure (forall_mem_singleton.2 (hP.front _ (by decide) (hP.parens (hvalue top rfl))))
    · exact ensures_pure (forall_mem_nil _)
  · exact ensures_pure (forall_mem_nil _)

theorem holds_tailClauses (h : s.Holds P) (nested : Bool) :
    OrRefused (fun fs => ∀ f ∈ fs, P f) (s.tailClauses d nested) := by
  have htop : ∀ fm ∈ (if s.topInHead d then none else s.top), fm.Holds P := by
    intro fm hfm
    split at hfm
    · cases hfm
    · exact h.top fm hfm
  -- Whatever the ordering is written as, the row limit and the row offset follow it.
  have paged : ∀ order : List Fragment, (∀ f ∈ order, P f) → OrRefused (fun fs => ∀ f ∈ fs, P f) (do
      let top ← optionalValue d (if s.topInHead d then none else s.top)
      let skip ← optionalValue d s.skip
      return order ++ (d.paging top skip (s.isOrdered d nested)).toList) := by
    intro order horder
    refine (holds_optionalValue hP d htop).bind fun top htop =>
      (holds_optionalValue hP d h.skip).andThen fun skip hskip => forall_mem_append.2 ⟨horder, fun f hf => ?_⟩
    exact d.holds_paging hP _ htop hskip f (Option.mem_toList.1 hf)
  simp only [tailClauses]
  split
  · refine (holds_orderClause hP d h.orderBy).bind fun order horder => ?_
    exact paged [order] (forall_mem_singleton.2 horder)
  · exact paged [] (forall_mem_nil _)

/-- What holds of the parts and of the output columns of a select holds of the select. -/
theorem holds_text (h : s.Holds P) (hcolumns : ∀ c ∈ columns, c.1.Holds P)
    (nested : Bool) : OrRefused P (s.text d nested columns) := by
  refine (CteForm.holds_clause hP d h.ctes).bind fun declarations hdeclarations => ?_
  refine (holds_headClause hP d h).bind fun head hhead => ?_
  refine (holds_columnList hP d hcolumns).bind fun items hitems => ?_
  refine (ensures_mapM fun c hc => SourceForm.holds_text hP d (h.sources c hc)).bind fun sources hsources => ?_
  refine (holds_conditionClause hP d (by decide) h.filter).bind fun filter hfilter => ?_
  refine (holds_groupClause hP d h.groupBy).bind fun group hgroup => ?_
  refine (holds_conditionClause hP d (by decide) h.having).bind fun having hhaving => ?_
  refine (holds_tailClauses hP d h nested).andThen fun tail htail => hP.join (by decide) ?_
  have hdistinct : ∀ f ∈ if s.distinct then [Fragment.raw "DISTINCT"] else [], P f := by
    intro f hf
    split at hf
    · exact mem_singleton.1 hf ▸ hP.raw (by decide)
    · cases hf
  have hselect : P (.raw "SELECT") := hP.raw (by decide)
  simp only [forall_mem_append, forall_mem_singleton]
  exact ⟨⟨⟨⟨⟨⟨⟨⟨⟨hdeclarations, hselect⟩, hdistinct⟩, hhead⟩, hitems⟩, hsources⟩, hfilter⟩, hgroup⟩, hhaving⟩, htail⟩

end SelectForm

end

/-! ## Trees -/

namespace Sql

/-- A condition on texts that is kept where texts are put together, and that holds of the texts that hang
on the nodes of a tree: of parameters, of the names of functions, and of minus signs in front of
operands. -/
structure Writes (d : Dialect) (Q : Node → Prop) (P : Fragment → Prop) : Prop extends Fragment.Kept P where
  parameter : ∀ {name : String} {v : Value}, Q (.parameter name v) → P (.parameter name v)
  function : ∀ {name : String} {args : List Node}, Q (.function name args) → P (.raw (d.functionName name))
  minus : ∀ {e : Node} {f : Fragment}, (Node.unary .minus e).All Q →
    (e.form d).operand d .unary false = .ok f → P f → P (Fragment.raw "-" ++ f)

section

theorem holds_unionText (hP : Fragment.Kept P) {items : List (UnionKind × Result Fragment)}
    (h : ∀ i ∈ items, OrRefused P i.2) : OrRefused P (unionText items) := by
  -- Each query starts with what separates it from what stands in front of it.
  have hrest : ∀ (queries : List Fragment) (f : Fragment),
      (∀ q ∈ queries, ∃ text g, Scan.Resets text ∧ P g ∧ q = Fragment.raw text ++ g) → P f →
        P (f ++ join "" queries) := by
    intro queries
    induction queries with
    | nil =>
      intro f _ hf
      rwa [join, Fragment.append_empty]
    | cons q queries ih =>
      intro f hqueries hf
      rw [forall_mem_cons] at hqueries
      obtain ⟨⟨text, g, htext, hg, rfl⟩, hqueries⟩ := hqueries
      have hfirst := hP.tail text htext hf hg
      cases queries with
      | nil => exact hfirst
      | cons q' queries =>
        rw [join, Fragment.append_assoc, ← Fragment.append_assoc, ← Fragment.append_assoc]
        refine ih _ hqueries ?_
        have hblank := hP.blank (f := f ++ (Fragment.raw text ++ g)) (g := ⟨[], []⟩) (by rwa [Fragment.append_empty])
        rwa [Fragment.append_empty] at hblank
  cases items with
  | nil => exact ensures_pure hP.empty
  | cons first rest =>
    rw [forall_mem_cons] at h
    refine h.1.bind fun g hg => Ensures.andThen (ensures_mapM fun i hi => (h.2 i hi).andThen fun query hquery => ?_)
      fun gs hgs => hrest gs _ hgs (hP.parens hg)
    refine ⟨_, query.parens, ?_, hP.parens hquery, rfl⟩
    split <;> decide

variable {d : Dialect} (hw : Writes d Q P)

include hw

-- The theorems below share the hypothesis and pass it on to each other.
set_option linter.unusedSectionVars false

mutual

/-- The condition holds of an expression if it holds of what hangs on its nodes. -/
theorem Node.holds_form (n : Node) (h : n.All Q) : (n.form d).Holds P := by
  match n with
  | .column a name => exact hw.mid _ (by decide) (hw.raw (lands_alias a)) (hw.identifier name)
  | .literal l => exact Form.holds_literal hw.toKept d l
  | .parameter name v => exact hw.parameter h.root
  | .list items =>
    have hitems := holds_nodeForms items fun n hn => h.operand rfl hn
    exact (Form.holds_valueList hw.toKept d hitems).andThen fun _ => hw.parens
  | .binary op l r =>
    exact Form.holds_binary hw.toKept d op (l.holds_form (h.operand rfl (by simp [Node.operands])))
      (r.holds_form (h.operand rfl (by simp [Node.operands])))
  | .unary .not e =>
    have he := e.holds_form (h.operand rfl (by simp [Node.operands]))
    exact (Form.holds_conditionOperand hw.toKept d _ he).andThen fun _ hg => hw.front _ (by decide) hg
  | .unary .minus e =>
    have he := e.holds_form (h.operand rfl (by simp [Node.operands]))
    exact (Form.holds_operand hw.toKept d _ _ he).and_eq_ok.andThen fun _ ⟨htext, hg⟩ => hw.minus h htext hg
  | .isNull e negated =>
    have he := e.holds_form (h.operand rfl (by simp [Node.operands]))
    exact (Form.holds_operand hw.toKept d _ _ he).andThen fun _ hg => hw.back _ (by cases negated <;> decide) hg
  | .inValues e vs negated =>
    exact Form.holds_membership hw.toKept d negated (e.holds_form (h.operand rfl (by simp [Node.operands])))
      (holds_nodeForms vs fun n hn => h.operand rfl (mem_cons_of_mem e hn))
  | .existence q =>
    exact (q.holds_text true (h.block rfl)).andThen fun _ hg => hw.front _ (by decide) (hw.parens hg)
  | .choice t a b =>
    exact Form.holds_choice hw.toKept d (t.holds_form (h.operand rfl (by simp [Node.operands])))
      (a.holds_form (h.operand rfl (by simp [Node.operands]))) (b.holds_form (h.operand rfl (by simp [Node.operands])))
  | .function name args =>
    exact Form.holds_function hw.toKept d (hw.function h.root) (holds_nodeForms args fun n hn => h.operand rfl hn)
  | .aggregate function arg =>
    refine Form.holds_aggregate hw.toKept d function (holds_optionForm arg fun n hn => ?_)
    exact h.operand rfl (Option.mem_toList.2 hn)
  | .cast e type =>
    exact Form.holds_cast hw.toKept d type (e.holds_form (h.operand rfl (by simp [Node.operands])))
  | .datePart part e =>
    have he := e.holds_form (h.operand rfl (by simp [Node.operands]))
    exact (Form.holds_operand hw.toKept d _ _ he).andThen fun _ => d.holds_datePart hw.toKept part
  | .dateAdd part a e =>
    have ha := a.holds_form (h.operand rfl (by simp [Node.operands]))
    have he := e.holds_form (h.operand rfl (by simp [Node.operands]))
    exact (Form.holds_operand hw.toKept d _ _ ha).bind fun _ ha =>
      (Form.holds_operand hw.toKept d _ _ he).andThen fun _ => d.holds_dateAdd hw.toKept part ha
  | .dateDiff part a b =>
    have ha := a.holds_form (h.operand rfl (by simp [Node.operands]))
    have hb := b.holds_form (h.operand rfl (by simp [Node.operands]))
    exact (Form.holds_operand hw.toKept d _ _ ha).bind fun _ ha =>
      (Form.holds_operand hw.toKept d _ _ hb).andThen fun _ => d.holds_dateDiff hw.toKept part ha
  | .subquery q | .derived q => exact (q.holds_text true (h.block rfl)).andThen fun _ => hw.parens
  | .composite entries =>
    refine Form.holds_composite hw.toKept d (holds_entryForms entries fun entry hentry => ?_)
    exact h.operand rfl (mem_map_of_mem hentry)
  | .placeholder | .table _ | .select _ | .union _ | .source _ | .grouping .. | .rows _ | .update _
  | .delete _ => exact trivial

theorem holds_nodeForms (ns : List Node) (h : ∀ n ∈ ns, n.All Q) : ∀ fm ∈ nodeForms d ns, fm.Holds P := by
  match ns with
  | [] => simp [nodeForms]
  | n :: rest =>
    rw [forall_mem_cons] at h
    simp only [nodeForms, forall_mem_cons]
    exact ⟨n.holds_form h.1, holds_nodeForms rest h.2⟩

theorem holds_optionForm (o : Option Node) (h : ∀ n ∈ o, n.All Q) : ∀ fm ∈ optionForm d o, fm.Holds P := by
  match o with
  | none => simp [optionForm]
  | some n =>
    intro fm hfm
    rw [optionForm, Option.mem_some_iff] at hfm
    subst hfm
    exact n.holds_form (h n rfl)

theorem holds_entryForms (entries : List (Path × Node)) (h : ∀ entry ∈ entries, entry.2.All Q) :
    ∀ fm ∈ entryForms d entries, fm.Holds P := by
  match entries with
  | [] => simp [entryForms]
  | (_, n) :: rest =>
    rw [forall_mem_cons] at h
    simp only [entryForms, forall_mem_cons]
    exact ⟨n.holds_form h.1, holds_entryForms rest h.2⟩

theorem Select.holds_form (s : Select) (h : ∀ k ∈ s.nodes, k.All Q) : (s.form d).Holds P := by
  match s with
  | { sources, projection, filter, groupBy, groupElement, having, orderBy, top, skip, distinct,
      defaultIfEmpty, ctes } =>
    obtain ⟨hctes, hsources, hclauses⟩ := Select.forall_mem_nodes.1 h
    simp only [Select.clauses, forall_mem_append, Option.mem_toList, forall_mem_map] at hclauses
    obtain ⟨⟨⟨⟨⟨⟨⟨-, hfilter⟩, hgroupBy⟩, -⟩, hhaving⟩, htop⟩, hskip⟩, horder⟩ := hclauses
    exact
      { ctes := holds_cteForms ctes hctes
        sources := holds_sourceForms sources hsources
        filter := holds_optionForm filter hfilter
        groupBy := holds_optionForm groupBy hgroupBy
        having := holds_optionForm having hhaving
        orderBy := holds_orderForms orderBy horder
        top := holds_optionForm top htop
        skip := holds_optionForm skip hskip }

/-- The condition holds of a query if it holds of what hangs on its nodes. -/
theorem Derived.holds_text (q : Derived) (nested : Bool) (h : ∀ k ∈ q.block.nodes, k.All Q) :
    OrRefused P (q.text d nested) := by
  match q with
  | { id, select, columns } =>
    obtain ⟨hselect, hcolumns⟩ := Block.forall_mem_nodes.1 h
    exact SelectForm.holds_text hw.toKept d (select.holds_form hselect)
      (holds_columnForms columns (forall_mem_map.1 hcolumns)) nested

theorem holds_columnForms (columns : List OutputColumn) (h : ∀ c ∈ columns, c.expr.All Q) :
    ∀ c ∈ columnForms d columns, c.1.Holds P := by
  match columns with
  | [] => simp [columnForms]
  | { path, name, expr } :: rest =>
    rw [forall_mem_cons] at h
    simp only [columnForms, forall_mem_cons]
    exact ⟨expr.holds_form h.1, holds_columnForms rest h.2⟩

theorem holds_cteForms (ctes : List Cte) (h : ∀ c ∈ ctes, ∀ q ∈ c.queries, (Node.derived q).All Q) :
    ∀ c ∈ cteForms d ctes, c.Holds P := by
  match ctes with
  | [] => simp [cteForms]
  | { name, anchor, recursive } :: rest =>
    rw [forall_mem_cons, Cte.queries, forall_mem_cons] at h
    simp only [cteForms, forall_mem_cons]
    refine ⟨⟨anchor.holds_text true (h.1.1.block rfl), ?_⟩, holds_cteForms rest h.2⟩
    exact holds_optionText recursive fun q hq => h.1.2 q (Option.mem_toList.2 hq)

theorem holds_optionText (o : Option Derived) (h : ∀ q ∈ o, (Node.derived q).All Q) :
    ∀ r ∈ optionText d o, OrRefused P r := by
  match o with
  | none => simp [optionText]
  | some q =>
    intro r hr
    rw [optionText, Option.mem_some_iff] at hr
    subst hr
    exact q.holds_text true ((h q rfl).block rfl)

theorem holds_sourceForms (sources : List DataSource) (h : ∀ s ∈ sources, ∀ k ∈ s.nodes, k.All Q) :
    ∀ s ∈ sourceForms d sources, s.Holds P := by
  match sources with
  | [] => simp [sourceForms]
  | { name, relation, join, navigation } :: rest =>
    rw [forall_mem_cons] at h
    obtain ⟨hqueries, hcondition⟩ := DataSource.forall_mem_nodes.1 h.1
    simp only [sourceForms, forall_mem_cons]
    refine ⟨⟨relation.holds_text hqueries, ?_⟩, holds_sourceForms rest h.2⟩
    exact holds_joinForm join hcondition

theorem holds_joinForm (o : Option Join) (h : ∀ n ∈ o.bind (·.condition), n.All Q) :
    ∀ kind c, joinForm d o = some (kind, some c) → c.Holds P := by
  match o with
  | none => simp [joinForm]
  | some { kind, condition } =>
    intro kind c hc
    simp only [joinForm, Option.some.injEq, Prod.mk.injEq] at hc
    exact holds_optionForm condition h c hc.2

theorem Relation.holds_text (r : Relation) (h : ∀ q ∈ r.queries, (Node.derived q).All Q) : OrRefused P (r.text d) := by
  match r with
  | .table t => exact ensures_pure (t.name.holds_text hw.toKept)
  | .derived q =>
    exact (q.holds_text true ((h q (mem_singleton_self q)).block rfl)).andThen fun _ => hw.parens
  | .union items =>
    have hitems := holds_itemTexts items fun i hi => h i.query (mem_map_of_mem hi)
    exact (holds_unionText hw.toKept hitems).andThen fun _ => hw.parens
  | .cte a columns => exact ensures_pure (hw.raw (lands_cteName a))

theorem holds_itemTexts (items : List UnionItem) (h : ∀ i ∈ items, (Node.derived i.query).All Q) :
    ∀ i ∈ itemTexts d items, OrRefused P i.2 := by
  match items with
  | [] => simp [itemTexts]
  | { query, kind } :: rest =>
    rw [forall_mem_cons] at h
    simp only [itemTexts, forall_mem_cons]
    exact ⟨query.holds_text true (h.1.block rfl), holds_itemTexts rest h.2⟩

theorem holds_orderForms (keys : List OrderItem) (h : ∀ k ∈ keys, k.expr.All Q) :
    ∀ k ∈ orderForms d keys, k.1.Holds P := by
  match keys with
  | [] => simp [orderForms]
  | { expr, descending } :: rest =>
    rw [forall_mem_cons] at h
    simp only [orderForms, forall_mem_cons]
    exact ⟨expr.holds_form h.1, holds_orderForms rest h.2⟩

end

end

end Sql

/-! ## Modifications -/

/-- A condition on the texts of a modification taken apart. No parameter was met in the text of its
target. -/
structure SplitTarget.Holds (P : Fragment → Prop) (t : SplitTarget) : Prop where
  target : ∀ f ∈ t.target, P f ∧ f.parameters = []
  parts : ∀ f ∈ t.met, P f
  met : ∀ f, f ∈ t.met ↔ f ∈ t.others ∨ f ∈ t.conditions

namespace SplitTarget

variable (hP : Fragment.Kept P) (d : Dialect)

namespace Holds

theorem addConditions (ht : t.Holds P) (hfs : ∀ f ∈ fs, P f) :
    Holds P { t with conditions := t.conditions ++ fs, met := t.met ++ fs } where
  target := ht.target
  parts f hf := (mem_append.1 hf).elim (ht.parts f) (hfs f)
  met f := by simp only [mem_append, ht.met, or_assoc]

theorem addOthers (ht : t.Holds P) (hfs : ∀ f ∈ fs, P f) :
    Holds P { t with others := t.others ++ fs, met := t.met ++ fs } where
  target := ht.target
  parts f hf := (mem_append.1 hf).elim (ht.parts f) (hfs f)
  met f := by
    simp only [mem_append, ht.met]
    exact or_right_comm

theorem setTarget (ht : t.Holds P) {table : Fragment} (h : P table) (hp : table.parameters = []) :
    Holds P { t with target := some table } where
  target f hf := by
    rw [Option.mem_some_iff] at hf
    exact hf ▸ ⟨h, hp⟩
  parts := ht.parts
  met := ht.met

end Holds

theorem parameters_tableName (t : TableName) : t.text.parameters = [] := by
  rw [TableName.text]
  split <;> rfl

theorem mem_parameters_clauses (ht : t.Holds P) (keyword : String) :
    (∃ f ∈ t.clauses keyword, p ∈ f.parameters) ↔ ∃ f ∈ t.met, p ∈ f.parameters := by
  have part : ∀ (fs : List Fragment) (keyword separator : String),
      (∃ f ∈ if fs.isEmpty then [] else [(keyword : Fragment) ++ join separator fs],
        p ∈ f.parameters) ↔ ∃ f ∈ fs, p ∈ f.parameters := by
    intro fs keyword separator
    cases fs with
    | nil => simp
    | cons g rest =>
      simp only [isEmpty_cons, Bool.false_eq_true, ↓reduceIte, mem_singleton,
        exists_eq_left, Fragment.parameters_append, mem_append, Fragment.mem_parameters_join]
      simp [Fragment.raw]
  simp only [clauses, mem_append, or_and_right, exists_or, part, ht.met]

include hP

theorem holds_joinCondition (statement : String) {s : SourceForm} (h : s.Holds P) :
    OrRefused (fun fs => ∀ f ∈ fs, P f) (joinCondition d statement s) := by
  rw [joinCondition]
  split
  · exact ensures_pure (forall_mem_nil _)
  · next kind condition hjoin =>
    dsimp only
    split
    · exact ensures_throw trivial
    · cases condition with
      | none => exact ensures_pure (forall_mem_nil _)
      | some c =>
        refine (Form.holds_conditionOperand hP d _ (h.condition kind c hjoin)).andThen fun f hf => ?_
        exact forall_mem_singleton.2 hf

theorem holds_add (statement : String) (target : Alias) {s : SourceForm}
    (ht : t.Holds P) (hs : s.Holds P) : OrRefused (Holds P) (add d statement target t s) := by
  refine (holds_joinCondition hP d statement hs).bind fun condition hcondition => ?_
  have ht := ht.addConditions hcondition
  dsimp only
  split
  · split
    · next name _ =>
      refine ensures_pure (ht.setTarget (hP.tail _ (by decide) (name.holds_text hP) (hP.raw (lands_alias _))) ?_)
      rw [Fragment.parameters_append, parameters_tableName]
      rfl
    · exact ensures_throw trivial
  · refine (SourceForm.holds_named hP hs).andThen fun other hother => ?_
    exact ht.addOthers (forall_mem_singleton.2 hother)

/-- What holds of the data sources and conditions of a modification holds of its parts. -/
theorem holds_ofSelect (statement : String) (target : Alias) (h : s.Holds P) :
    OrRefused (fun r => P r.1 ∧ r.1.parameters = [] ∧ r.2.Holds P) (ofSelect d statement target s) := by
  refine (ensures_foldlM (Q := Holds P) ⟨by simp, by simp, by simp⟩ fun t ht x hx =>
    holds_add hP d statement target ht (h.sources x hx)).bind fun split hsplit => ?_
  refine (ensures_orThrow hsplit.target trivial).bind fun table htable => ?_
  split
  · next fm hfilter =>
    refine (Form.holds_conditionOperand hP d _ (h.filter fm hfilter)).andThen fun f hf => ?_
    exact ⟨htable.1, htable.2, hsplit.addConditions (forall_mem_singleton.2 hf)⟩
  · exact ensures_pure ⟨htable.1, htable.2, hsplit⟩

/-- The clauses of a modification taken apart hold its parts. -/
theorem holds_clauses (ht : t.Holds P) (hkeyword : Scan.Resets keyword) : ∀ f ∈ t.clauses keyword, P f := by
  have others : ∀ f ∈ t.others, P f := fun f hf => ht.parts f ((ht.met f).2 (.inl hf))
  have conditions : ∀ f ∈ t.conditions, P f := fun f hf => ht.parts f ((ht.met f).2 (.inr hf))
  intro f hf
  rw [clauses, mem_append] at hf
  rcases hf with hf | hf <;> split at hf <;> simp only [not_mem_nil, mem_singleton] at hf
  · subst hf
    exact hP.front _ hkeyword (hP.join (by decide) others)
  · subst hf
    exact hP.front _ (by decide) (hP.join (by decide) conditions)

/-- A modification put together from its parts. The parameters of its settings were met last. -/
theorem holds_text (ht : t.Holds P) {table : Fragment} (htable : P table ∧ table.parameters = []) {verb : String}
    {declarations settings : List Fragment} (hdeclarations : ∀ f ∈ declarations, P f) (hsettings : ∀ f ∈ settings, P f)
    (hverb : Scan.Resets verb) (hkeyword : Scan.Resets keyword) :
    P ((join " " (declarations ++ (Fragment.raw verb ++ table) :: settings ++ t.clauses keyword)).metLike
      (declarations ++ t.met ++ settings)) := by
  refine hP.metLike (hP.join (by decide) ?_) fun p => ?_
  · simp only [forall_mem_append, forall_mem_cons]
    exact ⟨⟨hdeclarations, hP.front _ hverb htable.1, hsettings⟩, holds_clauses hP ht hkeyword⟩
  · have hclauses := mem_parameters_clauses ht keyword (p := p)
    have hraw : (Fragment.raw verb).parameters = [] := rfl
    simp only [Fragment.mem_parameters_join, mem_append, mem_cons, not_mem_nil, or_and_right, exists_or,
      hclauses, exists_eq_left, Fragment.parameters_append, htable.2, hraw, or_false, false_or]
    exact or_right_comm

end SplitTarget

namespace Sql

section

variable {d : Dialect} (hw : Writes d Q P)

include hw

theorem holds_assignmentForms (h : ∀ a ∈ assignments, a.2.All Q) :
    ∀ a ∈ assignmentForms d assignments, a.2.Holds P := by
  induction assignments with
  | nil => simp [assignmentForms]
  | cons a rest ih =>
    rw [forall_mem_cons] at h
    simp only [assignmentForms, forall_mem_cons]
    exact ⟨a.2.holds_form hw h.1, ih h.2⟩

theorem holds_assignmentList (h : ∀ a ∈ assignments, a.2.All Q) :
    OrRefused P (assignmentList d assignments) := by
  refine Ensures.andThen (ensures_mapM fun a ha => ?_) fun items hitems =>
    hw.front _ (by decide) (hw.join (by decide) hitems)
  refine (Form.holds_asValue hw.toKept d (holds_assignmentForms hw h a ha)).andThen fun value hvalue => ?_
  exact hw.mid _ (by decide) (hw.identifier _) hvalue

omit hw in
theorem holds_joinedClauses (hP : Fragment.Kept P) (h : s.Holds P) :
    OrRefused (fun fs => ∀ f ∈ fs, P f) (joinedClauses d s) := by
  refine (ensures_mapM fun c hc => SourceForm.holds_text hP d (h.sources c hc)).bind fun sources hsources => ?_
  refine (SelectForm.holds_conditionClause hP d (by decide) h.filter).andThen fun filter hfilter => ?_
  exact forall_mem_append.2 ⟨hsources, hfilter⟩

theorem Update.holds_text (u : Update) (h : ∀ k ∈ u.block.nodes, k.All Q) : OrRefused P (u.text d) := by
  obtain ⟨target, select, assigned⟩ := u
  obtain ⟨hselect, hassigned⟩ := Block.forall_mem_nodes.1 h
  have hs := select.holds_form hw hselect
  have hassigned : ∀ a ∈ assigned, a.2.All Q := forall_mem_map.1 hassigned
  refine (CteForm.holds_clause hw.toKept d hs.ctes).bind fun declarations hdeclarations => ?_
  split
  · refine (holds_assignmentList hw hassigned).bind fun assignments hassignments =>
      (holds_joinedClauses hw.toKept hs).andThen fun rest hrest => hw.join (by decide) ?_
    simp only [forall_mem_append, forall_mem_cons]
    exact ⟨⟨hdeclarations, hw.raw (lands_keyword_alias (by decide) _), hassignments, by simp⟩, hrest⟩
  · refine (SplitTarget.holds_ofSelect hw.toKept d _ _ hs).bind fun ⟨table, split⟩ hparts =>
      (holds_assignmentList hw hassigned).andThen fun assignments hassignments => ?_
    exact SplitTarget.holds_text hw.toKept hparts.2.2 ⟨hparts.1, hparts.2.1⟩ hdeclarations
      (forall_mem_singleton.2 hassignments) (by decide) (by decide)

theorem Delete.holds_text (q : Delete) (h : ∀ k ∈ q.block.nodes, k.All Q) : OrRefused P (q.text d) := by
  obtain ⟨target, select⟩ := q
  have hs := select.holds_form hw (Block.forall_mem_nodes.1 h).1
  refine (CteForm.holds_clause hw.toKept d hs.ctes).bind fun declarations hdeclarations => ?_
  split
  · refine (holds_joinedClauses hw.toKept hs).andThen fun rest hrest => hw.join (by decide) ?_
    simp only [forall_mem_append, forall_mem_cons]
    exact ⟨⟨hdeclarations, hw.raw (lands_keyword_alias (by decide) _), by simp⟩, hrest⟩
  · refine (SplitTarget.holds_ofSelect hw.toKept d _ _ hs).andThen fun ⟨table, split⟩ hparts => ?_
    rw [← append_nil (declarations ++ split.met)]
    exact SplitTarget.holds_text hw.toKept hparts.2.2 ⟨hparts.1, hparts.2.1⟩ hdeclarations (forall_mem_nil _)
      (by decide) (by decide)

/-- The condition holds of a statement that is not refused, if it holds of what hangs on its nodes. -/
theorem Statement.orRefused_fragment (s : Statement) (h : s.All Q) : OrRefused P (s.fragment d) := by
  obtain ⟨hctes, hblock⟩ := forall_mem_append.1 h
  have hbody : OrRefused P (s.body.text d) := by
    cases hbody : s.body with
    | query q => exact q.holds_text hw false (by rwa [hbody] at hblock)
    | update u => exact u.holds_text hw (by rwa [hbody] at hblock)
    | delete q => exact q.holds_text hw (by rwa [hbody] at hblock)
  have hforms : ∀ c ∈ cteForms d s.ctes, c.Holds P :=
    holds_cteForms hw s.ctes fun c hc q hq => hctes _ (mem_map_of_mem (mem_flatMap.2 ⟨c, hc, hq⟩))
  refine (CteForm.holds_clause hw.toKept d hforms).bind fun declarations hdeclarations =>
    hbody.andThen fun body hbody => hw.join (by decide) ?_
  exact forall_mem_append.2 ⟨hdeclarations, forall_mem_singleton.2 hbody⟩

/-- What holds of all parts holds of the written statement. -/
theorem Statement.holds_fragment (s : Statement) (h : s.All Q) (hf : s.fragment d = .ok f) : P f :=
  (s.orRefused_fragment hw h).of_eq_ok hf

end

/-- Statements that cannot be written are refused. -/
theorem Statement.refuses_render (s : Statement) {d : Dialect} : FailsBy Error.IsRefusal (s.render d) := by
  have hkept : Fragment.Kept fun _ => True := by constructor <;> intros <;> trivial
  have hwrites : Writes d (fun _ => True) (fun _ => True) :=
    { hkept with parameter _ := trivial, function _ := trivial, minus _ _ _ := trivial }
  have hfragment := s.orRefused_fragment hwrites fun _ _ _ _ => trivial
  exact (hfragment.andThen (Q := fun _ => True) fun _ _ => trivial).failsBy

end Sql

end QueryLowering
