import QueryLowering.Proofs.Reader

/-!
# The grouping of written expressions

An expression is written with parentheses only where a reader would group it in another way without them.
Reading the words of a written expression therefore gives its operator tree back, in the place of a value as
in the place of a condition. The tree shows the tests and choices with which a dialect puts a condition in
the place of a value and a value in the place of a condition, and how chains of one connective are grouped
makes no difference.

## Main results

* `Form.readsAs_binary`, `Form.readsAs_unary`, `Form.readsAs_membership`, …: one lemma for each way in which
  expressions are put together.
* `Form.sign_inj`: which operators a tree tells apart.
* `read_written`: expressions are read as their trees.
-/

namespace QueryLowering

open Sql Reader Result List
open Fragment (lexemes_append lexemes_raw)

variable {fm fm' : Form} {fms : List Form} {name text : String} {t : Tree} {parent : Precedence} {op : BinaryOperator}

/-! ## Trees of expressions -/

/-- The operator tree of an expression that is a condition, a known truth value, or another value. -/
inductive TreeForm where
  | condition (t : Tree)
  | boolean (b : Bool)
  | value (t : Tree)

namespace TreeForm

variable (d : Dialect)

/-- The tree in the place of a value. -/
def asValue : TreeForm → Tree
  | condition t =>
    match d with
    | .sqlServer => .choice t (.word "1") (.word "0")
    | .postgres => t
  | boolean b =>
    match d with
    | .sqlServer => .word (if b then "1" else "0")
    | .postgres => .word (if b then "TRUE" else "FALSE")
  | value t => t

/-- The tree in the place of a condition. -/
def asCondition : TreeForm → Tree
  | condition t => t
  | boolean b =>
    match d with
    | .sqlServer => .binary "=" (.word "1") (.word (if b then "1" else "0"))
    | .postgres => .word (if b then "TRUE" else "FALSE")
  | value t =>
    match d with
    | .sqlServer => .binary "=" t (.word "1")
    | .postgres => t

/-- A number; a sign in front of it is a negation. -/
def number (text : String) : Tree :=
  match text.toList with
  | '-' :: digits => .negate (.word (String.ofList digits))
  | _ => .word text

/-- A literal. -/
def literal : Literal → TreeForm
  | .null => value (.word "NULL")
  | .bool b => boolean b
  | .int n => value (number (toString n))
  | .float x => value (number (FloatLayout.query.write x))
  | .string s => value (.leaf [.string s])
  | .dateTime t =>
    match d with
    | .sqlServer => value (.word (Dialect.sqlServer.dateTime t))
    | .postgres =>
      value (.leaf [.word "TIMESTAMP", .word (Quoted.string (t.dateText ++ " " ++ t.clockText ++ t.fractionText))])

/-- A binary operation. -/
def binary (op : BinaryOperator) (left right : TreeForm) : TreeForm :=
  match op with
  | .and | .or => condition (.connect (Form.sign d op) (left.asCondition d) (right.asCondition d))
  | .eq | .notEq | .lt | .ltEq | .gt | .gtEq | .like =>
    condition (.binary (Form.sign d op) (left.asValue d) (right.asValue d))
  | .plus | .minus | .multiply | .divide | .modulo | .concat =>
    value (.binary (Form.sign d op) (left.asValue d) (right.asValue d))

/-- A unary operation. -/
def unary (op : UnaryOperator) (e : TreeForm) : TreeForm :=
  match op with
  | .not => condition (.not (e.asCondition d))
  | .minus => value (.negate (e.asValue d))

/-- A function without arguments that is not written as a call of its name. -/
def niladic? : String → Option Tree
  | "CURRENT_TIMESTAMP" =>
    match d with
    | .sqlServer => some (.call "GETDATE" [])
    | .postgres => some (.word "CURRENT_TIMESTAMP")
  | "CURRENT_UTC_TIMESTAMP" =>
    match d with
    | .sqlServer => some (.call "GETUTCDATE" [])
    | .postgres =>
      some (.leaf [.word "CURRENT_TIMESTAMP", .word "AT", .word "TIME", .word "ZONE", .word (Quoted.string "UTC")])
  | "CURRENT_DATE" =>
    match d with
    | .sqlServer => some (.cast (.call "GETDATE" []) (.word "DATE"))
    | .postgres => some (.word "CURRENT_DATE")
  | _ => none

/-- A function of some values. -/
def function (name : String) (args : List TreeForm) : TreeForm :=
  match args, niladic? d name with
  | [], some t => value t
  | args, _ => value (.call (d.functionName name) (args.map (asValue d)))

/-- An aggregate. -/
def aggregate (f : AggregateFunction) (arg : Option TreeForm) : TreeForm :=
  value (.call (Form.aggregateName d f) [arg.elim (.word "*") (asValue d)])

/-- A column type. -/
def type (t : DataType) : Tree :=
  match d, t with
  | .sqlServer, .decimal => .call "DECIMAL" [.word "38", .word "10"]
  | .sqlServer, .text => .call "NVARCHAR" [.word "MAX"]
  | .postgres, .float => .leaf [.word "DOUBLE", .word "PRECISION"]
  | d, t => .word (d.dataType t)

end TreeForm

namespace Sql

/-- An expression that is built from columns, literals, parameters, calls of named functions, aggregates,
choices, conversions, tests for membership in lists that are not empty, tests for null, and operators. -/
inductive Node.Expression : Node → Prop
  | column (a : Alias) (name : String) : Expression (.column a name)
  | literal (l : Literal) : Expression (.literal l)
  | parameter (name : String) (v : Value) : Expression (.parameter name v)
  | function {name : String} {args : List Node} : isName name = true → (∀ n ∈ args, Expression n) →
      Expression (.function name args)
  | aggregate {f : AggregateFunction} {arg : Option Node} : (∀ n ∈ arg, Expression n) → Expression (.aggregate f arg)
  | choice {t a b : Node} : Expression t → Expression a → Expression b → Expression (.choice t a b)
  | cast {e : Node} {type : DataType} : Expression e → Expression (.cast e type)
  | inValues {e : Node} {values : List Node} {negated : Bool} : Expression e → values ≠ [] →
      (∀ n ∈ values, Expression n) → Expression (.inValues e values negated)
  | isNull {e : Node} {negated : Bool} : Expression e → Expression (.isNull e negated)
  | unary {op : UnaryOperator} {e : Node} : Expression e → Expression (.unary op e)
  | binary {op : BinaryOperator} {l r : Node} : Expression l → Expression r → Expression (.binary op l r)

/-- The functions that values are made with can be called by their names. -/
example : functionNames.all isName = true := by decide

variable (d : Dialect)

mutual

/-- The operator tree of an expression. -/
def Node.treeForm : Node → TreeForm
  | .column a name => .value (.leaf [.word a.text, .word ".", .identifier name])
  | .literal l => .literal d l
  | .parameter name _ => .value (.leaf [.parameter name])
  | .function name args => .function d name (treeForms args)
  | .aggregate f arg => .aggregate d f (optionTreeForm arg)
  | .choice t a b => .value (.choice (t.treeForm.asCondition d) (a.treeForm.asValue d) (b.treeForm.asValue d))
  | .cast e t => .value (.cast (e.treeForm.asValue d) (TreeForm.type d t))
  | .inValues e vs negated =>
    .condition (.member (e.treeForm.asValue d) ((treeForms vs).map (TreeForm.asValue d)) negated)
  | .isNull e negated => .condition (.isNull (e.treeForm.asValue d) negated)
  | .unary op e => .unary d op e.treeForm
  | .binary op l r => .binary d op l.treeForm r.treeForm
  | _ => .value (.leaf [])

/-- The operator trees of some expressions. -/
def treeForms : List Node → List TreeForm
  | [] => []
  | n :: rest => n.treeForm :: treeForms rest

/-- The operator tree of an expression, if there is one. -/
def optionTreeForm : Option Node → Option TreeForm
  | none => none
  | some n => some n.treeForm

end

end Sql

/-! ## Written expressions -/

/-- A written expression is read as a tree. A condition is read at its own level. A value holds together at
least like a sum, and it is read at its own level as far as a negation asks for it. -/
def Form.ReadsAs : Form → TreeForm → Prop
  | condition level text, .condition t => ∀ f, text = .ok f → Spells level.rank f.lexemes t
  | boolean b, .boolean b' => b = b'
  | value level text, .value t => 5 ≤ level.rank ∧ ∀ f, text = .ok f → Spells (min level.rank 7) f.lexemes t
  | _, _ => False

namespace Form

variable {d : Dialect} {tf tf' : TreeForm} {f : Fragment}
variable {tfs : List TreeForm}

theorem lexemes_parens (f : Fragment) : f.parens.lexemes = .keyword .opening :: (f.lexemes ++ [.keyword .closing]) := by
  simp only [Fragment.parens, lexemes_append, lexemes_raw]
  rfl

/-- A value that needs no parentheses anywhere. -/
theorem readsAs_atom {text : Result Fragment} (h : ∀ f, text = .ok f → Spells 7 f.lexemes t) :
    (atom text).ReadsAs (.value t) := ⟨by decide, h⟩

/-- A value that is written in one way only. -/
theorem readsAs_pure (h : Spells 7 f.lexemes t) : (atom (pure f)).ReadsAs (.value t) := by
  refine readsAs_atom fun g hg => ?_
  rw [pure_eq_ok] at hg
  exact hg ▸ h

/-! ### Places -/

theorem ReadsAs.asValue (h : fm.ReadsAs tf) (hf : fm.asValue d = .ok f) :
    Spells (min fm.valueLevel.rank 7) f.lexemes (tf.asValue d) := by
  cases fm with
  | condition level text =>
    cases tf with
    | boolean _ | value _ => exact h.elim
    | condition t =>
      simp only [Form.asValue, bind_eq_ok, pure_eq_ok] at hf
      obtain ⟨g, hg, rfl⟩ := hf
      cases d with
      | sqlServer =>
        have hlexemes : (Dialect.sqlServer.predicateValue g).lexemes =
            .keyword .caseWord :: .keyword .whenWord :: (g.lexemes ++ .keyword .thenWord ::
              ([.atom (.word "1")] ++ .keyword .elseWord :: ([.atom (.word "0")] ++ [.keyword .endWord]))) := by
          simp only [Dialect.predicateValue, lexemes_append, lexemes_raw]
          rfl
        rw [hlexemes]
        have hdigit : ∀ digit, Spells 0 [.atom (.word digit)] (.word digit) := fun _ => .atom _
        exact .choice (h g hg) (hdigit "1") (hdigit "0")
      | postgres =>
        rw [Dialect.predicateValue, lexemes_parens]
        exact (h g hg).parens
  | boolean b =>
    cases tf with
    | condition _ | value _ => exact h.elim
    | boolean b' =>
      simp only [Form.asValue, pure_eq_ok] at hf
      obtain rfl : b = b' := h
      subst hf
      rw [lexemes_raw]
      cases d <;> cases b <;> exact .atom _
  | value level text =>
    cases tf with
    | condition _ | boolean _ => exact h.elim
    | value t => exact h.2 f hf
  | leaves texts => cases tf <;> exact h.elim

/-- The number one behind the sign of an equation. -/
theorem spells_equalsOne {ls : List Lexeme} (h : Spells 4 ls t) :
    Spells 4 (ls ++ lex " = 1") (.binary "=" t (.word "1")) :=
  .binary (by decide) rfl (by decide) (by decide) h (.atom _)

theorem ReadsAs.asCondition (h : fm.ReadsAs tf) (hf : fm.asCondition d = .ok f) :
    Spells fm.conditionLevel.rank f.lexemes (tf.asCondition d) := by
  cases fm with
  | condition level text =>
    cases tf with
    | boolean _ | value _ => exact h.elim
    | condition t => exact h f hf
  | boolean b =>
    cases tf with
    | condition _ | value _ => exact h.elim
    | boolean b' =>
      simp only [Form.asCondition, pure_eq_ok] at hf
      obtain rfl : b = b' := h
      subst hf
      rw [lexemes_raw]
      cases d with
      | sqlServer =>
        have hone : ∀ digit, Spells 4 [.atom (.word "1"), .keyword (.sign "=" 4), .atom (.word digit)]
            (.binary "=" (.word "1") (.word digit)) := fun digit =>
          .binary (by decide) rfl (by decide) (by decide) (.atom _) (.atom _)
        cases b with
        | true => exact hone "1"
        | false => exact hone "0"
      | postgres => cases b <;> exact .atom _
  | value level text =>
    cases tf with
    | condition _ | boolean _ => exact h.elim
    | value t =>
      simp only [Form.asCondition, bind_eq_ok, pure_eq_ok] at hf
      obtain ⟨g, hg, rfl⟩ := hf
      have hvalue : Spells 4 g.lexemes t := (h.2 g hg).mono (by have := h.1; omega)
      cases d with
      | sqlServer =>
        rw [Dialect.truthy, lexemes_append, lexemes_raw]
        exact spells_equalsOne hvalue
      | postgres => exact hvalue
  | leaves texts => cases tf <;> exact h.elim

/-- An operand of an operator: on the right side it has to hold together more strongly than the operator. -/
theorem ReadsAs.operand (h : fm.ReadsAs tf) {right : Bool}
    (hparent : parent.rank + right.toNat ≤ 7) (hf : fm.operand d parent right = .ok f) :
    Spells (parent.rank + right.toNat) f.lexemes (tf.asValue d) := by
  simp only [Form.operand, bind_eq_ok, pure_eq_ok] at hf
  obtain ⟨g, hg, rfl⟩ := hf
  have hg := h.asValue hg
  split
  · rw [lexemes_parens]
    exact hg.parens
  · next hlevel =>
    simp only [Bool.or_eq_true, decide_eq_true_eq, Bool.and_eq_true, beq_iff_eq, not_or, not_and, not_lt] at hlevel
    refine hg.mono ?_
    cases right with
    | true =>
      have := hlevel.2 rfl
      simp only [Bool.toNat_true] at hparent ⊢
      omega
    | false =>
      simp only [Bool.toNat_false] at hparent ⊢
      omega

theorem ReadsAs.conditionOperand (h : fm.ReadsAs tf)
    (hf : fm.conditionOperand d parent = .ok f) : Spells parent.rank f.lexemes (tf.asCondition d) := by
  simp only [Form.conditionOperand, bind_eq_ok, pure_eq_ok] at hf
  obtain ⟨g, hg, rfl⟩ := hf
  have hg := h.asCondition hg
  split
  · rw [lexemes_parens]
    exact hg.parens
  · next hlevel => exact hg.mono (Nat.le_of_not_lt hlevel)

theorem lexemes_join (fs : List Fragment) : (Fragment.join ", " fs).lexemes = commas (fs.map Fragment.lexemes) := by
  fun_induction Fragment.join ", " fs with
  | case1 => rfl
  | case2 f => simp [commas]
  | case3 f g rest ih =>
    rw [lexemes_append, lexemes_append, ih, lexemes_raw]
    simp only [commas, map_cons, List.intercalate, intersperse_cons_cons, flatten_cons,
      append_assoc]
    rfl

theorem spells_valueList (h : List.Forall₂ ReadsAs fms tfs) (hf : valueList d fms = .ok f) :
    ∃ lists, f.lexemes = commas lists ∧ List.Forall₂ (Spells 0) lists (tfs.map (TreeForm.asValue d)) := by
  simp only [valueList, bind_eq_ok, pure_eq_ok] at hf
  obtain ⟨fs, hfs, rfl⟩ := hf
  refine ⟨fs.map Fragment.lexemes, lexemes_join fs, ?_⟩
  rw [mapM_eq_ok] at hfs
  induction h generalizing fs with
  | nil =>
    cases hfs
    exact .nil
  | cons hfm _ ih =>
    cases hfs with
    | cons hg hgs => exact .cons ((hfm.asValue hg).mono (Nat.zero_le _)) (ih _ hgs)

/-! ### Operators -/

theorem lex_sign (d : Dialect) (op : BinaryOperator) :
    lex (sign d op) = [.keyword (.sign (sign d op) (Precedence.ofOperator op).rank)] := by
  cases d <;> cases op <;> rfl

/-- Trees name operators by their signs, and these tell them apart. Only SQL Server writes concatenations as sums. -/
theorem sign_inj {d : Dialect} {op op' : BinaryOperator} (h : sign d op = sign d op') :
    op = op' ∨ d = .sqlServer ∧ (op = .plus ∧ op' = .concat ∨ op = .concat ∧ op' = .plus) := by
  cases d <;> cases op <;> cases op' <;> first
    | exact .inl rfl
    | exact .inr (by decide)
    | exact absurd h (by decide)

/-- The words of two operands with a sign between them. -/
theorem lexemes_spaced (op : BinaryOperator) (a b : Fragment) :
    (a ++ (Fragment.raw " " ++ Fragment.raw (sign d op) ++ Fragment.raw " ") ++ b).lexemes =
      a.lexemes ++ .keyword (.sign (sign d op) (Precedence.ofOperator op).rank) :: b.lexemes := by
  have hblank : lex " " = [] := rfl
  simp only [lexemes_append, lexemes_raw, lex_sign, hblank, nil_append, append_nil,
    append_assoc, singleton_append]

theorem spells_connectiveText (hop : connects op = true) (h : fm.ReadsAs tf)
    (h' : fm'.ReadsAs tf') (hf : binaryText d op fm fm' = .ok f) : Spells (Precedence.ofOperator op).rank f.lexemes
      (.connect (sign d op) (tf.asCondition d) (tf'.asCondition d)) := by
  have hsign : connective? (Precedence.ofOperator op).rank = some (sign d op) := by
    cases op with
    | and | or => rfl
    | _ => cases hop
  simp only [binaryText, hop, ↓reduceIte, bind_eq_ok, pure_eq_ok] at hf
  obtain ⟨a, ha, b, hb, rfl⟩ := hf
  rw [lexemes_spaced]
  exact .connect hsign (h.conditionOperand ha) (h'.conditionOperand hb)

theorem spells_operatorText (hop : connects op = false) (h : fm.ReadsAs tf)
    (h' : fm'.ReadsAs tf') (hf : binaryText d op fm fm' = .ok f) :
    Spells (Precedence.ofOperator op).rank f.lexemes (.binary (sign d op) (tf.asValue d) (tf'.asValue d)) := by
  have hsign : ¬ (sign d op = "AND" ∨ sign d op = "OR") := by
    cases op with
    | and | or => cases hop
    | _ => cases d <;> decide
  have hrank : connective? (Precedence.ofOperator op).rank = none ∧ (Precedence.ofOperator op).rank ≠ 3 ∧
      (Precedence.ofOperator op).rank < 7 := by
    cases op with
    | and | or => cases hop
    | _ => decide
  obtain ⟨hconnective, hnot, hneg⟩ := hrank
  simp only [binaryText, hop, Bool.false_eq_true, ↓reduceIte, bind_eq_ok, pure_eq_ok] at hf
  obtain ⟨a, ha, b, hb, rfl⟩ := hf
  rw [lexemes_spaced]
  have ha := h.operand (by simp only [Bool.toNat_false]; omega) ha
  have hb := h'.operand (by simp only [Bool.toNat_true]; omega) hb
  exact .binary hsign hconnective hnot (by omega) ha hb

/-- A binary operation is read as that of the trees of its operands. -/
theorem readsAs_binary (op : BinaryOperator) (h : fm.ReadsAs tf) (h' : fm'.ReadsAs tf') :
    (binary d op fm fm').ReadsAs (.binary d op tf tf') := by
  cases op with
  | and | or => exact fun f hf => spells_connectiveText rfl h h' hf
  | eq | notEq | lt | ltEq | gt | gtEq | like => exact fun f hf => spells_operatorText rfl h h' hf
  | plus | minus | concat | multiply | divide | modulo =>
    exact ⟨by decide, fun f hf => spells_operatorText rfl h h' hf⟩

/-- A negation is read as that of the tree of its operand. -/
theorem readsAs_unary (op : UnaryOperator) (h : fm.ReadsAs tf) : (unary d op fm).ReadsAs (.unary d op tf) := by
  cases op with
  | not =>
    intro f hf
    simp only [bind_eq_ok, pure_eq_ok] at hf
    obtain ⟨g, hg, rfl⟩ := hf
    rw [lexemes_append, lexemes_raw]
    exact (h.conditionOperand hg).not
  | minus =>
    refine ⟨by decide, fun f hf => ?_⟩
    simp only [bind_eq_ok, pure_eq_ok] at hf
    obtain ⟨g, hg, rfl⟩ := hf
    rw [lexemes_append, lexemes_raw]
    exact Spells.negate (h.operand (by decide) hg)

/-! ### Tests, choices and conversions -/

theorem readsAs_nullTest (negated : Bool) (h : fm.ReadsAs tf) :
    (nullTest d fm negated).ReadsAs (.condition (.isNull (tf.asValue d) negated)) := by
  intro f hf
  simp only [bind_eq_ok, pure_eq_ok] at hf
  obtain ⟨g, hg, rfl⟩ := hf
  have hg : Spells 4 g.lexemes (tf.asValue d) := (h.operand (by decide) hg).mono (by decide)
  have hwords : lex (if negated then " IS NOT NULL" else " IS NULL") = nullWords negated := by cases negated <;> rfl
  rw [lexemes_append, lexemes_raw, hwords]
  exact hg.isNull negated

/-- A membership test is read as that of the trees. -/
theorem readsAs_membership (negated : Bool) (h : fm.ReadsAs tf)
    (hne : fms ≠ []) (hfms : List.Forall₂ ReadsAs fms tfs) : (membership d fm fms negated).ReadsAs
      (.condition (.member (tf.asValue d) (tfs.map (TreeForm.asValue d)) negated)) := by
  rw [membership, if_neg (by simpa using hne)]
  intro f hf
  simp only [bind_eq_ok, pure_eq_ok] at hf
  obtain ⟨g, hg, vs, hvs, rfl⟩ := hf
  have hg : Spells 4 g.lexemes (tf.asValue d) := (h.operand (by decide) hg).mono (by decide)
  obtain ⟨lists, hlexemes, hlists⟩ := spells_valueList hfms hvs
  have hlists_ne : lists ≠ [] := by
    rintro rfl
    cases hfms with
    | nil => exact hne rfl
    | cons _ _ => cases hlists
  have hwords : lex (if negated then " NOT IN (" else " IN (") = memberWords negated ++ [.keyword .opening] := by
    cases negated <;> rfl
  have hmember := hg.member hlists hlists_ne negated
  simp only [lexemes_append, lexemes_raw, hwords, hlexemes, append_assoc] at hmember ⊢
  exact hmember

theorem readsAs_choice {test : Form} {tt : TreeForm} (ht : test.ReadsAs tt) (h : fm.ReadsAs tf)
    (h' : fm'.ReadsAs tf') : (choice d test fm fm').ReadsAs
      (.value (.choice (tt.asCondition d) (tf.asValue d) (tf'.asValue d))) := by
  refine readsAs_atom fun f hf => ?_
  simp only [bind_eq_ok, pure_eq_ok] at hf
  obtain ⟨t, htest, a, ha, b, hb, rfl⟩ := hf
  simp only [lexemes_append, lexemes_raw, append_assoc]
  exact .choice (ht.asCondition htest) (h.asValue ha) (h'.asValue hb)

theorem spells_type (t : DataType) : Spells 0 (lex (d.dataType t)) (TreeForm.type d t) := by
  have hword : ∀ text, Spells 0 [.atom (.word text)] (.word text) := fun _ => .atom _
  cases d with
  | sqlServer =>
    cases t with
    | decimal => exact .call (.cons (hword "38") (.cons (hword "10") .nil))
    | text => exact .call (.cons (hword "MAX") .nil)
    | _ => exact hword _
  | postgres =>
    cases t with
    | float => exact .leaf (.word "DOUBLE") [.word "PRECISION"]
    | _ => exact hword _

theorem readsAs_cast (t : DataType) (h : fm.ReadsAs tf) :
    (cast d fm t).ReadsAs (.value (.cast (tf.asValue d) (TreeForm.type d t))) := by
  refine readsAs_atom fun f hf => ?_
  simp only [bind_eq_ok, pure_eq_ok] at hf
  obtain ⟨g, hg, rfl⟩ := hf
  simp only [lexemes_append, lexemes_raw, append_assoc]
  exact .cast ((h.asValue hg).mono (Nat.zero_le _)) (spells_type t)

/-! ### Calls -/

theorem lexemes_call (hname : lex name = [.atom (.word name)]) (f : Fragment) :
    (Fragment.raw name ++ f.parens).lexemes =
      .atom (.word name) :: .keyword .opening :: (f.lexemes ++ [.keyword .closing]) := by
  rw [lexemes_append, lexemes_raw, hname, lexemes_parens, singleton_append]

theorem isName_functionName (h : isName name = true) : isName (d.functionName name) = true := by
  unfold Dialect.functionName
  split
  · rfl
  · rfl
  · exact h

theorem spells_niladic (htext : d.niladic? name = some text) :
    ∃ t, TreeForm.niladic? d name = some t ∧ Spells 7 (lex text) t := by
  have hword : ∀ text, Spells 0 [.atom (.word text)] (.word text) := fun _ => .atom _
  have hcall : ∀ rank name, Spells rank [.atom (.word name), .keyword .opening, .keyword .closing] (.call name []) :=
    fun rank name => .call (.nil : List.Forall₂ (Spells 0) [] [])
  unfold Dialect.niladic? at htext
  split at htext <;> cases htext
  · exact ⟨_, rfl, hcall 7 "GETDATE"⟩
  · exact ⟨_, rfl, hcall 7 "GETUTCDATE"⟩
  · exact ⟨_, rfl, .cast (hcall 0 "GETDATE") (hword "DATE")⟩
  · exact ⟨_, rfl, .atom _⟩
  · have hleaf : Spells 0 _ _ := .leaf (.word "CURRENT_TIMESTAMP")
      [.word "AT", .word "TIME", .word "ZONE", .word (Quoted.string "UTC")]
    exact ⟨_, rfl, hleaf.parens⟩
  · exact ⟨_, rfl, .atom _⟩

theorem niladic?_eq_none (h : d.niladic? name = none) : TreeForm.niladic? d name = none := by
  unfold TreeForm.niladic?
  split
  · cases d <;> cases h
  · cases d <;> cases h
  · cases d <;> cases h
  · rfl

theorem readsAs_call (hname : isName name = true) (h : List.Forall₂ ReadsAs fms tfs) :
    (atom do return d.functionName name ++ (← valueList d fms).parens).ReadsAs
      (.value (.call (d.functionName name) (tfs.map (TreeForm.asValue d)))) := by
  refine readsAs_atom fun f hf => ?_
  simp only [bind_eq_ok, pure_eq_ok] at hf
  obtain ⟨g, hg, rfl⟩ := hf
  obtain ⟨lists, hlexemes, hlists⟩ := spells_valueList h hg
  rw [lexemes_call (lex_name (isName_functionName hname)), hlexemes]
  exact .call hlists

theorem readsAs_function (hname : isName name = true)
    (h : List.Forall₂ ReadsAs fms tfs) : (function d name fms).ReadsAs (.function d name tfs) := by
  cases h with
  | cons hfm hfms => exact readsAs_call hname (.cons hfm hfms)
  | nil =>
    cases hniladic : d.niladic? name with
    | some text =>
      obtain ⟨t, ht, hspells⟩ := spells_niladic hniladic
      simp only [function, TreeForm.function, hniladic, ht]
      refine readsAs_pure ?_
      rw [lexemes_raw]
      exact hspells
    | none =>
      simp only [function, TreeForm.function, hniladic, niladic?_eq_none hniladic]
      exact readsAs_call hname .nil

theorem readsAs_aggregate (function : AggregateFunction) {arg : Option Form} {tf? : Option TreeForm}
    (h : Option.Rel ReadsAs arg tf?) : (aggregate d function arg).ReadsAs (.aggregate d function tf?) := by
  refine readsAs_atom fun f hf => ?_
  simp only [bind_eq_ok, pure_eq_ok] at hf
  obtain ⟨g, hg, rfl⟩ := hf
  have hname : lex (aggregateName d function) = [.atom (.word (aggregateName d function))] := by
    cases d <;> cases function <;> rfl
  have harg : Spells 0 g.lexemes (tf?.elim (.word "*") (TreeForm.asValue d)) := by
    cases h with
    | some h => exact (h.asValue hg).mono (Nat.zero_le _)
    | none =>
      rw [aggregateArgument] at hg
      split at hg
      · rw [pure_eq_ok] at hg
        subst hg
        rw [lexemes_raw]
        exact .keyword rfl
      · exact absurd hg throw_ne_ok
  have hlist : g.lexemes = commas [g.lexemes] := by simp [commas]
  rw [lexemes_call hname, hlist]
  exact .call (.cons harg .nil)

/-! ### Literals and columns -/

/-- A number, behind a sign or not. -/
theorem spells_number {cs : List Char} (hcs : Numeral cs)
    (htext : text.toList = cs ∨ text.toList = '-' :: cs) : Spells 7 (lex text) (TreeForm.number text) := by
  obtain ⟨c, rest, hchars, hc⟩ := hcs.head_ne
  rcases htext with htext | htext
  · have hnumber : TreeForm.number text = .word text := by
      rw [TreeForm.number, htext, hchars]
      split
      · next heq => exact absurd (List.cons.inj heq).1 hc
      · rfl
    rw [hnumber, lex_numeral (htext ▸ hcs)]
    exact .atom _
  · have hdigits : (String.ofList cs).toList = cs := String.toList_ofList
    have hnumber : TreeForm.number text = .negate (.word (String.ofList cs)) := by
      rw [TreeForm.number, htext]
      rfl
    have hlex : lex text = .keyword (.sign "-" 5) :: lex (String.ofList cs) := lex_minus (by rw [htext, hdigits])
    rw [hnumber, hlex, lex_numeral (hdigits.symm ▸ hcs)]
    exact Spells.negate (.atom _)

theorem spells_dateTime (t : DateTime) :
    ∃ tree, TreeForm.literal d (.dateTime t) = .value tree ∧ Spells 7 (lex (d.dateTime t)) tree := by
  cases d with
  | sqlServer =>
    refine ⟨_, rfl, ?_⟩
    rw [Dialect.dateTime, lex_string]
    exact .atom _
  | postgres =>
    refine ⟨_, rfl, ?_⟩
    have hlex : ∀ text, lex ("TIMESTAMP " ++ Quoted.string text) =
        [.atom (.word "TIMESTAMP"), .atom (.word (Quoted.string text))] := fun text => by
      rw [← singleton_append, ← lex_string, lex, String.toList_append]
      rfl
    rw [Dialect.dateTime, hlex]
    exact .leaf (.word "TIMESTAMP") [.word (Quoted.string _)]

theorem readsAs_literal (l : Literal) : (literal d l).ReadsAs (.literal d l) := by
  cases l with
  | null =>
    refine readsAs_pure ?_
    rw [lexemes_raw]
    exact .keyword rfl
  | bool b => exact rfl
  | int n =>
    refine readsAs_pure ?_
    rw [lexemes_raw]
    have htext := toList_toString_int n
    split at htext
    · exact spells_number (numeral_toDigits _) (.inl htext)
    · exact spells_number (numeral_toDigits _) (.inr htext)
  | float x =>
    refine readsAs_atom fun f hf => ?_
    rw [floatText] at hf
    split at hf
    · rw [pure_eq_ok] at hf
      subst hf
      rw [lexemes_raw]
      obtain ⟨cs, hcs, htext⟩ := FloatLayout.write_query x
      exact spells_number hcs (htext.imp_right And.right)
    · exact absurd hf throw_ne_ok
  | string s => exact readsAs_pure (.atom _)
  | dateTime t =>
    obtain ⟨tree, htree, hspells⟩ := spells_dateTime (d := d) t
    rw [htree]
    refine readsAs_pure ?_
    rw [lexemes_raw]
    exact hspells

theorem readsAs_column (a : Alias) (name : String) :
    ((Node.column a name).form d).ReadsAs ((Node.column a name).treeForm d) := by
  rw [Node.form, Node.treeForm]
  refine readsAs_pure ?_
  simp only [lexemes_append, lexemes_raw, Fragment.lexemes_identifier, lex_alias]
  exact .leaf (.word a.text) [.word ".", .identifier name]

end Form

/-! ## Expressions -/

namespace Sql

variable {d : Dialect}

theorem readsAs_nodeForms {ns : List Node} (h : ∀ n ∈ ns, (n.form d).ReadsAs (n.treeForm d)) :
    List.Forall₂ Form.ReadsAs (nodeForms d ns) (treeForms d ns) := by
  induction ns with
  | nil => exact .nil
  | cons n ns ih =>
    rw [forall_mem_cons] at h
    exact .cons h.1 (ih h.2)

/-- A written expression is read as its tree. -/
theorem Node.Expression.readsAs {n : Node} (h : n.Expression) : (n.form d).ReadsAs (n.treeForm d) := by
  induction h with
  | column a name => exact Form.readsAs_column a name
  | literal l => exact Form.readsAs_literal l
  | parameter name v => exact Form.readsAs_pure (.atom _)
  | function hname _ ih => exact Form.readsAs_function hname (readsAs_nodeForms ih)
  | @aggregate f arg _ ih =>
    rw [Node.form, Node.treeForm]
    refine Form.readsAs_aggregate f ?_
    cases arg with
    | none => exact .none
    | some n => exact .some (ih n rfl)
  | choice _ _ _ iht iha ihb => exact Form.readsAs_choice iht iha ihb
  | cast _ ih => exact Form.readsAs_cast _ ih
  | @inValues e values negated _ hne _ ih ihvalues =>
    have hforms : nodeForms d values ≠ [] := by
      cases values with
      | nil => exact absurd rfl hne
      | cons _ _ => exact cons_ne_nil _ _
    exact Form.readsAs_membership _ ih hforms (readsAs_nodeForms ihvalues)
  | isNull _ ih => exact Form.readsAs_nullTest _ ih
  | unary _ ih => exact Form.readsAs_unary _ ih
  | binary _ _ ihl ihr => exact Form.readsAs_binary _ ihl ihr

end Sql

/-- Grouping survives writing. In both dialects, whenever an expression is written in the place of a value or
of a condition, a reader of its words finds its operator tree again: disjunctions bind most loosely, then
conjunctions, negations of conditions, comparisons and tests, sums, products, and negations of numbers, and
operators of one rank associate to the left. -/
theorem read_written (d : Dialect) (n : Node) (h : n.Expression) :
    (∀ f, (n.form d).asValue d = .ok f → read f.lexemes = some ((n.treeForm d).asValue d)) ∧
      ∀ f, (n.form d).asCondition d = .ok f → read f.lexemes = some ((n.treeForm d).asCondition d) :=
  ⟨fun _ hf => (h.readsAs.asValue hf).read, fun _ hf => (h.readsAs.asCondition hf).read⟩

namespace Sample

/-- A conjunction whose second term is one, of a truth value, a negated disjunction and a difference of
differences. -/
def conjunction : Node :=
  .binary .and (.column ⟨1⟩ "IsActive")
    (.binary .and
      (.unary .not (.binary .or (.binary .eq (.column ⟨1⟩ "Age") (.parameter "age" (.int 20)))
        (.isNull (.column ⟨1⟩ "Name") false)))
      (.binary .gt (.binary .minus (.column ⟨1⟩ "Age")
        (.binary .minus (.literal (.int (-5))) (.unary .minus (.column ⟨1⟩ "Age")))) (.literal (.int 0))))

theorem expression_conjunction : conjunction.Expression :=
  .binary (.column ..) (.binary (.unary (.binary (.binary (.column ..) (.parameter ..)) (.isNull (.column ..))))
    (.binary (.binary (.column ..) (.binary (.literal _) (.unary (.column ..)))) (.literal _)))

/-- The words of a column of the first data source. -/
def columnTree (name : String) : Tree := .leaf [.word "a1", .word ".", .identifier name]

/-- Only the disjunction and the difference on the right need parentheses. -/
theorem conjunction_read : ∃ f, (conjunction.form .sqlServer).asCondition .sqlServer = .ok f ∧
    f.text .sqlServer f.parameters =
      "a1.[IsActive] = 1 AND NOT (a1.[Age] = @age OR a1.[Name] IS NULL) AND a1.[Age] - (-5 - -a1.[Age]) > 0" ∧
    read f.lexemes = some (.chain "AND" [.binary "=" (columnTree "IsActive") (.word "1"),
      .not (.chain "OR" [.binary "=" (columnTree "Age") (.leaf [.parameter "age"]), .isNull (columnTree "Name") false]),
      .binary ">" (.binary "-" (columnTree "Age")
        (.binary "-" (.negate (.word "5")) (.negate (columnTree "Age")))) (.word "0")]) := by
  obtain ⟨f, hf, htext⟩ : ∃ f, (conjunction.form .sqlServer).asCondition .sqlServer = .ok f ∧
      f.text .sqlServer f.parameters =
        "a1.[IsActive] = 1 AND NOT (a1.[Age] = @age OR a1.[Name] IS NULL) AND a1.[Age] - (-5 - -a1.[Age]) > 0" :=
    exists_ok (by decide +kernel)
  exact ⟨f, hf, htext, (read_written .sqlServer conjunction expression_conjunction).2 f hf⟩

end Sample

end QueryLowering
