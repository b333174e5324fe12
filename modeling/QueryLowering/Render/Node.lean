import QueryLowering.Render.Clause

/-!
# Written trees

The written form of every node of a SQL tree, from the forms of its parts.
-/

namespace QueryLowering

namespace Sql

/-- The queries of a union, each in parentheses, with the way they are combined between them. -/
def unionText : List (UnionKind × Result Fragment) → Result Fragment
  | [] => pure ⟨[], []⟩
  | (_, first) :: rest => do
    let first ← first
    let rest ← rest.mapM fun (kind, query) => do
      return (if kind = .union then " UNION " else " UNION ALL ") ++ (← query).parens
    return first.parens ++ .join "" rest

/-- The name of the table that a relation is. -/
def Relation.tableName? : Relation → Option TableName
  | .table t => some t.name
  | _ => none

variable (d : Dialect)

mutual

/-- The form of a node. -/
def Node.form : Node → Form
  | .column a name => .atom (pure ((a.text ++ ".") ++ .identifier name))
  | .literal l => .literal d l
  | .parameter name v => .atom (pure (.parameter name v))
  | .list items => .atom do return (← Form.valueList d (nodeForms items)).parens
  | .binary op l r => .binary d op l.form r.form
  | .unary op e => .unary d op e.form
  | .isNull e negated => .nullTest d e.form negated
  | .inValues e vs negated => .membership d e.form (nodeForms vs) negated
  | .existence q => .test do return "EXISTS " ++ (← q.text true).parens
  | .choice t a b => .choice d t.form a.form b.form
  | .function name args => .function d name (nodeForms args)
  | .aggregate f arg => .aggregate d f (optionForm arg)
  | .cast e t => .cast d e.form t
  | .datePart p e => .datePart d p e.form
  | .dateAdd p a e => .dateAdd d p a.form e.form
  | .dateDiff p a b => .dateDiff d p a.form b.form
  | .subquery q => .atom do return (← q.text true).parens
  | .derived q => .atom do return (← q.text true).parens
  | .composite entries => .composite d (entryForms entries)
  | .placeholder => notAValue .placeholder
  | .table t => notAValue (.table t)
  | .select s => notAValue (.select s)
  | .union items => notAValue (.union items)
  | .source a => notAValue (.source a)
  | .grouping key element => notAValue (.grouping key element)
  | .rows q => notAValue (.rows q)
  | .update u => notAValue (.update u)
  | .delete q => notAValue (.delete q)
where
  notAValue (n : Node) : Form := .atom (throw (Form.notAValue n.kindName))

/-- The forms of some nodes. -/
def nodeForms : List Node → List Form
  | [] => []
  | n :: rest => n.form :: nodeForms rest

/-- The form of a node, if there is one. -/
def optionForm : Option Node → Option Form
  | none => none
  | some n => some n.form

/-- The forms of the nodes at some paths. -/
def entryForms : List (Path × Node) → List Form
  | [] => []
  | (_, n) :: rest => n.form :: entryForms rest

/-- The forms of the parts of a select. -/
def Select.form : Select → SelectForm
  | { sources, filter, groupBy, having, orderBy, top, skip, distinct, ctes, .. } =>
    { ctes := cteForms ctes
      sources := sourceForms sources
      filter := optionForm filter
      groupBy := optionForm groupBy
      having := optionForm having
      orderBy := orderForms orderBy
      top := optionForm top
      skip := optionForm skip
      distinct }

/-- A query, possibly inside another one. -/
def Derived.text (nested : Bool) : Derived → Result Fragment
  | { select, columns, .. } => select.form.text d nested (columnForms columns)

/-- The forms of some output columns, with their names. -/
def columnForms : List OutputColumn → List (Form × String)
  | [] => []
  | { name, expr, .. } :: rest => (expr.form, name) :: columnForms rest

/-- The forms of some common table expressions. -/
def cteForms : List Cte → List CteForm
  | [] => []
  | { name, anchor, recursive } :: rest =>
    { name
      columns := anchor.columns.map (·.name)
      anchor := anchor.text true
      recursive := optionText recursive } :: cteForms rest

/-- A query, if there is one. -/
def optionText : Option Derived → Option (Result Fragment)
  | none => none
  | some q => some (q.text true)

/-- The forms of some data sources. -/
def sourceForms : List DataSource → List SourceForm
  | [] => []
  | { name, relation, join, .. } :: rest =>
    { name
      table := relation.tableName?
      relation := relation.text
      join := joinForm join } :: sourceForms rest

/-- The form of a join, if there is one. -/
def joinForm : Option Join → Option (JoinKind × Option Form)
  | none => none
  | some { kind, condition } => some (kind, optionForm condition)

/-- What a data source reads. -/
def Relation.text : Relation → Result Fragment
  | .table t => pure t.name.text
  | .derived q => do return (← q.text true).parens
  | .union items => do return (← unionText (itemTexts items)).parens
  | .cte a _ => pure (cteName a)

/-- The queries of a union. -/
def itemTexts : List UnionItem → List (UnionKind × Result Fragment)
  | [] => []
  | { query, kind } :: rest => (kind, query.text true) :: itemTexts rest

/-- The forms of the keys of an ordering. -/
def orderForms : List OrderItem → List (Form × Bool)
  | [] => []
  | { expr, descending } :: rest => (expr.form, descending) :: orderForms rest

end

end Sql

end QueryLowering
