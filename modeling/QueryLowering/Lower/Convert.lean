import QueryLowering.Lower.Rule

/-!
# Lowering an expression

The value of a node comes from the values of its parts, which are lowered one after the other. Before
a part the rule of the node says what its parameters stand for, and after it what follows from its
value.
-/

namespace QueryLowering

open Sql Lower

/-- The lowering of a part: whether the node above goes on with it as a query, and its place there. -/
abbrev Visit : Type := Bool → Option Nat → Lower Node

/-- Lowers the part at a place. -/
def lowerPart (r : Rule) (p : Progress) (index : Nat) (part : Expr) (visit : Visit) :
    Lower (Progress × Node) := do
  if r.skipsParts then return (p, .placeholder)
  else
    let (p, bound) ← r.bindings p index part
    let chained := r.chains && index == 0
    let n ← withParameters bound (visit chained (some index))
    if chained then return (← r.receiveQuery p (← openQuery part n), .placeholder)
    else return (← r.receive p index part n, n)

/-- Lowers the parts from a place on. -/
def lowerParts (r : Rule) (p : Progress) (index : Nat) :
    List (Expr × Visit) → Lower (Progress × List Node)
  | [] => pure (p, [])
  | (part, visit) :: rest => do
    let (p, n) ← lowerPart r p index part visit
    let (p, ns) ← lowerParts r p (index + 1) rest
    return (p, n :: ns)

/-- Lowers a node by a rule. -/
def lowerBy (r : Rule) (e : Expr) (visits : List Visit) (chained : Bool) : Lower Node := do
  let (p, parts) ← lowerParts r {} 0 (e.children.zip visits)
  let n ← r.finish e p parts
  if r.producesQuery && !chained then closeQuery n else return n

/-- Lowers a node by the rule of the first recognizer that claims it. -/
def lowerNode (rs : List Recognizer) (e : Expr) (visits : List Visit) : Visit := fun chained index =>
  match rs.findSome? (·.rule? e) with
  | some r => withFrame ⟨r.name, e.kindName, index⟩ (lowerBy r e visits chained)
  | none => throw (.unsupported e.text)

/-- Lowers a tree in the place of a part. -/
def Expr.visit (rs : List Recognizer) : Expr → Visit := Expr.fold (lowerNode rs)

theorem Expr.visit_eq (rs : List Recognizer) (e : Expr) :
    e.visit rs = lowerNode rs e (e.children.map (Expr.visit rs)) :=
  Expr.fold_eq (lowerNode rs) e

/-- Lowers an expression. A query at the root is closed. -/
def Expr.lower (rs : List Recognizer) (e : Expr) : Lower Node := e.visit rs false none

end QueryLowering
