import QueryLowering.Expr.Basic

/-!
# Walking over expressions

All recursion over expressions is one fold: the result of a node comes from the node and the results
of its parts. Walks, searches, transformations and the lowering itself are folds.

## Main results

* `Expr.fold_eq` — the fold of a node in terms of the folds of its parts.
* `Expr.induction_on_children` — what holds of a node if it holds of its parts holds of every expression.
* `Expr.mapChildren_eq` — the parts that are replaced are those that a node lists, in their order.
* `Expr.transformUp_eq` — the parts are transformed, then the node.
-/

namespace QueryLowering

namespace Expr

section

variable {α : Type}

mutual

/-- The result of a tree, from the results of the parts of each node. -/
def fold (f : Expr → List α → α) : Expr → α
  | call method receiver args ty =>
    f (call method receiver args ty) (foldOption f receiver ++ foldList f args)
  | member target name ty => f (member target name ty) (foldOption f target)
  | binary op left right ty => f (binary op left right ty) [fold f left, fold f right]
  | unary op operand ty => f (unary op operand ty) [fold f operand]
  | conditional test ifTrue ifFalse ty =>
    f (conditional test ifTrue ifFalse ty) [fold f test, fold f ifTrue, fold f ifFalse]
  | constant value ty => f (constant value ty) []
  | captured name value ty => f (captured name value ty) []
  | parameter param => f (parameter param) []
  | lambda params body => f (lambda params body) [fold f body]
  | construct ty members => f (construct ty members) (foldMembers f members)
  | array element items => f (array element items) (foldList f items)
  | navigation source name ty => f (navigation source name ty) [fold f source]
  | childJoin source child condition result join ty =>
    f (childJoin source child condition result join ty)
      (fold f source :: fold f child :: (foldOption f condition ++ foldOption f result))
  | inValues item values negated => f (inValues item values negated) [fold f item, fold f values]

/-- The result of a part that may be absent. -/
def foldOption (f : Expr → List α → α) : Option Expr → List α
  | none => []
  | some e => [fold f e]

/-- The result of each part. -/
def foldList (f : Expr → List α → α) : List Expr → List α
  | [] => []
  | e :: rest => fold f e :: foldList f rest

/-- The result of each named part. -/
def foldMembers (f : Expr → List α → α) : List (String × Expr) → List α
  | [] => []
  | (_, e) :: rest => fold f e :: foldMembers f rest

end

theorem foldOption_eq (f : Expr → List α → α) (o : Option Expr) :
    foldOption f o = o.toList.map (fold f) := by
  cases o <;> simp [foldOption]

theorem foldList_eq (f : Expr → List α → α) (es : List Expr) :
    foldList f es = es.map (fold f) := by
  induction es with
  | nil => simp [foldList]
  | cons e rest ih => simp [foldList, ih]

theorem foldMembers_eq (f : Expr → List α → α) (ms : List (String × Expr)) :
    foldMembers f ms = (ms.map (·.2)).map (fold f) := by
  induction ms with
  | nil => simp [foldMembers]
  | cons m rest ih => simp [foldMembers, ih]

/-- The fold of a node in terms of the folds of its parts. -/
theorem fold_eq (f : Expr → List α → α) (e : Expr) : fold f e = f e (e.children.map (fold f)) := by
  cases e <;> simp [fold, children, foldOption_eq, foldList_eq, foldMembers_eq]

end

/-! ## Induction -/

theorem sizeOf_lt_of_mem_children {c e : Expr} (hc : c ∈ e.children) : sizeOf c < sizeOf e := by
  have option : ∀ {o : Option Expr}, c ∈ o.toList → sizeOf c < sizeOf o := by
    intro o ho
    obtain rfl := Option.mem_toList.1 ho
    simp
  have list : ∀ {es : List Expr}, c ∈ es → sizeOf c < sizeOf es := List.sizeOf_lt_of_mem
  cases e with
  | constant | captured | parameter => exact absurd hc List.not_mem_nil
  | construct ty members =>
    obtain ⟨⟨name, value⟩, hm, rfl⟩ := List.mem_map.1 hc
    have := List.sizeOf_lt_of_mem hm
    simp only [construct.sizeOf_spec, Prod.mk.sizeOf_spec] at this ⊢
    omega
  | _ =>
    simp only [children, List.mem_append, List.mem_cons, List.not_mem_nil, or_false] at hc
    simp only [call.sizeOf_spec, member.sizeOf_spec, binary.sizeOf_spec, unary.sizeOf_spec, conditional.sizeOf_spec,
      lambda.sizeOf_spec, array.sizeOf_spec, navigation.sizeOf_spec, childJoin.sizeOf_spec, inValues.sizeOf_spec]
    grind

/-- What holds of a node if it holds of its parts holds of every expression. -/
theorem induction_on_children {P : Expr → Prop} (hP : ∀ e, (∀ c ∈ e.children, P c) → P e) (e : Expr) :
    P e :=
  hP e fun c hc =>
    have := sizeOf_lt_of_mem_children hc
    induction_on_children hP c
termination_by sizeOf e

/-! ## Walks and searches -/

/-- All nodes of a tree, each before its parts. -/
def walk : Expr → List Expr := fold fun e parts => e :: parts.flatten

/-- What holds of all nodes of a tree holds of its root and of all nodes of its parts. -/
theorem forall_mem_walk {p : Expr → Prop} {e : Expr} :
    (∀ x ∈ e.walk, p x) ↔ p e ∧ ∀ c ∈ e.children, ∀ x ∈ c.walk, p x := by
  have hwalk : e.walk = e :: (e.children.map walk).flatten := fold_eq _ e
  rw [hwalk, List.forall_mem_cons]
  simp only [List.mem_flatten, List.mem_map]
  refine and_congr_right fun _ => ⟨fun h c hc x hx => h x ⟨_, ⟨c, hc, rfl⟩, hx⟩, ?_⟩
  rintro h x ⟨_, ⟨c, hc, rfl⟩, hx⟩
  exact h c hc x hx

/-- Whether a node of a tree satisfies a condition. -/
def any (p : Expr → Bool) : Expr → Bool := fold fun e parts => p e || parts.any id

/-- Whether a node is a parameter of a given name. -/
def isParameter (name : String) : Expr → Bool
  | parameter p => p.name == name
  | _ => false

/-- Whether a parameter of a given name occurs in a tree. -/
def mentions (name : String) : Expr → Bool := any (isParameter name)

/-! ## Transformations -/

section

variable {m : Type → Type} [Monad m]

/-- Replaces the parts of a node one after the other. -/
def mapChildren (f : Expr → m Expr) : Expr → m Expr
  | call method receiver args ty => return call method (← receiver.mapM f) (← args.mapM f) ty
  | member target name ty => return member (← target.mapM f) name ty
  | binary op left right ty => return binary op (← f left) (← f right) ty
  | unary op operand ty => return unary op (← f operand) ty
  | conditional test ifTrue ifFalse ty => return conditional (← f test) (← f ifTrue) (← f ifFalse) ty
  | constant value ty => return constant value ty
  | captured name value ty => return captured name value ty
  | parameter param => return parameter param
  | lambda params body => return lambda params (← f body)
  | construct ty members =>
    return construct ty (← members.mapM fun (name, value) => return (name, ← f value))
  | array element items => return array element (← items.mapM f)
  | navigation source name ty => return navigation (← f source) name ty
  | childJoin source child condition result join ty =>
    return childJoin (← f source) (← f child) (← condition.mapM f) (← result.mapM f) join ty
  | inValues item values negated => return inValues (← f item) (← f values) negated

/-- The parts that a node lists are replaced in their order, each kind of node in a case of its own. -/
theorem mapChildren_eq [LawfulMonad m] (f : Expr → m Expr) (e : Expr) :
    mapChildren f e = do return e.withChildren (← e.children.mapM f) := by
  cases e with
  | call method receiver args ty =>
    cases receiver with
    | none => simp only [mapChildren, Option.mapM_none, pure_bind]; rfl
    | some receiver => simp [mapChildren, children, withChildren, refill]
  | member target name ty => cases target <;> simp [mapChildren, children, withChildren, refill]
  | childJoin source child condition result join ty =>
    cases condition <;> cases result <;> simp [mapChildren, children, withChildren, refill]
  | construct ty members =>
    have hmembers : (members.mapM fun (name, value) => return (name, ← f value)) =
        do return (members.map (·.1)).zip (← (members.map (·.2)).mapM f) := by
      induction members with
      | nil => simp
      | cons member rest ih =>
        simp only [List.mapM_cons, List.map_cons, bind_assoc, pure_bind, ih]
        rfl
    simp only [mapChildren, hmembers, bind_assoc, pure_bind]
    rfl
  | array => rfl
  | _ => simp [mapChildren, children, withChildren]

/-- Runs steps one after the other. -/
def sequence {α : Type} : List (m α) → m (List α)
  | [] => pure []
  | s :: rest => do return (← s) :: (← sequence rest)

/-- Transforms a tree from its leaves up: the parts first, then the node with its new parts. -/
def transformUp (f : Expr → m Expr) : Expr → m Expr :=
  fold fun e parts => do f (e.withChildren (← sequence parts))

/-- Transforming a tree transforms the parts of a node, then the node with its new parts. -/
theorem transformUp_eq [LawfulMonad m] (f : Expr → m Expr) (e : Expr) :
    transformUp f e = mapChildren (transformUp f) e >>= f := by
  have sequence_map : ∀ es : List Expr, sequence (es.map (transformUp f)) = es.mapM (transformUp f) := by
    intro es
    induction es with
    | nil => simp [sequence]
    | cons e rest ih => simp [sequence, ih]
  unfold transformUp
  rw [fold_eq]
  change (do f (e.withChildren (← sequence (e.children.map (transformUp f))))) = _
  rw [sequence_map]
  simp only [mapChildren_eq, bind_assoc, pure_bind]
  rfl

end

/-- Transforms a tree from its leaves up by a function that cannot fail. -/
def mapUp (f : Expr → Expr) : Expr → Expr := fold fun e parts => f (e.withChildren parts)

/-- Mapping over a tree maps over the parts of a node, then applies the function to the node with
its new parts. -/
theorem mapUp_eq (f : Expr → Expr) (e : Expr) :
    mapUp f e = f (e.withChildren (e.children.map (mapUp f))) := by
  unfold mapUp
  rw [fold_eq]

/-! ## Equality -/

/-- Whether two nodes agree in everything but their parts. -/
def sameNode : Expr → Expr → Bool
  | call m r _ t, call m' r' _ t' => m == m' && r.isSome == r'.isSome && t == t'
  | member e n t, member e' n' t' => e.isSome == e'.isSome && n == n' && t == t'
  | binary o _ _ t, binary o' _ _ t' => o == o' && t == t'
  | unary o _ t, unary o' _ t' => o == o' && t == t'
  | conditional _ _ _ t, conditional _ _ _ t' => t == t'
  | constant v t, constant v' t' => v == v' && t == t'
  | captured n v t, captured n' v' t' => n == n' && v == v' && t == t'
  | parameter p, parameter p' => p == p'
  | lambda ps _, lambda ps' _ => ps == ps'
  | construct t ms, construct t' ms' => t == t' && ms.map (·.1) == ms'.map (·.1)
  | array t _, array t' _ => t == t'
  | navigation _ n t, navigation _ n' t' => n == n' && t == t'
  | childJoin _ _ c r j t, childJoin _ _ c' r' j' t' =>
    c.isSome == c'.isSome && r.isSome == r'.isSome && j == j' && t == t'
  | inValues _ _ n, inValues _ _ n' => n == n'
  | _, _ => false

/-- Whether each test accepts the expression at its place, with as many tests as expressions. -/
def acceptAll : List (Expr → Bool) → List Expr → Bool
  | [], [] => true
  | p :: ps, e :: es => p e && acceptAll ps es
  | _, _ => false

/-- Whether two trees are equal. -/
def beq : Expr → Expr → Bool :=
  fold fun e parts e' => sameNode e e' && acceptAll parts e'.children

instance : BEq Expr := ⟨beq⟩

end Expr

end QueryLowering
