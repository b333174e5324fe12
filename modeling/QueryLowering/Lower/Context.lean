import QueryLowering.Scope.Wrap

/-!
# The context of the lowering

While the arguments of a query operator are lowered, the select that it changes lies in the context,
where lambdas see its columns and navigations add joins to it. The context also knows the parameters
in scope and the nodes that are being lowered.
-/

namespace QueryLowering

open Sql

/-- A node that is being lowered: by which rule, the name of its kind, and its place among the parts
of the node above. -/
structure Frame where
  rule : String
  node : String
  index : Option Nat
deriving DecidableEq, Repr

/-- The receipt for a lent select. -/
structure Ticket where
  number : Nat
deriving DecidableEq, Repr

/-- What is known while a query is lowered. -/
structure Context where
  scope : Scope
  /-- The nodes that are being lowered, the innermost one first. -/
  frames : List Frame
  /-- The selects that are lent, the latest one first. -/
  lent : List (Ticket × Select)
  /-- The ticket that was given last. -/
  lastTicket : Ticket

namespace Context

/-- The context in which nothing has been done. -/
def empty : Context := ⟨.empty, [], [], ⟨0⟩⟩

/-- Lends a select to the context. -/
def lend (cx : Context) (s : Select) : Ticket × Context :=
  let ticket : Ticket := ⟨cx.lastTicket.number + 1⟩
  (ticket, { cx with lent := (ticket, s) :: cx.lent, lastTicket := ticket })

/-- Takes the select back that was lent last. -/
def reclaim (cx : Context) (t : Ticket) : Result (Select × Context) :=
  match cx.lent with
  | [] => breach .noQueryLent
  | (top, s) :: rest =>
    if top = t then pure (s, { cx with lent := rest }) else breach .reclaimedOutOfOrder

/-- The select that was lent for a ticket. -/
def lentQuery (cx : Context) (t : Ticket) : Result Select :=
  orThrow (.invalidState .ticketNotOutstanding) (cx.lent.lookup t)

/-- Another select in the place of a lent one. -/
def replaceIn (t : Ticket) (s : Select) : List (Ticket × Select) → List (Ticket × Select)
  | [] => []
  | (u, r) :: rest => if u = t then (u, s) :: rest else (u, r) :: replaceIn t s rest

/-- Puts another select in the place of a lent one. -/
def setLent (cx : Context) (t : Ticket) (s : Select) : Context :=
  { cx with lent := replaceIn t s cx.lent }

/-- The latest lent select that has a data source of an alias. -/
def owner? (cx : Context) (a : Alias) : Option (Ticket × Select) :=
  cx.lent.find? fun (_, s) => s.owns a

/-- Leaves the frames inside a depth. -/
def leaveTo (cx : Context) (depth : Nat) : Context :=
  { cx with frames := cx.frames.drop (cx.frames.length - depth) }

end Context

/-- A step of the lowering against a schema. -/
abbrev Lower : Type → Type := ReaderT Schema (ExceptT Error (StateM Context))

namespace Lower

variable {α : Type}

/-- The result of a step and the context after it. -/
def exec (x : Lower α) (schema : Schema) (cx : Context) : Result α × Context :=
  ((x.run schema).run.run cx).run

/-- The step with a given result and context after it. -/
def ofExec (f : Schema → Context → Result α × Context) : Lower α :=
  fun schema => ExceptT.mk fun cx => f schema cx

/-- A step that only has a result. -/
def ofResult : Result α → Lower α
  | .ok a => pure a
  | .error e => throw e

/-- The scope at this point. -/
def scope : Lower Scope := return (← get).scope

/-- A step that looks something up. -/
def look (f : Schema → Scope → Result α) : Lower α := do
  ofResult (f (← read) (← scope))

/-- A step that changes the scope. -/
def update (f : Scope → α × Scope) : Lower α := do
  let cx ← get
  let (a, sc) := f cx.scope
  set { cx with scope := sc }
  return a

/-- A step that changes the scope unless it fails. -/
def attempt (f : Schema → Scope → Result (α × Scope)) : Lower α := do
  let (a, sc) ← look f
  modify fun cx => { cx with scope := sc }
  return a

/-- The value of an optional that is there if the steps come in order. -/
def known (b : Breach) (o : Option α) : Lower α := orThrow (.invalidState b) o

/-! ## Frames and parameters -/

/-- A step inside a frame. The frame is left however the step ends. -/
def withFrame (f : Frame) (x : Lower α) : Lower α :=
  ofExec fun schema cx =>
    let (result, after) := x.exec schema { cx with frames := f :: cx.frames }
    (result, after.leaveTo cx.frames.length)

/-- A step with further parameters bound. They are unbound however the step ends. -/
def withParameters (params : List (String × Node)) (x : Lower α) : Lower α :=
  ofExec fun schema cx =>
    let (result, after) := x.exec schema { cx with scope := cx.scope.bind params }
    (result, { after with scope := after.scope.unbindTo cx.scope.params.length })

/-! ## Lent selects -/

/-- Lends a select. -/
def lend (s : Select) : Lower Ticket := modifyGet (·.lend s)

/-- Takes a lent select back. -/
def reclaim (t : Ticket) : Lower Select := do
  let (s, cx) ← ofResult ((← get).reclaim t)
  set cx
  return s

/-- The select that was lent for a ticket. -/
def lentQuery (t : Ticket) : Lower Select := do ofResult ((← get).lentQuery t)

/-- Puts another select in the place of a lent one. -/
def setLent (t : Ticket) (s : Select) : Lower Unit := modify (·.setLent t s)

/-- Joins a relation to a lent select. -/
def joinLent (t : Ticket) (r : Relation) (kind : JoinKind) (condition : Option Node)
    (navigation : Option NavigationTag) : Lower Alias := do
  let s ← lentQuery t
  let (a, s) ← update fun sc =>
    let (a, s, sc) := s.addJoin r kind condition navigation sc
    ((a, s), sc)
  setLent t s
  return a

/-- Gives a join of a lent select its condition. -/
def setLentCondition (t : Ticket) (a : Alias) (condition : Node) : Lower Unit := do
  setLent t (← ofResult ((← lentQuery t).setCondition a condition))

end Lower

end QueryLowering
