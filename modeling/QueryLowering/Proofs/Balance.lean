import QueryLowering.Proofs.Agreement

/-!
# Balanced lowerings

The lowering of a node enters a frame, binds parameters and lends a select, and gives all of this back
in another place. However it ends, the frames and the names of the parameters are those from before.
The lent selects are a stack: a lowering that has a result leaves the tickets that were there, and none
fails because of the stack.

A node may have one select lent while its parts are lowered. Its ticket is then the one that the node
remembers, and it lies above the tickets from before the node, so it is the latest one when the node
takes its select back.

## Main results

* `Expr.visit_balanced`: the lowering of an expression, by whatever rules.
* `lower_leaves_context_balanced`: what it means for the context.
-/

namespace QueryLowering

open Sql Result Lower

variable (rs : List Recognizer) (e : Expr) (schema : Schema) (cx : Context) (chained : Bool) (index : Option Nat)

instance : Invariant fun _ => True where
  source := trivial
  select := ⟨fun _ => ⟨Select.clauses_iff.2 fun _ _ => trivial, trivial⟩, fun _ => trivial⟩
  empty := trivial
  opened _ := trivial
  joined _ _ _ := trivial
  conditioned _ _ _ := trivial
  derived := ⟨fun _ => ⟨trivial, fun _ _ => trivial⟩, fun _ => trivial⟩
  existence _ := trivial
  union := ⟨fun _ _ _ => trivial, fun _ => trivial⟩
  recursion _ _ := trivial
  deletion _ _ _ _ := trivial
  updating _ _ _ _ := trivial

/-- Nothing is asked of the values of a context, and any context has them. -/
abbrev Schema.lenience (schema : Schema) : Regime := Invariant.regime schema fun _ => True

theorem Context.upheld_lenience : cx.Upheld schema.lenience () where
  fits := trivial
  params _ _ := trivial
  lent := ⟨cx.lent, (List.append_nil _).symm, fun _ _ => ⟨List.forall_mem_nil _, trivial⟩⟩
  tickets := List.forall_mem_nil _
  stack h := h.elim

theorem Expr.visit_lenient {schema : Schema} {w : schema.lenience.World} {cx : Context} :
    Visit.Agree schema.lenience w cx (e.visit rs) (e.visit rs) :=
  e.visit_upholds (fun _ _ _ _ _ _ => trivial) (Invariant.admits schema rs fun _ _ => True) trivial

/-- The lowering of an expression is balanced, whatever recognizers say by which rule a node is lowered. -/
theorem Expr.visit_balanced : ((e.visit rs chained index).exec schema cx).2.frames = cx.frames ∧
      ((e.visit rs chained index).exec schema cx).2.scope.names = cx.scope.names ∧
      (∀ n, ((e.visit rs chained index).exec schema cx).1 = .ok n →
        ((e.visit rs chained index).exec schema cx).2.tickets = cx.tickets) ∧
      Plain ((e.visit rs chained index).exec schema cx).1 := by
  obtain ⟨hframes, hnames, -, w, -, -, hmatch⟩ :=
    e.visit_lenient (w := ()) rs chained index index (cx.upheld_lenience schema) cx.frames (SamePlace.refl index _)
  have hmatch : Match _ ((e.visit rs chained index).exec schema cx).1 ((e.visit rs chained index).exec schema cx).1 :=
    hmatch
  refine ⟨hframes, hnames, fun n hn => ?_, fun error herror => ?_⟩
  · rw [hn] at hmatch
    exact hmatch.2.1.tickets
  · rw [herror] at hmatch
    exact hmatch.1

/-- Nothing is bound or unbound around an expression. -/
theorem Lower.withParameters_nil_visit :
    withParameters [] (e.visit rs chained index) = e.visit rs chained index := by
  funext schema cx
  have hlength : ((e.visit rs chained index).exec schema cx).2.scope.params.length = cx.scope.params.length := by
    simpa [Scope.names] using congrArg List.length (e.visit_balanced rs schema cx chained index).2.1
  have hwith : (withParameters [] (e.visit rs chained index)).exec schema cx =
      (fun r : Result Node × Context => (r.1, { r.2 with scope := r.2.scope.unbindTo cx.scope.params.length }))
        ((e.visit rs chained index).exec schema { cx with scope := cx.scope.bind [] }) := rfl
  rw [Scope.bind_nil] at hwith
  dsimp only at hwith
  rw [Scope.unbindTo, ← hlength, List.take_length] at hwith
  exact hwith

/-- The lowering of an expression leaves its context balanced. Whether it succeeds or fails, the frames and
the names of the bound parameters are those from before. If it succeeds, the same tickets are on the stack of
lent selects. It never fails because a select is taken back out of order or looked up without being lent. -/
theorem lower_leaves_context_balanced (e : Expr) (schema : Schema) (cx : Context) :
    ((e.lower Recognizer.standard).exec schema cx).2.frames = cx.frames ∧
      ((e.lower Recognizer.standard).exec schema cx).2.scope.params.map (·.1) = cx.scope.params.map (·.1) ∧
      (((e.lower Recognizer.standard).exec schema cx).1.isOk →
        ((e.lower Recognizer.standard).exec schema cx).2.lent.map (·.1) = cx.lent.map (·.1)) ∧
      ∀ b ∈ [Breach.reclaimedOutOfOrder, .noQueryLent, .ticketNotOutstanding],
        ((e.lower Recognizer.standard).exec schema cx).1 ≠ .error (.invalidState b) := by
  obtain ⟨hframes, hnames, hresult, hcause⟩ := Expr.visit_balanced Recognizer.standard e schema cx false none
  refine ⟨hframes, hnames, ?_, ?_⟩
  · intro hok
    cases hn : ((e.visit Recognizer.standard false none).exec schema cx).1 with
    | error error =>
      rw [Expr.lower, hn] at hok
      cases hok
    | ok n => exact hresult n hn
  · intro b hb herror
    have hnot := hcause _ herror
    simp only [List.mem_cons, List.not_mem_nil, or_false] at hb
    rcases hb with rfl | rfl | rfl <;> exact hnot trivial

-- A lowering that fails may leave a select lent: here that of a filter by a member that there is not.
example :
    ((((Query.ofEntity "Student").filter "x" fun x => x.memberOf "Missing" .bool).expr.lower
      Recognizer.standard).exec ⟨[Sample.student.toEntity]⟩ .empty).2.lent.length = 1 := by
  decide +kernel

end QueryLowering
