import QueryLowering.Compile
import QueryLowering.Proofs.UpheldSteps

/-!
# Runs that uphold a condition

A condition that the steps of the lowering keep holds of the value of an expression, and of every context that its
lowering comes to. What an update or a deletion is depends on the call that asks for it, so the condition is to be
shown of it where the call is lowered. There one may use how the lowering has come to the call.

A rule looks at little of an expression: at its kind and what it names, at the types of its parts, and at the
parameters of lambdas among them. Expressions that agree in that are lowered alike by a rule if their parts are.

## Main results

* `agree_lowerBy`: a node whose parts are lowered alike.
* `agree_visit`: nodes that are lowered by the same rule and whose parts are lowered alike.
* `Expr.visit_upholds`: the lowering of an expression keeps the condition.
* `Expr.Descends.upheld`: every context from which a part is lowered satisfies it.
* `Compiler.upholds_body`: what follows for the statement of an expression.
-/

namespace QueryLowering

open Sql Lower List

variable {R : Regime} {F : List Frame → List Frame → Prop} {cx mid cx' : Context} {r r' : Rule}
variable {base : List (Ticket × Select)} {p : Progress} {index : Nat} {n : Node} {s : Select} {arg arg' e e' : Expr}
variable {rs rs' : List Recognizer} {H : Expr → Context → Prop} {parts : List Node}

/-! ## What a rule looks at -/

/-- Two nodes agree in all that a rule looks at: what they name, which of their parts are there, and what
the types of those are. -/
inductive Expr.Alike : Expr → Expr → Prop
  | staticCall (m : Method) (args args' : List Expr) (ty : Ty) : Alike (call m none args ty) (call m none args' ty)
  | call (m : Method) (receiver receiver' : Expr) (args args' : List Expr) (ty : Ty) :
      Alike (call m (some receiver) args ty) (call m (some receiver') args' ty)
  | staticMember (name : String) (ty : Ty) : Alike (member none name ty) (member none name ty)
  | member {target target' : Expr} (name : String) (ty : Ty) (htarget : target.ty = target'.ty) :
      Alike (member (some target) name ty) (member (some target') name ty)
  | binary {left left' right right' : Expr} (op : BinaryOp) (ty : Ty) (hleft : left.ty = left'.ty)
      (hright : right.ty = right'.ty) : Alike (binary op left right ty) (binary op left' right' ty)
  | unary {operand operand' : Expr} (op : UnaryOp) (ty : Ty) (hoperand : operand.ty = operand'.ty) :
      Alike (unary op operand ty) (unary op operand' ty)
  | conditional (test ifTrue ifFalse test' ifTrue' ifFalse' : Expr) (ty : Ty) :
      Alike (conditional test ifTrue ifFalse ty) (conditional test' ifTrue' ifFalse' ty)
  | constant (value : Value) (ty : Ty) : Alike (constant value ty) (constant value ty)
  | captured (name : String) (value : Value) (ty : Ty) : Alike (captured name value ty) (captured name value ty)
  | parameter (param : Param) : Alike (parameter param) (parameter param)
  | lambda (params : List Param) (body body' : Expr) : Alike (lambda params body) (lambda params body')
  | construct {members members' : List (String × Expr)} (ty : Ty)
      (hmembers : members.map (fun m => (m.1, m.2.ty)) = members'.map (fun m => (m.1, m.2.ty))) :
      Alike (construct ty members) (construct ty members')
  | array (element : Ty) (items items' : List Expr) : Alike (array element items) (array element items')
  | navigation (source source' : Expr) (name : String) (ty : Ty) :
      Alike (navigation source name ty) (navigation source' name ty)
  | childJoin (source child source' child' : Expr) {condition condition' result result' : Option Expr}
      (join : ChildJoin) (ty : Ty) (hcondition : condition.isSome = condition'.isSome)
      (hresult : result.isSome = result'.isSome) :
      Alike (childJoin source child condition result join ty) (childJoin source' child' condition' result' join ty)
  | inValues (item values item' values' : Expr) (negated : Bool) :
      Alike (inValues item values negated) (inValues item' values' negated)

theorem Expr.Alike.refl (e : Expr) : e.Alike e := by
  cases e with
  | call m receiver args ty =>
    cases receiver with
    | none => exact .staticCall m args args ty
    | some receiver => exact .call m receiver receiver args args ty
  | member target name ty =>
    cases target with
    | none => exact .staticMember name ty
    | some target => exact .member name ty rfl
  | _ => constructor <;> rfl

theorem Lower.memberValues_congr {members members' : List (String × Expr)}
    (h : members.map (fun m => (m.1, m.2.ty)) = members'.map (fun m => (m.1, m.2.ty))) (parts : List Node) :
    memberValues members parts = memberValues members' parts := by
  induction members generalizing members' parts with
  | nil => cases members' with
    | nil => rfl
    | cons => cases h
  | cons m rest ih => cases members' with
    | nil => cases h
    | cons m' rest' =>
      obtain ⟨name, value⟩ := m
      obtain ⟨name', value'⟩ := m'
      simp only [map_cons, List.cons.injEq, Prod.mk.injEq] at h
      obtain ⟨⟨rfl, hty⟩, hrest⟩ := h
      cases parts with
      | nil => simp only [memberValues]
      | cons part parts => simp only [memberValues, hty, ih hrest]

variable [R.Lawful] {w : R.World}

/-! ## What a rule does -/

namespace Rule

/-- Two rules do the same with the parts of a node. The two quantifiers differ in the end only. -/
inductive SameParts : Rule → Rule → Prop
  | refl (r : Rule) : SameParts r r
  | quantify (universal universal' conditional : Bool) :
      SameParts (step (.quantify universal conditional)) (step (.quantify universal' conditional))

theorem SameParts.skipsParts_eq (h : SameParts r r') : r.skipsParts = r'.skipsParts := by
  cases h <;> rfl

theorem SameParts.chains_eq (h : SameParts r r') : r.chains = r'.chains := by
  cases h <;> rfl

theorem SameParts.same_bindings (h : SameParts r r') (hu : Underway R r base w cx p) (index : Nat)
    (harg : lambdaParams arg = lambdaParams arg') :
    Same R F w cx (r.bindings p index arg) (r'.bindings p index arg') fun q =>
      Underway R r base w cx q.1 ∧ BoundUpheld R w q.2 ∧ (index = 0 → q.1 = p) := by
  have inOrder : ∀ values, bindInOrder arg values = bindInOrder arg' values :=
    fun _ => by rw [bindInOrder, bindInOrder, harg]
  unfold bindings
  split
  · exact Same.pure ⟨hu, forall_mem_nil _, fun _ => rfl⟩
  · next hindex =>
    have bound : ∀ {values : List Node}, (∀ v ∈ values, R.node w v) → Same R F w cx
        (pure (p, bindInOrder arg values)) (pure (p, bindInOrder arg' values)) fun q =>
          Underway R r base w cx q.1 ∧ BoundUpheld R w q.2 ∧ (index = 0 → q.1 = p) :=
      fun hvalues => inOrder _ ▸ Same.pure ⟨hu, boundUpheld_inOrder hvalues, fun _ => rfl⟩
    cases h with
    | refl =>
      split
      · refine (Same.present (by simp) fun t ht => ht).bind fun t ht => ?_
        rw [Step.bindings_congr harg]
        refine (Step.retains_bindings _ (hu.owns ht) hu.holds index).bind fun values hvalues => ?_
        refine (Step.retains_anticipate _ hu ht index hvalues).bind fun q hq => ?_
        exact Same.pure ⟨hq.1, hvalues, fun h => absurd h hindex⟩
      · exact (Same.present (by simp) hu.holds.anchor).bind fun _ hanchor => bound (forall_mem_singleton.2 hanchor)
      · exact (Same.present (by simp) hu.holds.group).bind fun _ hgroup => bound (forall_mem_singleton.2 hgroup.2)
      · exact Same.pure ⟨hu, forall_mem_nil _, fun _ => rfl⟩
    | quantify universal universal' conditional =>
      refine (Same.present (by simp) fun t ht => ht).bind fun t ht => ?_
      rw [Step.bindings_congr harg]
      exact (retains_bindFirst (hu.owns ht)).bind fun _ h => Same.pure ⟨hu, h, fun _ => rfl⟩

/-- A node that goes on with a query lends it. -/
theorem SameParts.runs_receiveQuery (h : SameParts r r') (hu : Underway R r base w cx {}) (hs : R.node w (.select s)) :
    Runs R F w cx (r.receiveQuery {} s) (r'.receiveQuery {} s) fun w' cx' q q' =>
      q = q' ∧ Underway R r base w' cx' q := by
  have lends : ∀ {op : Operation} {step : Step}, r = .step step → Runs R F w cx (do
        let s ← attempt fun schema sc => s.prepare schema op sc
        return { ({} : Progress) with source := some (← lend s) })
      (do
        let s ← attempt fun schema sc => s.prepare schema op sc
        return { ({} : Progress) with source := some (← lend s) })
      fun w' cx' q q' => q = q' ∧ Underway R r base w' cx' q := by
    intro op step hr
    refine ((upholds_prepare hs).underway hu).bind ?_
    rintro s _ w₁ mid - - ⟨rfl, hu, -, hs⟩
    refine Runs.bind (Q := fun w' cx' t t' => t = t' ∧ w' = w₁ ∧ cx'.lent = (t, s) :: mid.lent ∧ R.watch.Frees t) ?_ ?_
    · intro hcx _ _
      obtain ⟨hupheld, hfree⟩ := hcx.lend hs
      exact ⟨rfl, rfl, rfl, w₁, Regime.Lawful.refl w₁, hupheld, rfl, rfl, rfl, hfree⟩
    · rintro t _ _ after - - ⟨rfl, rfl, hlent, hfree⟩
      refine Runs.pure ⟨rfl, { Progress.holds_empty with }, ?_⟩
      exact ⟨⟨step, hr⟩, hfree, s, mid.lent, hlent, hu.fits, fun _ _ => nofun⟩
  cases h with
  | refl =>
    unfold receiveQuery
    split
    · exact lends rfl
    · refine ((upholds_closeSelect hs).underway hu).bind ?_
      rintro d _ w₁ mid - - ⟨rfl, hu, -, hd⟩
      exact Runs.pure ⟨rfl, hu.learn { hu.holds with anchor := fun _ h => Option.mem_some_iff.1 h ▸ hd } rfl rfl⟩
    · exact Runs.pure ⟨rfl, hu⟩
  | quantify universal universal' conditional => exact lends rfl

/-- A quantifier learns nothing from the values of its parts. -/
theorem same_receive_quantify {universal universal' conditional : Bool} {n' : Node} :
    Same R F w cx (receive (step (.quantify universal conditional)) p index arg n)
      (receive (step (.quantify universal' conditional)) p index arg' n') fun q => q = p := by
  cases index with
  | zero => exact Same.pure rfl
  | succ index => exact (Same.present (P := fun _ => True) (by simp) fun _ _ => trivial).bind fun _ _ => Same.pure rfl

theorem SameParts.runs_receive (h : SameParts r r') (hu : Underway R r base w cx p) (index : Nat)
    (hn : R.node w n) : Runs R F w cx (r.receive p index arg n) (r'.receive p index arg' n) fun w' cx' q q' =>
      q = q' ∧ Underway R r base w' cx' q := by
  cases h with
  | refl =>
    unfold receive
    split
    · exact Runs.pure ⟨rfl, hu⟩
    · exact (Same.present (by simp) fun t ht => ht).bind fun t ht => Step.runs_receive _ hu ht _ hn
    · split
      · refine Runs.pure ⟨rfl, hu.learn { hu.holds with group := fun g hg => ?_ } rfl rfl⟩
        exact Option.mem_some_iff.1 hg ▸ Compositional.grouping.1 hn
      · exact .throw (by simp)
    · exact Runs.pure ⟨rfl, hu⟩
  | quantify universal universal' conditional =>
    refine same_receive_quantify.mono ?_
    rintro _ _ q _ - ⟨rfl, rfl, rfl, rfl⟩
    exact ⟨rfl, hu⟩

theorem retains_dataSetTable {m : Method} {ty : Ty} : Retains R F w cx (dataSetTable m ty) (R.node w) :=
  (Same.orThrow (P := fun _ => True) (by simp) fun _ _ => trivial).bind fun _ _ => retains_table

/-- The value of a node that is no step of a query. A captured value is computed from the whole expression. -/
theorem agree_finish (hr : ∀ step, r ≠ .step step) (he : e.Alike e') (hcaptured : r = .captured → e = e')
    (hF : r = .navigation → ∀ f f', F f f' → inCollection f = inCollection f') (hp : p.Holds (R.node w))
    (hparts : ∀ m ∈ parts, R.node w m) :
    Agree R F w cx (r.finish e p parts) (r.finish e' p parts) R.node := by
  have hscalars : ∀ m ∈ parts.map Node.asScalar, R.node w m := by
    intro m hm
    obtain ⟨part, hpart, rfl⟩ := mem_map.1 hm
    exact Node.holds_asScalar (hparts part hpart)
  cases r with
  | step step => exact absurd rfl (hr step)
  | captured =>
    obtain rfl := hcaptured rfl
    exact Same.agree retains_captured
  | passthrough name => exact Same.agree (retains_part hparts)
  | groupAggregate method =>
    refine (Same.present (by simp) hp.group).bind fun group hgroup =>
      Same.agree (Retains.ofResult ?_)
    exact holds_groupValue hgroup.1 hgroup.2 fun m hm => hparts m (mem_of_getElem? hm)
  | membership item values negated =>
    refine (retains_part hparts).bind fun item hitem => (retains_part hparts).bind fun values hvalues => ?_
    exact Same.agree (Retains.ofResult (holds_membership hitem hvalues))
  | union kind =>
    exact (retains_part hparts).bind fun left hleft => (retains_part hparts).bind fun right hright =>
      upholds_union hleft hright
  | recursiveUnion =>
    exact (Same.present (by simp) hp.anchor).bind fun anchor hanchor => (retains_part hparts).bind fun member hmember =>
      upholds_recursiveUnion hanchor hmember
  | conditional =>
    refine (retains_part hparts).bind fun test htest => (retains_part hparts).bind fun ifTrue htrue =>
      (retains_part hparts).bind fun ifFalse hfalse => Upholds.pure ?_
    exact Node.holds_choose (Node.holds_asScalar htest) (Node.holds_asScalar htrue) (Node.holds_asScalar hfalse)
  | constant =>
    cases he with
    | constant value ty => exact Same.agree retains_constant
    | _ => exact .throw (by simp)
  | parameter =>
    cases he with
    | parameter param => exact Same.agree retains_parameter
    | _ => exact .throw (by simp)
  | dataSet =>
    cases he with
    | staticCall | call => exact Same.agree retains_dataSetTable
    | _ => exact .throw (by simp)
  | navigation =>
    cases he with
    | navigation source source' name ty => exact (retains_part hparts).bind fun n hn => upholds_navigate (hF rfl) hn
    | _ => exact .throw (by simp)
  | construct =>
    cases he with
    | @construct members members' ty hmembers =>
      dsimp only [finish, Lower.construct]
      rw [memberValues_congr hmembers]
      exact Same.agree (Retains.ofResult (holds_construct hparts))
    | array element items items' => exact Upholds.pure (Compositional.list.2 hscalars)
    | _ => exact .throw (by simp)
  | function =>
    cases he with
    | staticCall | call =>
      exact Same.agree (Retains.ofResult (holds_lowerMethod hscalars))
    | _ => exact .throw (by simp)
  | member =>
    cases he with
    | staticMember name ty => exact Same.agree (Retains.ofResult holds_staticMember)
    | member name ty htarget =>
      dsimp only [finish]
      rw [htarget]
      exact (retains_part hparts).bind fun n hn => Same.agree (retains_member hn)
    | _ => exact .throw (by simp)
  | binary =>
    cases he with
    | binary op ty hleft hright =>
      dsimp only [finish]
      rw [hleft, hright]
      exact (retains_part hparts).bind fun l hl => (retains_part hparts).bind fun r hr =>
        Same.agree (retains_binary hl hr)
    | _ => exact .throw (by simp)
  | unary =>
    cases he with
    | unary op ty hoperand =>
      dsimp only [finish]
      rw [hoperand]
      exact (retains_part hparts).bind fun n hn => Upholds.pure (holds_unary hn)
    | _ => exact .throw (by simp)

/-- At the end of a step of a query its select is taken back. -/
theorem runs_reclaim (hu : Underway R r base w cx p) {t : Ticket} (ht : p.source = some t) :
    Runs R F w cx (reclaim t) (reclaim t) fun w' cx' s s' => s = s' ∧ w' = w ∧ R.Kept base cx'.lent ∧
      R.node w (.select s) := by
  obtain ⟨-, hfree, s, rest, hlent, hbase, -⟩ := hu.source ht
  intro hcx frames _
  have hreclaim : ∀ cx : Context, cx.lent = (t, s) :: rest →
      (reclaim t).exec R.watch.schema cx = (.ok s, { cx with lent := rest }) := by
    intro cx hlent
    have hyields : Yields R.watch.schema (reclaim t) cx s { cx with lent := rest } := by
      simp [Context.reclaim, hlent]
    exact hyields
  obtain ⟨hupheld, hs⟩ := hcx.reclaim hfree hlent
  rw [hreclaim cx hlent, hreclaim { cx with frames := frames } hlent]
  exact ⟨rfl, rfl, rfl, w, Regime.Lawful.refl w, hupheld, rfl, rfl, hbase, hs⟩

omit [R.Lawful] in
/-- Only a step of a query has lent a select. -/
theorem kept_of_underway (hu : Underway R r base w cx p) (hr : ∀ step, r ≠ .step step) : R.Kept base cx.lent := by
  have hfits := hu.fits
  unfold Progress.Fits at hfits
  split at hfits
  · exact hfits
  · obtain ⟨⟨step, hstep⟩, -⟩ := hfits
    exact absurd hstep (hr step)

/-- The value of a node whose parts satisfy the condition. It holds of an update or a deletion if it does so in the
context of the call. -/
theorem runs_finish (he : e.Alike e') (hcaptured : r = .captured → e = e')
    (hF : r = .navigation → ∀ f f', F f f' → inCollection f = inCollection f') (hu : Underway R r base w cx p)
    (hparts : ∀ m ∈ parts, R.node w m)
    (hmodify : ∀ delete s mid n after, r = .step (.modify delete) → R.node w (.select s) → mid.Upheld R w →
      Yields R.watch.schema (Lower.modify delete s parts) mid n after →
      Yields R.watch.schema (r.finish e p parts) cx n after → R.node w n) :
    Runs R F w cx (r.finish e p parts) (r.finish e' p parts) fun w' cx' n n' =>
      n = n' ∧ R.Kept base cx'.lent ∧ R.node w' n := by
  by_cases hr : ∃ step, r = .step step
  · obtain ⟨step, rfl⟩ := hr
    by_cases hstep : ∃ delete, step = .modify delete
    · obtain ⟨delete, rfl⟩ := hstep
      refine Runs.imp (Q := fun w' cx' n n' => n = n' ∧ R.Kept base cx'.lent ∧ w' = w) ?_ ?_
      · refine (Same.present (by simp) fun t ht => ht).bind fun t ht => (runs_reclaim hu ht).bind ?_
        rintro s _ _ mid - - ⟨rfl, rfl, hbase, -⟩
        refine (retains_modify hparts).mono ?_
        rintro _ _ n _ - ⟨rfl, rfl, rfl, -⟩
        exact ⟨rfl, hbase, rfl⟩
      · rintro _ after n _ hcx - hy ⟨rfl, hbase, rfl⟩
        refine ⟨rfl, hbase, ?_⟩
        obtain ⟨t, _, hsource, hrest⟩ := yields_bind.1 hy
        obtain ⟨ht, rfl⟩ := yields_known.1 hsource
        obtain ⟨s, mid, hreclaim, hrest⟩ := yields_bind.1 hrest
        have hreclaimed := (runs_reclaim (F := fun f f' => f = f') hu ht).of_yields hcx rfl hreclaim
        obtain ⟨-, -, _, _, -, hmid, rfl, rfl, -, hs⟩ := hreclaimed
        exact hmodify delete s mid n after rfl hs hmid hrest hy
    · refine (Same.present (by simp) fun t ht => ht).bind fun t ht => (runs_reclaim hu ht).bind ?_
      rintro s _ _ mid - - ⟨rfl, rfl, hbase, hs⟩
      refine (Step.upholds_finish (fun delete h => hstep ⟨delete, h⟩) hu.holds hs hparts).mono ?_
      rintro _ _ n _ - ⟨rfl, hkept, hn⟩
      exact ⟨rfl, hbase.trans hkept, hn⟩
  · have hr : ∀ step, r ≠ .step step := fun step h => hr ⟨step, h⟩
    refine (agree_finish hr he hcaptured hF hu.holds hparts).mono ?_
    rintro _ _ n _ - ⟨rfl, hkept, hn⟩
    exact ⟨rfl, (kept_of_underway hu hr).trans hkept, hn⟩

end Rule

/-! ## Places below frames -/

/-- Two places below frames between which a navigation sees no difference. -/
def SamePlace (i j : Option Nat) (frames frames' : List Frame) : Prop :=
  ∀ f g : Frame, f.index = i → g.index = j → collectionOf f frames = collectionOf g frames'

/-- Frames of nodes between which navigations see no difference, at the nodes and at their parts. -/
def SameNode (frames frames' : List Frame) : Prop :=
  inCollection frames = inCollection frames' ∧ ∀ i, SamePlace i i frames frames'

theorem collectionOf_congr {f g : Frame} (h : f.index = g.index) (frames : List Frame) :
    collectionOf f frames = collectionOf g frames := by
  cases frames with
  | nil => rfl
  | cons _ _ => simp only [collectionOf, h]

theorem SamePlace.refl (i : Option Nat) (frames : List Frame) : SamePlace i i frames frames :=
  fun _ _ hf hg => collectionOf_congr (hf.trans hg.symm) frames

theorem SameNode.refl (frames : List Frame) : SameNode frames frames := ⟨rfl, fun i => SamePlace.refl i _⟩

/-- Nodes of one rule at places between which there is no difference. -/
theorem SamePlace.node {i j : Option Nat} {frames frames' : List Frame} (h : SamePlace i j frames frames')
    (rule node node' : String) : SameNode (⟨rule, node, i⟩ :: frames) (⟨rule, node', j⟩ :: frames') := by
  have hhere := h ⟨rule, node, i⟩ ⟨rule, node', j⟩ rfl rfl
  refine ⟨hhere, fun k f g hf hg => ?_⟩
  simp only [collectionOf, hhere, hf, hg]

/-! ## The parts of a node -/

/-- The part of a node at a place, if its lowering keeps the condition. The first part meets a node that has learned
nothing. -/
theorem runs_lowerPart (h : r.SameParts r') (hu : Underway R r base w cx p) (hfirst : index = 0 → p = {})
    (harg : lambdaParams arg = lambdaParams arg') {v v' : Visit}
    (hvisit : r.skipsParts = false → ∀ q bound, Yields R.watch.schema (r.bindings p index arg) cx (q, bound) cx →
      Agree R F w { cx with scope := cx.scope.bind bound } (v (r.chains && index == 0) (some index))
        (v' (r.chains && index == 0) (some index)) R.node) :
    Runs R F w cx (lowerPart r p index arg v) (lowerPart r' p index arg' v') fun w' cx' q q' =>
      q = q' ∧ Underway R r base w' cx' q.1 ∧ R.node w' q.2 := by
  unfold lowerPart
  rw [← h.skipsParts_eq, ← h.chains_eq]
  split
  · exact Runs.pure ⟨rfl, hu, Compositional.placeholder⟩
  · next hskips =>
    refine (h.same_bindings hu index harg).imp (fun _ _ _ _ _ _ hy hq => And.intro hy hq) |>.bind ?_
    rintro ⟨q, bound⟩ _ _ mid - - ⟨hy, rfl, rfl, rfl, hu, hbound, hsame⟩
    have hkept : Agree R F _ mid (withParameters bound (v (r.chains && index == 0) (some index)))
        (withParameters bound (v' (r.chains && index == 0) (some index))) R.node :=
      .withParameters hbound (hvisit (by simpa using hskips) q bound hy)
    refine (hkept.underway hu).bind ?_
    rintro n _ w₁ mid - - ⟨rfl, hu, -, hn⟩
    split
    · next hchained =>
      have hindex : index = 0 := beq_iff_eq.1 (Bool.and_eq_true_iff.1 hchained).2
      obtain rfl : q = {} := (hsame hindex).trans (hfirst hindex)
      refine ((agree_openQuery hn).underway hu).bind ?_
      rintro s _ w₂ _ - - ⟨rfl, hu, -, hs⟩
      refine (h.runs_receiveQuery hu hs).bind ?_
      rintro q _ w₃ _ - - ⟨rfl, hu⟩
      exact Runs.pure ⟨rfl, hu, Compositional.placeholder⟩
    · refine (h.runs_receive hu index hn).bind ?_
      rintro q _ w₂ _ hgrows - ⟨rfl, hu⟩
      exact Runs.pure ⟨rfl, hu, Regime.Lawful.mono hgrows hn⟩

/-- The parts of two nodes from a place on have the same parameters and are lowered alike, from the contexts that the
lowering of the first node comes to. -/
def PartsAgree (R : Regime) (F : List Frame → List Frame → Prop) (r : Rule) :
    Progress → Nat → List (Expr × Visit) → List (Expr × Visit) → Context → Prop
  | _, _, [], [], _ => True
  | p, index, v :: vs, v' :: vs', cx => lambdaParams v.1 = lambdaParams v'.1 ∧
      (r.skipsParts = false → ∀ w q bound, Yields R.watch.schema (r.bindings p index v.1) cx (q, bound) cx →
        Agree R F w { cx with scope := cx.scope.bind bound } (v.2 (r.chains && index == 0) (some index))
          (v'.2 (r.chains && index == 0) (some index)) R.node) ∧
      ∀ q n mid, Yields R.watch.schema (lowerPart r p index v.1 v.2) cx (q, n) mid →
        PartsAgree R F r q (index + 1) vs vs' mid
  | _, _, _, _, _ => False

/-- **Proof sketch.** By induction on the parts: the condition goes on to hold of the values of the parts before while
the next one is lowered. -/
theorem runs_lowerParts {parts parts' : List (Expr × Visit)} (hparts : PartsAgree R F r p index parts parts' cx)
    (hu : Underway R r base w cx p) (hfirst : index = 0 → p = {}) :
    Runs R F w cx (lowerParts r p index parts) (lowerParts r p index parts') fun w' cx' q q' =>
      q = q' ∧ Underway R r base w' cx' q.1 ∧ ∀ n ∈ q.2, R.node w' n := by
  induction parts generalizing p index cx w parts' with
  | nil => cases parts' with
    | nil => exact Runs.pure ⟨rfl, hu, forall_mem_nil _⟩
    | cons v' rest' => exact hparts.elim
  | cons v rest ih => cases parts' with
    | nil => exact hparts.elim
    | cons v' rest' =>
      obtain ⟨hparams, hvisit, hrest⟩ := hparts
      have hpart := runs_lowerPart (.refl r) hu hfirst hparams fun hskips q bound => hvisit hskips w q bound
      rw [lowerParts, lowerParts]
      refine hpart.bind ?_
      rintro ⟨q, n⟩ _ w₁ mid - hy ⟨rfl, hu, hn⟩
      refine (ih (hrest q n mid hy) hu (by simp)).bind ?_
      rintro ⟨q', ns⟩ _ w₂ _ hgrows - ⟨rfl, hu, hns⟩
      exact Runs.pure ⟨rfl, hu, forall_mem_cons.2 ⟨Regime.Lawful.mono hgrows hn, hns⟩⟩

omit [R.Lawful] in
/-- A node begins to be lowered. -/
theorem Underway.start (r : Rule) (w : R.World) (cx : Context) : Underway R r cx.lent w cx {} :=
  ⟨Progress.holds_empty, Regime.Kept.refl _⟩

/-- Nodes that a rule sees no difference between and whose parts are lowered alike. -/
theorem agree_lowerBy (he : e.Alike e') (hcaptured : r = .captured → e = e')
    (hF : r = .navigation → ∀ f f', F f f' → inCollection f = inCollection f') {visits visits' : List Visit}
    (hparts : PartsAgree R F r {} 0 (e.children.zip visits) (e'.children.zip visits') cx) {chained : Bool}
    (hmodify : ∀ delete w s args mid n after cx', r = .step (.modify delete) → R.node w (.select s) →
      (∀ m ∈ args, R.node w m) → mid.Upheld R w → Yields R.watch.schema (Lower.modify delete s args) mid n after →
      Yields R.watch.schema (lowerBy r e visits chained) cx n cx' → R.node w n) :
    Agree R F w cx (lowerBy r e visits chained) (lowerBy r e' visits' chained) R.node := by
  refine (runs_lowerParts hparts (.start r w cx) fun _ => rfl).bind ?_
  rintro ⟨q, args⟩ _ w₁ mid - hlowered ⟨rfl, hu, hargs⟩
  have hfinish := Rule.runs_finish (F := F) he hcaptured hF hu hargs fun delete s mid' n after hr hs hmid hn hfinished => by
    subst hr
    refine hmodify delete w₁ s args mid' n after after rfl hs hargs hmid hn (yields_bind.2 ⟨_, _, hlowered, ?_⟩)
    exact yields_bind.2 ⟨n, after, hfinished, yields_pure.2 ⟨rfl, rfl⟩⟩
  refine hfinish.bind ?_
  rintro n _ w₂ after - - ⟨rfl, hbase, hn⟩
  split
  · refine (upholds_closeQuery hn).mono ?_
    rintro _ _ m _ - ⟨rfl, hkept, hm⟩
    exact ⟨rfl, hbase.trans hkept, hm⟩
  · exact Runs.pure ⟨rfl, hbase, hn⟩

/-! ## The lowering of an expression -/

/-- While an expression is lowered from a context, one of its parts is lowered from another context: the parts before
it have been lowered, and its parameters are bound. -/
inductive Expr.Descends (rs : List Recognizer) (schema : Schema) (e : Expr) (cx : Context) : Expr → Context → Prop
  | intro {child : Expr} {mid mid' : Context} {r : Rule} {before after : List Expr} {index : Option Nat}
      {p q : Progress} {values : List Node} {bound : List (String × Node)}
      (hrule : rs.findSome? (·.rule? e) = some r) (hparts : r.skipsParts = false)
      (hchildren : e.children = before ++ child :: after)
      (hbefore : Yields schema (lowerParts r {} 0 (before.zip (before.map (Expr.visit rs))))
        { cx with frames := ⟨r.name, e.kindName, index⟩ :: cx.frames } (p, values) mid)
      (hbound : Yields schema (r.bindings p before.length child) mid (q, bound) mid') :
      Descends rs schema e cx child { mid' with scope := mid'.scope.bind bound }

/-- The condition holds of what the updates and deletions are that are lowered from given contexts. -/
def Regime.Admits (R : Regime) (rs : List Recognizer) (H : Expr → Context → Prop) : Prop :=
  ∀ (e : Expr) (cx : Context) (delete : Bool), H e cx → rs.findSome? (·.rule? e) = some (.step (.modify delete)) →
    ∀ w s args mid n after chained index cx', R.node w (.select s) → (∀ m ∈ args, R.node w m) → mid.Upheld R w →
      Yields R.watch.schema (Lower.modify delete s args) mid n after →
      Yields R.watch.schema (e.visit rs chained index) cx n cx' → R.node w n

/-- Two lowerings agree at places between which a navigation sees no difference. -/
def Visit.Agree (R : Regime) (w : R.World) (cx : Context) (v v' : Visit) : Prop :=
  ∀ chained i j, Lower.Agree R (SamePlace i j) w cx (v chained i) (v' chained j) R.node

theorem yields_lowerParts_concat {schema : Schema} {parts : List (Expr × Visit)} {v : Expr × Visit}
    {q q' : Progress} {ns : List Node} (h : Yields schema (lowerParts r p index parts) cx (q, ns) mid)
    (hv : Yields schema (lowerPart r q (index + parts.length) v.1 v.2) mid (q', n) cx') :
    Yields schema (lowerParts r p index (parts ++ [v])) cx (q', ns ++ [n]) cx' := by
  induction parts generalizing p index cx ns with
  | nil =>
    obtain ⟨hpair, rfl⟩ := yields_pure.1 h
    obtain ⟨rfl, rfl⟩ := Prod.mk.inj hpair
    exact yields_bind.2 ⟨_, _, hv, yields_bind.2 ⟨_, _, yields_pure.2 ⟨rfl, rfl⟩, yields_pure.2 ⟨rfl, rfl⟩⟩⟩
  | cons u rest ih =>
    simp only [lowerParts, yields_bind, yields_pure, Prod.mk.injEq] at h
    obtain ⟨⟨q₁, m⟩, mid₁, hu, ⟨q₂, ms⟩, _, hrest, ⟨rfl, rfl⟩, rfl⟩ := h
    rw [length_cons, Nat.add_comm rest.length, ← Nat.add_assoc] at hv
    exact yields_bind.2 ⟨_, _, hu, yields_bind.2 ⟨_, _, ih hrest hv, yields_pure.2 ⟨rfl, rfl⟩⟩⟩

section

variable (hH : ∀ e cx child cx', H e cx → e.Descends rs R.watch.schema cx child cx' → H child cx')

include hH in
omit [R.Lawful] in
/-- The parts of an expression from a place on, if each of them is lowered like a part of another expression wherever
it is lowered. -/
theorem Expr.partsAgree (hrule : rs.findSome? (·.rule? e) = some r) (hcx : H e cx) (place : Option Nat)
    (done : List Expr) {rest rest' after : List Expr} (hchildren : e.children = done ++ (rest ++ after))
    {values : List Node} (hdone : Yields R.watch.schema (lowerParts r {} 0 (done.zip (done.map (Expr.visit rs))))
      { cx with frames := ⟨r.name, e.kindName, place⟩ :: cx.frames } (p, values) mid)
    (h : List.Forall₂ (fun c c' => lambdaParams c = lambdaParams c' ∧
      ∀ w cx, H c cx → Visit.Agree R w cx (c.visit rs) (c'.visit rs')) rest rest') :
    PartsAgree R SameNode r p done.length (rest.zip (rest.map (Expr.visit rs)))
      (rest'.zip (rest'.map (Expr.visit rs'))) mid := by
  induction h generalizing done p values mid with
  | nil => trivial
  | @cons c c' rest rest' hc _ ih =>
    refine ⟨hc.1, fun hskips w q bound hbound => ?_, fun q n mid' hy => ?_⟩
    · have hdescends := Expr.Descends.intro hrule hskips hchildren hdone hbound
      exact (hc.2 w _ (hH e cx c _ hcx hdescends) _ _ _).anti fun _ _ h => h.2 _
    · have hnext : Yields R.watch.schema (lowerParts r {} 0 ((done ++ [c]).zip ((done ++ [c]).map (Expr.visit rs))))
          { cx with frames := ⟨r.name, e.kindName, place⟩ :: cx.frames } (q, values ++ [n]) mid' := by
        rw [← map_prod_left_eq_zip] at hdone
        rw [← map_prod_left_eq_zip, map_append]
        refine yields_lowerParts_concat (v := (c, c.visit rs)) hdone ?_
        rw [length_map, Nat.zero_add]
        exact hy
      rw [← length_concat (a := c), concat_eq_append]
      exact ih (done ++ [c]) (by simpa using hchildren) hnext

include hH in
/-- Nodes that are lowered by the same rule. -/
theorem agree_visit (hmodify : R.Admits rs H) (hcx : H e cx)
    (hrule : rs.findSome? (·.rule? e) = rs'.findSome? (·.rule? e')) (he : e.Alike e')
    (hcaptured : rs.findSome? (·.rule? e) = some .captured → e = e')
    (h : List.Forall₂ (fun c c' => lambdaParams c = lambdaParams c' ∧
      ∀ w cx, H c cx → Visit.Agree R w cx (c.visit rs) (c'.visit rs')) e.children e'.children) :
    Visit.Agree R w cx (e.visit rs) (e'.visit rs') := by
  intro chained i j
  have hadmits := hmodify e cx
  rw [Expr.visit_eq, Expr.visit_eq]
  unfold lowerNode
  rw [← hrule]
  split
  · next r hr =>
    refine .withFrame (G := SameNode) (agree_lowerBy he (fun hr' => hcaptured (hr' ▸ hr)) (fun _ _ _ h => h.1) ?_ ?_)
      fun f f' hf => hf.node ..
    · exact Expr.partsAgree hH hr hcx i [] (append_nil _).symm (yields_pure.2 ⟨rfl, rfl⟩) h
    · rintro delete w s args mid n after cx' rfl hs hargs hmid hn hy
      refine hadmits delete hcx hr w s args mid n after chained i (cx'.leaveTo cx.frames.length) hs hargs hmid hn ?_
      rw [Expr.visit_eq, lowerNode, hr]
      exact yields_withFrame.2 ⟨cx', hy, rfl⟩
  · exact .throw (by simp)

include hH in
/-- The lowering of an expression keeps a condition that holds of its updates and deletions, whatever recognizers say
by which rule a node is lowered. It is lowered alike at places between which a navigation sees no difference. -/
theorem Expr.visit_upholds (hmodify : R.Admits rs H) (e : Expr) (hcx : H e cx) :
    Visit.Agree R w cx (e.visit rs) (e.visit rs) := by
  induction e using Expr.induction_on_children generalizing cx w with
  | _ e ih =>
    exact agree_visit hH hmodify hcx rfl (.refl e) (fun _ => rfl)
      (forall₂_same.2 fun c hc => ⟨rfl, fun w cx hcx => ih c hc hcx⟩)

include hH in
/-- The first parts of an expression. -/
theorem Expr.runs_parts (hmodify : R.Admits rs H) (hrule : rs.findSome? (·.rule? e) = some r) (hcx : H e cx)
    (place : Option Nat) {before after : List Expr} (hchildren : e.children = before ++ after) :
    Runs R SameNode w { cx with frames := ⟨r.name, e.kindName, place⟩ :: cx.frames }
      (lowerParts r {} 0 (before.zip (before.map (Expr.visit rs))))
      (lowerParts r {} 0 (before.zip (before.map (Expr.visit rs)))) fun w' cx' q q' =>
        q = q' ∧ Underway R r cx.lent w' cx' q.1 ∧ ∀ n ∈ q.2, R.node w' n := by
  have hparts := Expr.partsAgree hH hrule hcx place [] hchildren (yields_pure.2 ⟨rfl, rfl⟩)
    (forall₂_same.2 fun c _ => ⟨rfl, fun w cx hcx => c.visit_upholds hH hmodify hcx⟩)
  exact runs_lowerParts hparts ⟨Progress.holds_empty, Regime.Kept.refl _⟩ fun _ => rfl

include hH in
/-- Every context from which a part is lowered satisfies the condition. -/
theorem Expr.Descends.upheld (hmodify : R.Admits rs H) {child : Expr} (hcx : H e cx)
    (hupheld : cx.Upheld R w) (h : e.Descends rs R.watch.schema cx child cx') :
    ∃ w', R.Grows w w' ∧ cx'.Upheld R w' := by
  cases h with
  | @intro mid mid' r before after index p q values bound hrule hskips hchildren hbefore hbound =>
    obtain ⟨-, -, w₁, _, h₁, hmid, rfl, hu, -⟩ := (Expr.runs_parts hH hmodify hrule hcx index hchildren).of_yields
      (hupheld.withFrames _) (SameNode.refl _) hbefore
    obtain ⟨-, -, w₂, _, h₂, hmid', rfl, rfl, rfl, -, hparams, -⟩ :=
      ((Rule.SameParts.refl r).same_bindings hu _ rfl).of_yields hmid (F := SameNode) (SameNode.refl _) hbound
    exact ⟨_, h₁, hmid'.withParams _ (forall_mem_append.2 ⟨hmid'.params, hparams⟩)⟩

end

/-! ## Statements -/

/-- What a statement does whose value is a query, an update or a deletion as it stands. -/
def Sql.Node.body? : Node → Option Body
  | .derived q | .subquery q | .rows q => some (.query q)
  | .update u => some (.update u)
  | .delete q => some (.delete q)
  | _ => none

section

variable {Q : R.World → Body → Prop} (hQ : ∀ {w : R.World} {n : Node} {b : Body}, n.body? = some b → R.node w n → Q w b)

include hQ

theorem Lower.upholds_statementBody (hn : R.node w n) : Upholds R F w cx (statementBody n) Q := by
  have hclose : ∀ {w : R.World} {cx : Context} {s : Select}, R.node w (.select s) →
      Upholds R F w cx (do return Body.query (← closeSelect s)) Q :=
    fun hs => (upholds_closeSelect hs).bind fun d _ _ _ hd => Upholds.pure (hQ (n := .derived d) rfl hd)
  unfold statementBody
  split
  · exact Upholds.pure (hQ rfl hn)
  · exact Upholds.pure (hQ rfl hn)
  · exact Upholds.pure (hQ rfl hn)
  · exact hclose hn
  · exact (upholds_selectFrom Relation.holds_table).bind fun s _ _ _ hs => hclose hs
  · next items => exact (upholds_selectFrom (r := .union items) hn).bind fun s _ _ _ hs => hclose hs
  · exact Upholds.pure (hQ rfl hn)
  · exact Upholds.pure (hQ rfl hn)
  · refine hclose (Regime.withClauses Regime.Lawful.empty ?_ rfl)
    exact Select.clauses_empty.setProjection fun m hm => Option.some.inj hm ▸ hn

/-- A condition on what a statement does follows from one that the lowering keeps. -/
theorem Compiler.upholds_body {c : Compiler} (hschema : R.watch.schema = c.schema) (hkept : R.watch.kept = [])
    (hH : ∀ e cx child cx', H e cx → e.Descends c.recognizers c.schema cx child cx' → H child cx')
    (hmodify : R.Admits c.recognizers H) (he : H e .empty) (hfits : R.Fits w Context.empty.scope) {b : Body}
    (hb : c.body e = .ok b) :
    ∃ w' cx, Yields c.schema (e.lower c.recognizers >>= statementBody) .empty b cx ∧ R.Grows w w' ∧ cx.Upheld R w' ∧
      Q w' b := by
  rw [Compiler.body, ← hschema] at hb
  rw [← hschema] at hH ⊢
  have hy : Yields R.watch.schema (e.lower c.recognizers >>= statementBody) .empty b _ := Prod.ext hb rfl
  have hlower : Upholds R (SamePlace none none) w .empty (e.lower c.recognizers >>= statementBody) Q :=
    (e.visit_upholds hH hmodify he false none none).bind fun n _ _ _ hn => upholds_statementBody hQ hn
  obtain ⟨-, -, w', _, hgrows, hupheld, rfl, -, h⟩ :=
    hlower.of_yields (Context.upheld_empty hkept hfits) (SamePlace.refl none _) hy
  exact ⟨w', _, hy, hgrows, hupheld, h⟩

end

end QueryLowering
